import Xtable.Storage.Flush
import Xtable.Theorems.Memtables

/-! For each write a commit puts an entry into the active memtable, and then publishes the key in every memtable,
    while the flush loop rotates and takes memtables. An immutable memtable that still holds an older version of the
    key is relabelled. -/

namespace Xtable

open Coordinator

/-- The memtables, the publication that is due, and the entries that commits have put so far. -/
structure PublishState where
  mems : MemTableSet := {}
  due : Option (RecordKey × Nat) := none
  log : List MemEntry := []

inductive PublishOp where
  /-- `put_invisible`, and a rotation if the memtable is full or `aged`. -/
  | put (entry : MemEntry) (aged : Bool)
  | publish
  /-- `try_rotate_active`. -/
  | rotate
  /-- `take_immutables`. -/
  | take

/-- The steps in the order in which a commit issues them: a key is published at the version that was just put. -/
def PublishOp.step : PublishOp → PublishState → Option PublishState
  | put entry aged, s =>
    match s.due, entry.commitVersion with
    | none, some v => some ⟨s.mems.putInvisible entry aged, some (entry.key, v), s.log ++ [entry]⟩
    | _, _ => none
  | publish, s => s.due.map fun d => ⟨s.mems.publish d.1 d.2, none, s.log⟩
  | rotate, s => some { s with mems := s.mems.rotate }
  | take, s => some { s with mems := { s.mems with flushing := [] } }

/-! ## A commit is a run of these steps -/

theorem published_run (t : String) (v : Nat) (bodies : Table String Bytes) (aged : String → Bool)
    (ws : WriteSet) (m : MemTableSet) (log : List MemEntry) :
    ∃ hist, Run PublishOp.step ⟨m, none, log⟩ hist
      ⟨m.published t v bodies aged ws, none, log ++ ws.map fun x => memEntry t v bodies x.1 x.2⟩ := by
  induction ws generalizing m log with
  | nil =>
    rw [List.map_nil, List.append_nil]
    exact ⟨[], .nil⟩
  | cons x rest ih =>
    obtain ⟨hist, hrun⟩ := ih ((m.putInvisible (memEntry t v bodies x.1 x.2) (aged x.1)).publish (memKey x.1) v)
      (log ++ [memEntry t v bodies x.1 x.2])
    rw [List.append_assoc] at hrun
    exact ⟨_, .cons (l := .put (memEntry t v bodies x.1 x.2) (aged x.1)) rfl (.cons (l := .publish) rfl hrun)⟩

/-! ## Memtables keep their ids -/

/-- Memtables have distinct ids, and every memtable of the queue is older than the active one. -/
structure MemTableSet.Numbered (m : MemTableSet) : Prop where
  older : ∀ mt ∈ m.flushing, mt.id < m.active.id
  nodup : (m.flushing.map (·.id)).Nodup

namespace MemTableSet

variable {m : MemTableSet} {key : RecordKey} {e : MemEntry} {id v : Nat}

theorem Numbered.rotate (h : m.Numbered) : m.rotate.Numbered where
  older mt hmt := by
    rcases List.mem_append.1 hmt with hmt | hmt
    · exact (h.older mt hmt).trans (Nat.lt_succ_self _)
    · rw [List.mem_singleton.1 hmt]
      exact Nat.lt_succ_self _
  nodup := by
    have hfresh : m.active.id ∉ m.flushing.map (·.id) := by
      intro hmem
      obtain ⟨mt, hmt, hid⟩ := List.mem_map.1 hmem
      exact absurd hid (h.older mt hmt).ne
    simpa [MemTableSet.rotate, List.nodup_append] using ⟨h.nodup, fun mt hmt heq => hfresh (heq ▸ List.mem_map_of_mem hmt)⟩

theorem Numbered.put (h : m.Numbered) (e : MemEntry) (aged : Bool) : (m.putInvisible e aged).Numbered := by
  have hput : ({ m with active := m.active.putInvisible e } : MemTableSet).Numbered := ⟨h.older, h.nodup⟩
  unfold putInvisible
  simp only
  split
  · exact hput.rotate
  · exact hput

theorem Numbered.publish (h : m.Numbered) (key : RecordKey) (v : Nat) : (m.publish key v).Numbered where
  older mt hmt := by
    obtain ⟨mt', hmt', rfl⟩ := List.mem_map.1 hmt
    simp only [MemTableSet.publish, id_publish]
    exact h.older mt' hmt'
  nodup := by
    have hsame : (m.flushing.map fun mt => mt.publish key v).map (·.id) = m.flushing.map (·.id) := by
      simp [Function.comp_def, id_publish]
    exact hsame ▸ h.nodup

theorem Numbered.eq_of_id (h : m.Numbered) {mt mt' : MemTable} (hmt : mt ∈ m.active :: m.flushing)
    (hmt' : mt' ∈ m.active :: m.flushing) (hid : mt.id = mt'.id) : mt = mt' := by
  have hnodup : ((m.active :: m.flushing).map (·.id)).Nodup := by
    refine List.nodup_cons.2 ⟨fun hmem => ?_, h.nodup⟩
    obtain ⟨x, hx, hid⟩ := List.mem_map.1 hmem
    exact absurd hid (h.older x hx).ne
  exact List.inj_on_of_nodup_map hnodup hmt hmt' hid

theorem Numbered.at_unique (h : m.Numbered) {e' : MemEntry} (he : m.At id key e) (he' : m.At id key e') : e = e' := by
  obtain ⟨mt, hmt, hid, hget⟩ := he
  obtain ⟨mt', hmt', hid', hget'⟩ := he'
  obtain rfl := h.eq_of_id hmt hmt' (hid.trans hid'.symm)
  exact Option.some.inj (hget.symm.trans hget')

end MemTableSet

/-! ## Steps -/

/-- A put finds no immutable memtable that still holds its key. -/
def PublishOp.Clear (s : PublishState) : PublishOp → Prop
  | put entry _ => ∀ mt ∈ s.mems.flushing, mt.map[entry.key]? = none
  | _ => True

/-- Memtables hold entries as they were put, and a key that is due is held at the version it is due at. -/
structure PublishState.Exact (s : PublishState) : Prop where
  numbered : s.mems.Numbered
  logged : ∀ key e, s.mems.Holds key e → e ∈ s.log
  due : ∀ key v e, s.due = some (key, v) → s.mems.Holds key e → e.commitVersion = (v : WithTop Nat)

variable {s s' : PublishState} {op : PublishOp}

theorem PublishState.Exact.at_of_step (h : s.Exact) (hstep : op.step s = some s') {id : Nat} {key : RecordKey} {e : MemEntry}
    (he : s'.mems.At id key e) : s.mems.At id key e ∨ ∃ aged, op = .put e aged := by
  cases op with
  | put entry aged =>
    simp only [PublishOp.step] at hstep
    split at hstep
    case h_2 => cases hstep
    case h_1 =>
      cases hstep
      rcases he.of_putInvisible with ⟨-, rfl⟩ | ⟨hold, -⟩
      · exact .inr ⟨aged, rfl⟩
      · exact .inl hold
  | publish =>
    obtain ⟨⟨k, v⟩, hdue, rfl⟩ := Option.map_eq_some_iff.1 hstep
    obtain ⟨e', he', heq⟩ := he.of_publish
    left
    split at heq
    case isTrue hkey =>
      -- the key was put at this version
      have hkey : k = key := hkey
      have hv := h.due k v e' hdue (hkey ▸ MemTableSet.holds_iff.2 ⟨id, he'⟩)
      have hsame : e = e' := by rw [heq, ← hv]
      exact hsame ▸ he'
    case isFalse => exact heq ▸ he'
  | rotate =>
    cases hstep
    exact .inl he.of_rotate
  | take =>
    cases hstep
    obtain ⟨mt, hmt, hid, hget⟩ := he
    exact .inl ⟨mt, List.mem_singleton.1 hmt ▸ List.mem_cons_self, hid, hget⟩

theorem PublishState.Exact.step (h : s.Exact) (hclear : op.Clear s) (hstep : op.step s = some s') : s'.Exact := by
  have hlogged : ∀ key e, s'.mems.Holds key e → e ∈ s.log ∨ ∃ aged, op = .put e aged := by
    intro key e he
    obtain ⟨id, he⟩ := MemTableSet.holds_iff.1 he
    rcases h.at_of_step hstep he with hold | hput
    · exact .inl (h.logged key e (MemTableSet.holds_iff.2 ⟨id, hold⟩))
    · exact .inr hput
  cases op with
  | put entry aged =>
    simp only [PublishOp.step] at hstep
    split at hstep
    case h_2 => cases hstep
    case h_1 v _ hv =>
      cases hstep
      refine ⟨h.numbered.put entry aged, fun key e he => ?_, fun key v' e hdue he => ?_⟩
      · rcases hlogged key e he with hold | ⟨aged', hput⟩
        · exact List.mem_append_left _ hold
        · obtain ⟨rfl, -⟩ := PublishOp.put.inj hput
          exact List.mem_append_right _ (List.mem_singleton_self _)
      · obtain ⟨rfl, rfl⟩ := Prod.mk.inj (Option.some.inj hdue)
        obtain ⟨id, he⟩ := MemTableSet.holds_iff.1 he
        rcases he.of_putInvisible with ⟨-, rfl⟩ | ⟨-, hqueue⟩
        · exact hv
        · obtain ⟨mt, hmt, hget⟩ := hqueue rfl
          rw [hclear mt hmt] at hget
          cases hget
  | publish =>
    obtain ⟨⟨k, v⟩, hdue, rfl⟩ := Option.map_eq_some_iff.1 hstep
    refine ⟨h.numbered.publish k v, fun key e he => ?_, fun key v' e hnone => ?_⟩
    · rcases hlogged key e he with hold | ⟨aged, hput⟩
      · exact hold
      · cases hput
    · cases hnone
  | rotate =>
    cases hstep
    refine ⟨h.numbered.rotate, fun key e he => ?_, fun key v e hdue he => ?_⟩
    · rcases hlogged key e he with hold | ⟨aged, hput⟩
      · exact hold
      · cases hput
    · obtain ⟨id, he⟩ := MemTableSet.holds_iff.1 he
      exact h.due key v e hdue (MemTableSet.holds_iff.2 ⟨id, he.of_rotate⟩)
  | take =>
    cases hstep
    have hsub : ∀ key e, MemTableSet.Holds { s.mems with flushing := [] } key e → s.mems.Holds key e := by
      rintro key e ⟨mt, hmt, hget⟩
      exact ⟨mt, List.mem_singleton.1 hmt ▸ List.mem_cons_self, hget⟩
    exact ⟨⟨by simp, by simp⟩, fun key e he => h.logged key e (hsub key e he), fun key v e hdue he => h.due key v e hdue (hsub key e he)⟩

/-! ## Runs -/

/-- If no commit puts a key that an immutable memtable still holds, a visible entry keeps its version for as long as
it is there, and what a flush would write was put by a commit, key, version and body. -/
theorem published_versions_stay {hist : List (PublishState × PublishOp × PublishState)} {s : PublishState}
    (hrun : Run PublishOp.step {} hist s) (hclear : ∀ x ∈ hist, x.2.1.Clear x.1) :
    (∀ x ∈ hist, ∀ id key e e', x.1.mems.At id key e → x.2.2.mems.At id key e' → e.commitVersion ≠ ⊤ →
      e'.commitVersion = e.commitVersion ∨ ∃ aged, x.2.1 = .put e' aged) ∧
    ∀ mt ∈ s.mems.active :: s.mems.flushing, ∀ ce ∈ mt.entries.filterMap Flush.chunkEntry,
      ∃ m ∈ s.log, Flush.chunkEntry m = some ce := by
  have hempty : PublishState.Exact {} := by
    refine ⟨⟨by simp, by simp⟩, ?_, by simp⟩
    rintro key e ⟨mt, hmt, hget⟩
    rw [List.mem_singleton.1 hmt] at hget
    simp at hget
  obtain ⟨hlast, hall⟩ := hrun.invariant (I := PublishState.Exact) (C := fun s op => PublishOp.Clear s op) hempty
    (fun _ _ _ hs hop hstep => hs.step hop hstep) hclear
  refine ⟨fun x hx id key e e' he he' _ => ?_, fun mt hmt ce hce => ?_⟩
  · rcases (hall x hx).1.at_of_step (hrun.step_of_mem x hx) he' with hold | hput
    · exact .inl (congrArg MemEntry.commitVersion ((hall x hx).1.numbered.at_unique hold he))
    · exact .inr hput
  · obtain ⟨m, hm, hentry⟩ := List.mem_filterMap.1 hce
    obtain ⟨⟨key, m'⟩, hmem, rfl⟩ := List.mem_map.1 hm
    exact ⟨m', hlast.logged key m' ⟨mt, hmt, Table.mem_toList.1 hmem⟩, hentry⟩

instance (s : PublishState) (op : PublishOp) : Decidable (op.Clear s) :=
  match op with
  | .put entry _ => inferInstanceAs (Decidable (∀ mt ∈ s.mems.flushing, mt.map[entry.key]? = none))
  | .publish | .rotate | .take => inferInstanceAs (Decidable True)

def sampleWrite (v : Nat) (body : Bytes) : MemEntry :=
  ⟨("s", "t", "r"), body, (v : WithTop Nat), "T", false, none, [], 0, v, body.length⟩

theorem published_versions_stay_flushed : ∃ hist s, Run PublishOp.step {} hist s ∧ s.log = [sampleWrite 1 [1], sampleWrite 2 [2]] ∧
    ∀ mt ∈ s.mems.active :: s.mems.flushing, ∀ ce ∈ mt.entries.filterMap Flush.chunkEntry,
      ∃ m ∈ s.log, Flush.chunkEntry m = some ce := by
  obtain ⟨s, hrun, hlog⟩ := Run.exists_of_exec (guarded (fun s op => decide (PublishOp.Clear s op)) PublishOp.step) {}
    [.put (sampleWrite 1 [1]) false, .publish, .rotate, .take, .put (sampleWrite 2 [2]) false, .publish]
    (fun s => s.log = [sampleWrite 1 [1], sampleWrite 2 [2]]) (by decide +kernel)
  obtain ⟨hrun, hguard⟩ := hrun.of_guarded
  exact ⟨_, s, hrun, of_decide_eq_true hlog,
    (published_versions_stay hrun fun x hx => of_decide_eq_true (hguard x hx)).2⟩

def relabelled : MemEntry := { sampleWrite 1 [1] with commitVersion := (2 : Nat) }

/-- A second commit of a key relabels the entry of the first in an immutable memtable, and a flush of that would write the
first body as the second version. -/
theorem published_versions_change : ∃ hist s s', Run PublishOp.step {} hist s ∧ PublishOp.publish.step s = some s' ∧
    (∃ id e e', s.mems.At id ("s", "t", "r") e ∧ s'.mems.At id ("s", "t", "r") e' ∧ e.commitVersion = 1 ∧ e'.commitVersion = 2) ∧
    ∃ mt ∈ s'.mems.flushing, ∃ ce ∈ mt.entries.filterMap Flush.chunkEntry, ce.commitVersion = 2 ∧ ce.value = [1] ∧
      ∀ m ∈ s'.log, Flush.chunkEntry m ≠ some ce := by
  obtain ⟨s, hrun, htest⟩ := Run.exists_of_exec PublishOp.step {}
    [.put (sampleWrite 1 [1]) false, .publish, .rotate, .put (sampleWrite 2 [2]) false]
    (fun s => s.due = some (("s", "t", "r"), 2) ∧ s.log = [sampleWrite 1 [1], sampleWrite 2 [2]] ∧
      s.mems.flushing.any fun mt => mt.map[(("s", "t", "r") : RecordKey)]? = some (sampleWrite 1 [1]) ∧
        (mt.publish ("s", "t", "r") 2).map[(("s", "t", "r") : RecordKey)]? = some relabelled) (by decide +kernel)
  obtain ⟨hdue, hlog, hqueue⟩ := of_decide_eq_true htest
  obtain ⟨mt, hmt, hentries⟩ := List.any_eq_true.1 hqueue
  obtain ⟨hold, hnew⟩ := of_decide_eq_true hentries
  have hmt' : mt.publish ("s", "t", "r") 2 ∈ (s.mems.publish ("s", "t", "r") 2).flushing := List.mem_map_of_mem hmt
  refine ⟨_, s, ⟨s.mems.publish ("s", "t", "r") 2, none, s.log⟩, hrun, by simp [PublishOp.step, hdue], ?_, ?_⟩
  · exact ⟨mt.id, sampleWrite 1 [1], relabelled, ⟨mt, List.mem_cons_of_mem _ hmt, rfl, hold⟩,
      ⟨_, List.mem_cons_of_mem _ hmt', MemTableSet.id_publish .., hnew⟩, rfl, rfl⟩
  · refine ⟨_, hmt', _, List.mem_filterMap.2 ⟨relabelled, ?_, rfl⟩, by decide, rfl, ?_⟩
    · exact List.mem_map.2 ⟨_, Table.mem_toList.2 hnew, rfl⟩
    · rw [hlog]
      decide +kernel

end Xtable

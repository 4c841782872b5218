import Xtable.Theorems.ColdReads

/-! A rebuild that was cut off is repeated on what it left. The tables that are overwritten come out the same; the
    chains only if the first rebuild had not come to them, or holds one version of each record. -/

namespace Xtable

namespace Rebuild

section Writes

variable {chunks : List Chunk} {order : List (RecordKey × PerKey) → List (RecordKey × PerKey)} {scanned : Nat}

theorem Coherent.versionUpdate_nodup (hc : Coherent chunks) (horder : ∀ l, (order l).Perm l) :
    ((order (newest chunks).toList).map ((·.1) ∘ versionUpdate)).Nodup := by
  have hkeys : ((order (newest chunks).toList).map (·.1)).Nodup := ((horder _).map _).nodup_iff.2 Table.nodup_keys
  refine List.pairwise_map.2 ((List.pairwise_map.1 hkeys).imp_of_mem fun {x y} hx hy hne heq => ?_)
  obtain ⟨h, hh, rfl⟩ := newest_mem_found horder hx
  obtain ⟨h', hh', rfl⟩ := newest_mem_found horder hy
  exact hne (hc.key_inj hh hh' heq)

/-- The transactions of a rebuild, with the rows they write. -/
def Writes (order : List (RecordKey × PerKey) → List (RecordKey × PerKey)) (chunks : List Chunk) : RebuildAct → Prop
  | .putChunkIndex chunkId entry => (chunkId, entry) ∈ chunks.map chunkRow
  | .putRecordIndex rk entry => (rk, ⟨entry, ""⟩) ∈ (order (newest chunks).toList).map latestRow
  | .putVersionsBulk updates => updates = (order (newest chunks).toList).map versionUpdate
  | .putRecordVersionsBulk updates => updates = ((found chunks).insertionSort historyLe).map HistoricalRecord.update
  | .appendChainEntriesBulk entries => entries = ((found chunks).insertionSort historyLe).map HistoricalRecord.chainEntry
  | .setGlobalVersion _ => True

theorem unlessEmpty_only {α : Type} {P : RebuildAct → Prop} {l : List α} {p : Rebuilder Unit} (hp : p.Only P) :
    (unlessEmpty l p).Only P := by
  cases l with
  | nil => trivial
  | cons => exact hp

theorem persist_only : (persist order scanned chunks).Only (Writes order chunks) := by
  rw [persist_eq]
  refine Prog.Only.bind (Prog.Only.forEach fun ch hch => ?_) fun _ => ?_
  · exact Prog.Only.perform (List.mem_map.2 ⟨ch, hch, rfl⟩) fun _ => trivial
  refine Prog.Only.bind (Prog.Only.forEach fun x hx => ?_) fun _ => ?_
  · exact Prog.Only.perform (List.mem_map.2 ⟨x, hx, rfl⟩) fun _ => trivial
  refine Prog.Only.bind (unlessEmpty_only (Prog.Only.perform rfl fun _ => trivial)) fun _ => ?_
  refine Prog.Only.bind (unlessEmpty_only (Prog.Only.perform rfl fun _ => trivial)) fun _ => ?_
  refine Prog.Only.bind (unlessEmpty_only (Prog.Only.perform rfl fun r => ?_)) fun _ => ?_
  · cases r <;> trivial
  · exact Prog.Only.perform trivial fun _ => trivial

end Writes

/-! ## Stores that a rebuild has begun to fill -/

/-- A store that a rebuild overwrites like an empty one, and whose chains are untouched or complete. -/
structure Begun (order : List (RecordKey × PerKey) → List (RecordKey × PerKey)) (chunks : List Chunk)
    (chains : Table String VersionChain) (s : Store) : Prop where
  tables : filled order chunks chains s = filled order chunks chains {}
  chains : s.versionChains = ∅ ∨ s.versionChains = chains

section Begun

variable {order order' : List (RecordKey × PerKey) → List (RecordKey × PerKey)} {chunks : List Chunk} {scanned : Nat}
  {chains : Table String VersionChain} {s : Store}

theorem chainAt_batch (hbatch : (chainBatch chunks).foldlM Store.appendChainEntry ∅ = .ok chains) :
    WellFormedChains chains ∧ ∀ k, Extends [] (chainAt chains k) k (chainBatch chunks) := by
  have hempty : WellFormedChains ∅ := fun k c hc => by simp at hc
  obtain ⟨hwf, hext⟩ := foldlM_extends hempty hbatch
  refine ⟨hwf, fun k => ?_⟩
  obtain ⟨new, hnew, hk⟩ := hext k
  have hnil : chainAt ∅ k = [] := by simp [chainAt, VersionChain.new]
  rw [hnil] at hnew hk
  rw [hnew]
  exact hk

theorem chains_again {chains' : Table String VersionChain}
    (hbatch : (chainBatch chunks).foldlM Store.appendChainEntry ∅ = .ok chains)
    (hagain : (chainBatch chunks).foldlM Store.appendChainEntry chains = .ok chains') : chains' = chains := by
  obtain ⟨hwf, hext⟩ := chainAt_batch hbatch
  refine foldlM_again hwf (fun item hitem => ?_) hagain
  exact List.mem_map.1 (((hext item.1).versions _).2 ⟨⟨item, hitem, rfl, rfl⟩, by simp⟩)

section

variable (horder : ∀ l, (order l).Perm l) (horder' : ∀ l, (order' l).Perm l)
  (hbatch : (chainBatch chunks).foldlM Store.appendChainEntry ∅ = .ok chains)

include horder horder' hbatch

theorem Begun.step (hs : Begun order' chunks chains s)
    {a : RebuildAct} (ha : Writes order chunks a) : Begun order' chunks chains (RebuildAct.exec a s).2 := by
  have hrows : (order (newest chunks).toList).Perm (order' (newest chunks).toList) := (horder _).trans (horder' _).symm
  cases a with
  | putChunkIndex chunkId entry =>
    refine ⟨?_, hs.chains⟩
    rw [← hs.tables]
    simp only [filled, overwritten, RebuildAct.exec, Store.putChunkIndex, Table.insertAll_insert ⟨_, ha⟩]
  | putRecordIndex rk entry =>
    refine ⟨?_, hs.chains⟩
    rw [← hs.tables]
    simp only [filled, overwritten, RebuildAct.exec, Store.putRecordIndex,
      Table.insertAll_insert ⟨_, (hrows.map latestRow).mem_iff.1 ha⟩]
  | putVersionsBulk updates =>
    have hput : (RebuildAct.exec (.putVersionsBulk updates) s).2 =
        { s with versions := s.versions.insertAll updates } := rfl
    subst ha
    rw [hput]
    refine ⟨?_, hs.chains⟩
    rw [← hs.tables]
    simp only [filled, overwritten,
      Table.insertAll_insertAll fun x hx => ⟨x.2, (hrows.map versionUpdate).mem_iff.1 hx⟩]
  | putRecordVersionsBulk updates =>
    subst ha
    rw [RebuildAct.exec, putRecordVersionsBulk_eq]
    refine ⟨?_, hs.chains⟩
    rw [← hs.tables]
    simp only [filled, overwritten, historyRows, Table.insertAll_insertAll fun x hx => ⟨x.2, hx⟩]
  | appendChainEntriesBulk entries =>
    subst ha
    rw [RebuildAct.exec, Store.appendChainEntriesBulk, ← chainBatch]
    cases happend : (chainBatch chunks).foldlM Store.appendChainEntry s.versionChains with
    | error x => exact hs
    | ok chains' =>
      refine ⟨hs.tables, .inr ?_⟩
      rcases hs.chains with hnone | hall
      · rw [hnone, hbatch] at happend
        exact (Except.ok.inj happend).symm
      · exact chains_again hbatch (hall ▸ happend)
  | setGlobalVersion v => exact ⟨hs.tables, hs.chains⟩

theorem Begun.advance (n : Nat) :
    Begun order' chunks chains ((persist order scanned chunks).advance RebuildAct.exec n {}).2 :=
  persist_only.advance_keeps (fun _ _ ha hs => hs.step horder horder' hbatch ha) ⟨rfl, .inl rfl⟩ n

end

end Begun

/-! ## Scanning the same bucket -/

/-- The chunk of an object, if it has one. -/
def chunkAt (c : Codecs) (backend : Backend) (lo : ListedObject) : List Chunk :=
  match scanObject c backend lo with
  | .ok found => found.toList
  | .error _ => []

theorem scanObjects_eq_ok {c : Codecs} {backend : Backend} {listed : List ListedObject} {chunks : List Chunk} :
    scanObjects c backend listed = .ok chunks ↔
      (∀ lo ∈ listed, ∃ found, scanObject c backend lo = .ok found) ∧ chunks = listed.flatMap (chunkAt c backend) := by
  induction listed generalizing chunks with
  | nil => simp [scanObjects, eq_comm]
  | cons lo listed ih =>
    rw [scanObjects, List.flatMap_cons]
    cases hlo : scanObject c backend lo with
    | error x => simp [bind, Except.bind, hlo]
    | ok first =>
      have hchunk : chunkAt c backend lo = first.toList := by rw [chunkAt, hlo]
      cases hrest : scanObjects c backend listed with
      | error x =>
        have hno : ¬ ∀ lo ∈ listed, ∃ found, scanObject c backend lo = .ok found := by
          intro hall
          have hok := ih.2 ⟨hall, rfl⟩
          rw [hrest] at hok
          cases hok
        simp [bind, Except.bind, hno]
      | ok rest =>
        obtain ⟨hall, rfl⟩ := ih.1 hrest
        simp only [bind, Except.bind, pure, Except.pure, Except.ok.injEq, List.forall_mem_cons, hlo, hchunk]
        exact ⟨fun h => ⟨⟨⟨first, rfl⟩, hall⟩, h.symm⟩, fun h => h.2.symm⟩

end Rebuild

open Rebuild

end Xtable

import Xtable.Theorems.Requests

/-! Every staged write, spilled body and pending entry belongs to a transaction that is not aborted, as long as
    transactions are aborted on the paths that clean up after them. -/

namespace Xtable

open Coordinator

variable {env : Env} {w w' : World} {t key : String} {row : TxnStateRecord}

/-! ## Dropping staged writes -/

section Erase

variable {κ ν β : Type} [Ord κ] [Std.TransOrd κ] [Std.LawfulEqOrd κ] [DecidableEq κ]

/-- A table without the key named, if one is. -/
def eraseNamed (m : Table κ ν) : Option κ → Table κ ν
  | some k => m.erase k
  | none => m

theorem foldl_drop {f : World → β → World} (P : World → Table κ ν) (g : β → Option κ)
    (hf : ∀ w x, P (f w x) = eraseNamed (P w) (g x)) (l : List β) (w : World) (k : κ) :
    (P (l.foldl f w))[k]? = if ∃ x ∈ l, g x = some k then none else (P w)[k]? := by
  induction l generalizing w with
  | nil => simp
  | cons x rest ih =>
    rw [List.foldl_cons, ih, hf]
    cases hg : g x with
    | none => simp [eraseNamed, hg]
    | some a =>
      by_cases hak : a = k
      · subst hak
        simp [eraseNamed, hg]
      · simp [eraseNamed, hg, hak]

end Erase

theorem stagedBlobs_dropStaged (w : World) (x : String × WriteSetEntry) :
    (w.dropStaged t x).store.stagedBlobs = eraseNamed w.store.stagedBlobs x.2.bodyHandle := by
  unfold World.dropStaged
  cases x.2.bodyHandle <;> rfl

theorem stagedBlobs_dropSpilled (w : World) (x : String × WriteSetEntry) :
    (w.dropSpilled t x).store.stagedBlobs = eraseNamed w.store.stagedBlobs x.2.bodyHandle := by
  unfold World.dropSpilled
  cases x.2.bodyHandle <;> rfl

theorem writeSet_dropStaged (w : World) (x : String × WriteSetEntry) :
    (w.dropStaged t x).store.writeSet = eraseNamed w.store.writeSet (some (t, x.2.backendKey)) := by
  unfold World.dropStaged
  cases x.2.bodyHandle <;> rfl

theorem writeSet_dropSpilled (w : World) (x : String × WriteSetEntry) :
    (w.dropSpilled t x).store.writeSet =
      eraseNamed w.store.writeSet (x.2.bodyHandle.map fun _ => (t, x.2.backendKey)) := by
  unfold World.dropSpilled
  cases x.2.bodyHandle <;> rfl

theorem writeSet_discarded {reason : String} (w : World) (t' k : String) :
    (w.discarded t row reason).store.writeSet[(t', k)]? =
      if ∃ x ∈ w.store.iterWriteSet t, (t, x.2.backendKey) = (t', k) then none else w.store.writeSet[(t', k)]? := by
  let w₁ : World := { w with store := w.store.putTxnState t { row with status := .aborted } }
  let w₂ := (w₁.store.iterWriteSet t).foldl (World.dropStaged t) w₁
  have hpin := congrArg Store.writeSet (unpinned_unregister (w₂.store.appendWal (.aborted t reason)).2 row.snapshotVersion)
  have hkeep : (w.discarded t row reason).store.writeSet = w₂.store.writeSet := hpin
  rw [hkeep]
  refine (foldl_drop (fun w => w.store.writeSet) (fun x : String × WriteSetEntry => some (t, x.2.backendKey))
    writeSet_dropStaged _ w₁ _).trans ?_
  simp only [Option.some.injEq]
  rfl

theorem stagedBlobs_discarded {reason : String} (w : World) (handle : String) :
    (w.discarded t row reason).store.stagedBlobs[handle]? =
      if ∃ x ∈ w.store.iterWriteSet t, x.2.bodyHandle = some handle then none else w.store.stagedBlobs[handle]? := by
  let w₁ : World := { w with store := w.store.putTxnState t { row with status := .aborted } }
  let w₂ := (w₁.store.iterWriteSet t).foldl (World.dropStaged t) w₁
  have hpin := congrArg Store.stagedBlobs
    (unpinned_unregister (w₂.store.appendWal (.aborted t reason)).2 row.snapshotVersion)
  have hkeep : (w.discarded t row reason).store.stagedBlobs = w₂.store.stagedBlobs := hpin
  rw [hkeep]
  exact foldl_drop (fun w => w.store.stagedBlobs) (fun x : String × WriteSetEntry => x.2.bodyHandle)
    stagedBlobs_dropStaged _ w₁ _

section Published

variable {ws : WriteSet} {bodies : Table String Bytes} {aged : String → Bool} {v : Nat}

theorem writeSet_published (w : World) (t' k : String) :
    (w.published env aged t row ws bodies v).store.writeSet[(t', k)]? =
      if ∃ x ∈ ws, x.2.bodyHandle.map (fun _ => (t, x.2.backendKey)) = some (t', k) then none
      else w.store.writeSet[(t', k)]? := by
  refine (foldl_drop (fun w => w.store.writeSet) (fun x : String × WriteSetEntry =>
    x.2.bodyHandle.map fun _ => (t, x.2.backendKey)) writeSet_dropSpilled _ _ _).trans ?_
  have hkeep : (w.store.published t row ws v).writeSet = w.store.writeSet := by
    have hframe := congrArg Store.writeSet (uncommitted_published t row ws v w.store)
    exact hframe
  simp only [indexed_frame Store.writeSet (fun _ => rfl) fun _ => rfl, hkeep]

theorem stagedBlobs_published (w : World) (handle : String) :
    (w.published env aged t row ws bodies v).store.stagedBlobs[handle]? =
      if ∃ x ∈ ws, x.2.bodyHandle = some handle then none else w.store.stagedBlobs[handle]? := by
  refine (foldl_drop (fun w => w.store.stagedBlobs) (fun x : String × WriteSetEntry => x.2.bodyHandle)
    stagedBlobs_dropSpilled _ _ _).trans ?_
  have hkeep : (w.store.published t row ws v).stagedBlobs = w.store.stagedBlobs := by
    have hframe := congrArg Store.stagedBlobs (uncommitted_published t row ws v w.store)
    exact hframe
  simp only [indexed_frame Store.stagedBlobs (fun _ => rfl) fun _ => rfl, hkeep]

end Published

theorem mem_iterWriteSet {s : Store} {we : WriteSetEntry} :
    (key, we) ∈ s.iterWriteSet t ↔ s.writeSet[(t, key)]? = some we := by
  simp only [Store.iterWriteSet, List.mem_map, List.mem_filter, decide_eq_true_eq, Prod.mk.injEq]
  constructor
  · rintro ⟨⟨⟨t', key'⟩, we'⟩, ⟨hmem, rfl⟩, rfl, rfl⟩
    exact Table.mem_toList.1 hmem
  · intro h
    exact ⟨((t, key), we), ⟨Table.mem_toList.2 h, rfl⟩, rfl, rfl⟩

/-! ## The invariant -/

theorem length_uuidLike (env : Env) (s : String) : (env.uuidLike s).toList.length = 24 := by
  simp [Env.uuidLike, hexEncode, List.length_flatMap]

theorem spillHandle_inj {t' key' : String} (h : spillHandle env t key = spillHandle env t' key') : t = t' := by
  have hlists := congrArg String.toList h
  simp only [spillHandle, String.toList_append] at hlists
  obtain ⟨hids, -⟩ := List.append_inj' hlists (by rw [length_uuidLike, length_uuidLike])
  exact String.toList_inj.1 (List.append_cancel_right hids)

/-- A write that is staged with an inline body does not replace one whose body was spilled. -/
def World.KeepsSpilled (w : World) (t key : String) (body : Bytes) : Prop :=
  body.length ≤ spillThreshold → ∀ we, w.store.writeSet[(t, key)]? = some we → we.bodyHandle = none

/-- The transaction has a row that is not `Aborted`. -/
def World.Live (w : World) (t : String) : Prop := ∃ row, w.store.getTxnState t = some row ∧ row.status ≠ .aborted

/-- Every staged write, spilled body and pending entry belongs to a transaction that is not aborted. -/
structure Staging (env : Env) (w : World) : Prop where
  writes : ∀ (t key : String) we, w.store.writeSet[(t, key)]? = some we → we.backendKey = key ∧
    (we.bodyHandle = none ∨ we.bodyHandle = some (spillHandle env t key)) ∧ w.Live t
  blobs : ∀ (t key : String) blob, w.store.stagedBlobs[spillHandle env t key]? = some blob →
    ∃ (key' : String) (we : WriteSetEntry), w.store.writeSet[(t, key')]? = some we ∧
      we.bodyHandle = some (spillHandle env t key)
  pending : ∀ (t : String) p, w.pending[t]? = some p → w.Live t

/-- What the invariant says of one transaction. -/
structure StagingOf (env : Env) (w : World) (t : String) : Prop where
  writes : ∀ (key : String) we, w.store.writeSet[(t, key)]? = some we → we.backendKey = key ∧
    (we.bodyHandle = none ∨ we.bodyHandle = some (spillHandle env t key)) ∧ w.Live t
  blobs : ∀ (key : String) blob, w.store.stagedBlobs[spillHandle env t key]? = some blob →
    ∃ (key' : String) (we : WriteSetEntry), w.store.writeSet[(t, key')]? = some we ∧
      we.bodyHandle = some (spillHandle env t key)
  pending : ∀ p, w.pending[t]? = some p → w.Live t

namespace Staging

theorem own (h : Staging env w)
    (hrows : ∀ t', t ≠ t' → w'.store.getTxnState t' = w.store.getTxnState t')
    (hwrites : ∀ t' (key : String), t ≠ t' → w'.store.writeSet[(t', key)]? = w.store.writeSet[(t', key)]?)
    (hblobs : ∀ handle : String, (∀ key, handle ≠ spillHandle env t key) →
      w'.store.stagedBlobs[handle]? = w.store.stagedBlobs[handle]?)
    (hpending : ∀ t' : String, t ≠ t' → w'.pending[t']? = w.pending[t']?) (hown : StagingOf env w' t) :
    Staging env w' := by
  have hlive : ∀ t', t ≠ t' → w.Live t' → w'.Live t' := by
    rintro t' ht ⟨row, hrow, hst⟩
    exact ⟨row, (hrows t' ht).trans hrow, hst⟩
  refine ⟨?_, ?_, ?_⟩
  · intro t' key we hwe
    by_cases ht : t = t'
    · subst ht
      exact hown.writes key we hwe
    · rw [hwrites t' key ht] at hwe
      obtain ⟨hkey, hhandle, hl⟩ := h.writes t' key we hwe
      exact ⟨hkey, hhandle, hlive t' ht hl⟩
  · intro t' key blob hblob
    by_cases ht : t = t'
    · subst ht
      exact hown.blobs key blob hblob
    · rw [hblobs _ fun key' heq => ht (spillHandle_inj heq).symm] at hblob
      obtain ⟨key', we, hwe, hhandle⟩ := h.blobs t' key blob hblob
      exact ⟨key', we, (hwrites t' key' ht).trans hwe, hhandle⟩
  · intro t' p hp
    by_cases ht : t = t'
    · subst ht
      exact hown.pending p hp
    · exact hlive t' ht (h.pending t' p ((hpending t' ht).symm.trans hp))

theorem setRow {row' : TxnStateRecord} (h : Staging env w)
    (hrows : ∀ t', w'.store.getTxnState t' = if t = t' then some row' else w.store.getTxnState t')
    (hst : row'.status ≠ .aborted) (hwrites : w'.store.writeSet = w.store.writeSet)
    (hblobs : w'.store.stagedBlobs = w.store.stagedBlobs) (hpending : w'.pending = w.pending) : Staging env w' := by
  have hlive : w'.Live t := ⟨row', (hrows t).trans (if_pos rfl), hst⟩
  refine h.own (fun t' ht => (hrows t').trans (if_neg ht)) (fun _ _ _ => by rw [hwrites]) (fun _ _ => by rw [hblobs])
    (fun _ _ => by rw [hpending]) ⟨fun key we hwe => ?_, fun key blob hblob => ?_, fun _ _ => hlive⟩
  · rw [hwrites] at hwe
    obtain ⟨hkey, hhandle, -⟩ := h.writes t key we hwe
    exact ⟨hkey, hhandle, hlive⟩
  · rw [hblobs] at hblob
    rw [hwrites]
    exact h.blobs t key blob hblob

theorem not_staged (h : Staging env w) {handle : String} (hne : ∀ key, handle ≠ spillHandle env t key) :
    ¬∃ x ∈ w.store.iterWriteSet t, x.2.bodyHandle = some handle := by
  rintro ⟨⟨k, we⟩, hmem, hhandle⟩
  rcases (h.writes t k we (mem_iterWriteSet.1 hmem)).2.1 with hnone | hown
  · rw [hnone] at hhandle
    cases hhandle
  · exact hne k (Option.some.inj (hhandle.symm.trans hown))

theorem blob_staged (h : Staging env w) {blob : BlobRecord}
    (hblob : w.store.stagedBlobs[spillHandle env t key]? = some blob) :
    ∃ x ∈ w.store.iterWriteSet t, x.2.bodyHandle = some (spillHandle env t key) := by
  obtain ⟨k, we, hwe, hhandle⟩ := h.blobs t key blob hblob
  exact ⟨(k, we), mem_iterWriteSet.2 hwe, hhandle⟩

theorem staged {body : Bytes} {contentType : Option String} {userMeta : List (String × String)} {deleted : Bool}
    (h : Staging env w) (hrow : w.store.getTxnState t = some row) (hst : row.status = .active)
    (hspill : w.KeepsSpilled t key body) :
    Staging env (w.staged env t key body contentType userMeta deleted row) := by
  let w₁ := w.staged env t key body contentType userMeta deleted row
  let we := writeEntry key body (stagedHandle env t key body) contentType userMeta deleted
  have hrows : ∀ t', w₁.store.getTxnState t' = if t = t' then some (row.withWriteKey key) else w.store.getTxnState t' :=
    txnState_staged hrow
  have hwrites : ∀ t' (key' : String), w₁.store.writeSet[(t', key')]? =
      if (t, key) = (t', key') then some we else w.store.writeSet[(t', key')]? := by
    intro t' key'
    have hset : w₁.store.writeSet = w.store.writeSet.insert (t, key) we := writeSet_staged w.store
    rw [hset, Table.get_insert]
  have hblobs : w₁.store.stagedBlobs = if spillThreshold < body.length then
      w.store.stagedBlobs.insert (spillHandle env t key) ⟨spillPath env (spillHandle env t key), body.length⟩
      else w.store.stagedBlobs := stagedBlobs_staged w.store
  have hlive : w₁.Live t := ⟨_, (hrows t).trans (if_pos rfl), by simp [hst]⟩
  change Staging env w₁
  refine h.own (t := t) (fun t' ht => (hrows t').trans (if_neg ht)) (fun t' key' ht => ?_) (fun handle hne => ?_)
    (fun _ _ => rfl) ⟨fun key' we' hwe' => ?_, fun key' blob hblob => ?_, fun _ _ => hlive⟩
  · rw [hwrites, if_neg (by simp [ht])]
  · rw [hblobs]
    split
    · rw [Table.get_insert, if_neg (hne key).symm]
    · rfl
  · rw [hwrites] at hwe'
    split at hwe'
    case isTrue heq =>
      cases hwe'
      obtain rfl := (Prod.mk.inj heq).2
      refine ⟨rfl, ?_, hlive⟩
      simp only [we, writeEntry, stagedHandle]
      split <;> simp
    case isFalse =>
      obtain ⟨hkey, hhandle, -⟩ := h.writes t key' we' hwe'
      exact ⟨hkey, hhandle, hlive⟩
  · by_cases hsame : spillThreshold < body.length ∧ spillHandle env t key = spillHandle env t key'
    · refine ⟨key, we, (hwrites t key).trans (if_pos rfl), ?_⟩
      simp only [we, writeEntry, stagedHandle, if_pos hsame.1, hsame.2]
    · have hold : w.store.stagedBlobs[spillHandle env t key']? = some blob := by
        rw [← hblob, hblobs]
        split
        case isTrue hlong =>
          rw [Table.get_insert, if_neg fun heq => hsame ⟨hlong, heq⟩]
        case isFalse => rfl
      obtain ⟨key'', we'', hwe'', hhandle⟩ := h.blobs t key' blob hold
      refine ⟨key'', we'', ?_, hhandle⟩
      -- the write that holds the body is not the one replaced here
      rw [hwrites, if_neg, hwe'']
      rintro heq
      obtain rfl := (Prod.mk.inj heq).2
      rcases (h.writes t key we'' hwe'').2.1 with hnone | hown
      · rw [hhandle] at hnone
        cases hnone
      · rw [hhandle] at hown
        by_cases hlong : spillThreshold < body.length
        · exact hsame ⟨hlong, (Option.some.inj hown).symm⟩
        · have hnone := hspill (by omega) we'' hwe''
          rw [hhandle] at hnone
          cases hnone

theorem discarded {reason : String} (h : Staging env w)
    (hstore : w'.store = (w.discarded t row reason).store) (hpend : w'.pending[t]? = none)
    (hpending : ∀ t' : String, t ≠ t' → w'.pending[t']? = w.pending[t']?) : Staging env w' := by
  have hwrites : ∀ t' (k : String), w'.store.writeSet[(t', k)]? = if t = t' then none else w.store.writeSet[(t', k)]? := by
    intro t' k
    rw [hstore, writeSet_discarded]
    by_cases ht : t = t'
    · subst ht
      rw [if_pos rfl]
      split
      case isTrue => rfl
      case isFalse hno =>
        cases hwe : w.store.writeSet[(t, k)]? with
        | none => rfl
        | some we => exact absurd ⟨(k, we), mem_iterWriteSet.2 hwe, by rw [(h.writes t k we hwe).1]⟩ hno
    · simp [ht]
  have hblobs : ∀ handle : String, w'.store.stagedBlobs[handle]? =
      if ∃ x ∈ w.store.iterWriteSet t, x.2.bodyHandle = some handle then none else w.store.stagedBlobs[handle]? := by
    intro handle
    rw [hstore, stagedBlobs_discarded]
  refine h.own (t := t) (fun t' ht => ?_) (fun t' k ht => by rw [hwrites, if_neg ht]) (fun handle hne => ?_) hpending
    ⟨fun k we hwe => ?_, fun k blob hblob => ?_, fun p hp => ?_⟩
  · rw [hstore, txnState_discarded, if_neg ht]
  · rw [hblobs, if_neg (h.not_staged hne)]
  · rw [hwrites, if_pos rfl] at hwe
    cases hwe
  · rw [hblobs] at hblob
    split at hblob
    · cases hblob
    case isFalse hno => exact absurd (h.blob_staged hblob) hno
  · rw [hpend] at hp
    cases hp

theorem published {aged : String → Bool} {bodies : Table String Bytes} {v : Nat} (h : Staging env w)
    (hstore : w'.store = (((w.claimed t row).bumped row).published env aged t row (w.store.iterWriteSet t) bodies v).store)
    (hpending : w'.pending = w.pending.erase t) : Staging env w' := by
  have hrows : ∀ t', w'.store.getTxnState t' = if t = t' then some { row.withAlloc v with status := .committed }
      else w.store.getTxnState t' := fun t' => hstore ▸ txnState_committed w t'
  have hlive : w'.Live t := ⟨_, (hrows t).trans (if_pos rfl), by simp⟩
  have hwrites : ∀ t' (k : String), w'.store.writeSet[(t', k)]? =
      if ∃ x ∈ w.store.iterWriteSet t, x.2.bodyHandle.map (fun _ => (t, x.2.backendKey)) = some (t', k) then none
      else w.store.writeSet[(t', k)]? := by
    intro t' k
    rw [hstore, writeSet_published, bumped_frame Store.writeSet fun _ _ => rfl]
    rfl
  have hblobs : ∀ handle : String, w'.store.stagedBlobs[handle]? =
      if ∃ x ∈ w.store.iterWriteSet t, x.2.bodyHandle = some handle then none else w.store.stagedBlobs[handle]? := by
    intro handle
    rw [hstore, stagedBlobs_published, bumped_frame Store.stagedBlobs fun _ _ => rfl]
    rfl
  refine h.own (t := t) (fun t' ht => ?_) (fun t' k ht => ?_) (fun handle hne => ?_) (fun t' ht => ?_)
    ⟨fun k we hwe => ?_, fun k blob hblob => ?_, fun p hp => ?_⟩
  · rw [hrows, if_neg ht]
  · rw [hwrites, if_neg]
    rintro ⟨x, -, hx⟩
    obtain ⟨handle, -, heq⟩ := Option.map_eq_some_iff.1 hx
    exact ht (Prod.mk.inj heq).1
  · rw [hblobs, if_neg (h.not_staged hne)]
  · rw [hpending, Table.get_erase, if_neg ht]
  · rw [hwrites] at hwe
    split at hwe
    · cases hwe
    · obtain ⟨hkey, hhandle, -⟩ := h.writes t k we hwe
      exact ⟨hkey, hhandle, hlive⟩
  · rw [hblobs] at hblob
    split at hblob
    · cases hblob
    case isFalse hno => exact absurd (h.blob_staged hblob) hno
  · rw [hpending, Table.get_erase, if_pos rfl] at hp
    cases hp

theorem unpend (h : Staging env w) : Staging env (w.unpend t) := by
  refine ⟨h.writes, h.blobs, fun t' p hp => ?_⟩
  simp only [World.unpend, Table.get_erase] at hp
  split at hp
  · cases hp
  · exact h.pending t' p hp

theorem pend (h : Staging env w) {p : PendingTxn} (hlive : w.Live t) :
    Staging env { w with pending := w.pending.insert t p } := by
  refine ⟨h.writes, h.blobs, fun t' p' hp => ?_⟩
  simp only [Table.get_insert] at hp
  split at hp
  case isTrue ht => exact ht ▸ hlive
  case isFalse => exact h.pending t' p' hp

end Staging

theorem World.Live.staged {body : Bytes} {contentType : Option String} {userMeta : List (String × String)}
    {deleted : Bool} (hrow : w.store.getTxnState t = some row) (hst : row.status = .active) :
    (w.staged env t key body contentType userMeta deleted row).Live t :=
  ⟨_, (txnState_staged hrow t).trans (if_pos rfl), by simp [hst]⟩

/-! ## Runs -/

/-- A commit of the transaction, if it is `Active`, is not given up: its bodies can be read, it is in no dangerous
structure, and no key has a version newer than its snapshot. -/
def World.Publishes (w : World) (t : String) : Prop :=
  ∀ row, w.store.getTxnState t = some row → row.status = .active →
    (∃ bodies, w.stagedBodies ∅ (w.store.iterWriteSet t) = .ok bodies) ∧ w.locks.findDangerousStructure t = none ∧
      ∀ k ∈ row.writeKeys, (w.store.readChain k).latestCommitVersion ≤ row.snapshotVersion

/-- The coordinator's calls that clean up after what they abort. -/
def Call.CleansUp (w : World) : Call → Prop
  | .stage t key body _ _ _ => w.KeepsSpilled t key body
  | .commit t _ => w.Publishes t
  | .abort t => w.pending[t]? = none
  | .sweepStale now timeout | .sweep now timeout =>
    ∀ t ∈ w.store.scanStale (Gc.cutoff now timeout), w.pending[t]? = none
  | _ => True

/-- The requests that clean up after what they abort. -/
def Request.CleansUp (env : Env) (w : World) : Request → Prop
  | .call c => c.CleansUp w
  | .registerSchema t space name body => ∀ key, schemaKey space name (w.nextSchemaVersion t space name) = .ok key →
      w.KeepsSpilled t key (utf8 (env.jsonText body))
  | .bindTableSchema t space table body =>
    ∀ key, schemaKey space ("_table::" ++ table) (w.nextSchemaVersion t space ("_table::" ++ table)) = .ok key →
      w.KeepsSpilled t key (utf8 (env.jsonText body))
  | .upsertRecord t space table recordId _ body => ∀ key, recordKey space table recordId = .ok key →
      w.KeepsSpilled t key (utf8 (env.jsonText body))
  | .deleteRecord t space table recordId => ∀ key, recordKey space table recordId = .ok key → w.KeepsSpilled t key []
  | .commitTxn t _ => w.Publishes t
  | .abortTxn _ => True

namespace Staging

theorem commits {aged : String → Bool} {r : Except XtableError Nat} (h : Staging env w) (hpub : w.Publishes t)
    (hc : Commits env aged t w r w') : Staging env w' := by
  cases hc with
  | unknown | settled => exact h
  | unstaged hrow hst hbodies =>
    obtain ⟨bodies, hok⟩ := (hpub _ hrow hst).1
    rw [hok] at hbodies
    cases hbodies
  | dangerous hrow hst _ hpeer =>
    rw [(hpub _ hrow hst).2.1] at hpeer
    cases hpeer
  | conflict hrow hst _ _ hkey =>
    obtain ⟨hmem, hnewer⟩ := Store.newerKey_some hkey
    have hle := (hpub _ hrow hst).2.2 _ ((List.mem_insertionSort _).1 hmem)
    omega
  | published hrow =>
    refine h.published rfl ?_
    rw [pending_published]
    unfold World.bumped
    split <;> rfl

theorem expire (h : Staging env w) (hpend : w.pending[t]? = none) :
    Staging env (w.expire t) ∧ (w.expire t).pending = w.pending := by
  unfold World.expire
  split
  case h_1 row hrow =>
    split
    case isTrue =>
      have hkeep : (w.discarded t row "GC: stale txn timeout").pending = w.pending := pending_discarded w _
      exact ⟨h.discarded rfl (by rw [hkeep, hpend]) fun _ _ => by rw [hkeep], hkeep⟩
    case isFalse => exact ⟨h, rfl⟩
  case h_2 => exact ⟨h, rfl⟩

theorem sweptStale {now timeout : Int} (h : Staging env w)
    (hpend : ∀ t ∈ w.store.scanStale (Gc.cutoff now timeout), w.pending[t]? = none) :
    Staging env (w.sweptStale now timeout) := by
  unfold World.sweptStale
  revert hpend
  generalize w.store.scanStale (Gc.cutoff now timeout) = stale
  intro hpend
  induction stale generalizing w with
  | nil => exact h
  | cons t rest ih =>
    obtain ⟨hexp, hkeep⟩ := h.expire (hpend t (by simp))
    exact ih hexp fun t' ht' => by rw [hkeep]; exact hpend t' (by simp [ht'])

theorem call {c : Call} (h : Staging env w) (hcond : c.CleansUp w) (he : CallEffect env w c w') : Staging env w' := by
  cases he with
  | unchanged => exact h
  | begin => exact h.setRow txnState_begun (by simp [TxnStateRecord.newActive]) rfl rfl rfl
  | stage hrow hst => exact h.staged hrow hst hcond
  | read hrow hst =>
    rw [noteRead_eq hrow]
    exact h.setRow (txnState_put _ _ _) (by simp [hst]) rfl rfl rfl
  | heartbeat _ hst => exact h.setRow (txnState_put _ _ _) (by simp [hst]) rfl rfl rfl
  | commit hc => exact h.commits hcond hc
  | @abort t row hrow hst =>
    have hkeep : ((w.discarded t row "explicit abort").forget t).pending = w.pending :=
      pending_discarded w "explicit abort"
    exact h.discarded rfl (by rw [hkeep]; exact hcond) fun _ _ => by rw [hkeep]
  | sweepStale => exact h.sweptStale hcond
  | sweep =>
    have hswept := h.sweptStale hcond
    exact ⟨hswept.writes, hswept.blobs, hswept.pending⟩

theorem step {r : Request} (h : Staging env w) (hcond : r.CleansUp env w) (he : RequestEffect env w r w') :
    Staging env w' := by
  cases he with
  | unchanged => exact h
  | call hc => exact h.call hcond hc
  | schema hreq hkey hrow hst =>
    rcases hreq with rfl | ⟨table, rfl, rfl⟩ <;>
      exact (h.staged hrow hst (hcond _ hkey)).pend (.staged hrow hst)
  | upsert hkey hrow hst | delete _ hkey hrow hst => exact (h.staged hrow hst (hcond _ hkey)).pend (.staged hrow hst)
  | commitFails hc => exact h.commits hcond hc
  | commit hc => exact (h.commits hcond hc).unpend
  | @abort t row hrow hst =>
    have hkeep : ((w.discarded t row "explicit abort").forget t).pending = w.pending :=
      pending_discarded w "explicit abort"
    refine h.discarded rfl ?_ fun t' ht => ?_
    · simp [World.unpend]
    · simp only [World.unpend, Table.get_erase, if_neg ht]
      rw [hkeep]
  | abortFails => exact h.unpend

end Staging

/-- As long as transactions are aborted where it is cleaned up after them, an aborted transaction has no staged
write, no spilled body and nothing pending. -/
theorem aborted_leaves_nothing (env : Env) {hist : List (World × Request × World)} {w : World}
    (hrun : Run (Request.step env) {} hist w) (hcond : ∀ x ∈ hist, x.2.1.CleansUp env x.1) (t : String)
    (row : TxnStateRecord) (hrow : w.store.getTxnState t = some row) (hst : row.status = .aborted) :
    (∀ key : String, w.store.writeSet[(t, key)]? = none) ∧
      (∀ key, w.store.stagedBlobs[spillHandle env t key]? = none) ∧ w.pending[t]? = none := by
  have hempty : Staging env {} := by
    refine ⟨fun t key we hwe => ?_, fun t key blob hblob => ?_, fun t p hp => ?_⟩
    · simp at hwe
    · simp at hblob
    · simp at hp
  obtain ⟨-, hstaging⟩ := (hrun.invariant (I := fun w => Inv True w (fun _ => none) ∧ Staging env w)
    (C := fun w r => r.CleansUp env w) ⟨World.inv_empty True, hempty⟩ (fun u r v hu hr hstep => by
      obtain ⟨heffect, hinv⟩ := RequestEffect.of_step hu.1 hstep
      exact ⟨hinv, hu.2.step hr heffect⟩) hcond).1
  have hdead : ¬ w.Live t := by
    rintro ⟨row', hrow', hst'⟩
    obtain rfl := Option.some.inj (hrow.symm.trans hrow')
    exact hst' hst
  have hwrites : ∀ key : String, w.store.writeSet[(t, key)]? = none := by
    intro key
    cases hwe : w.store.writeSet[(t, key)]? with
    | none => rfl
    | some we => exact absurd (hstaging.writes t key we hwe).2.2 hdead
  refine ⟨hwrites, fun key => ?_, ?_⟩
  · cases hblob : w.store.stagedBlobs[spillHandle env t key]? with
    | none => rfl
    | some blob =>
      obtain ⟨key', we, hwe, -⟩ := hstaging.blobs t key blob hblob
      rw [hwrites] at hwe
      cases hwe
  · cases hp : w.pending[t]? with
    | none => rfl
    | some p => exact absurd (hstaging.pending t p hp) hdead

/-- A transaction with one write is begun, written and aborted. -/
def Request.single (w : World) : Request → Bool
  | .call (.begin ..) => true
  | .upsertRecord _ _ _ _ _ _ => w.store.writeSet.isEmpty
  | .abortTxn _ => true
  | _ => false

/-- A structured write, aborted. -/
theorem aborted_leaves_nothing_after_upsert : ∃ hist w, Run (Request.step .sample) {} hist w ∧ ∃ row,
    w.store.getTxnState "T" = some row ∧ row.status = .aborted ∧ w.pending["T"]? = none := by
  obtain ⟨w, hrun, htest⟩ := Run.exists_of_exec (guarded Request.single (Request.step .sample)) {}
    [.call (.begin "T" none 0), .upsertRecord "T" "s" "t" "r" none .null, .abortTxn "T"]
    (fun w => (w.store.getTxnState "T").any fun row => row.status = .aborted) (by decide +kernel)
  obtain ⟨row, hrow, hst⟩ := (Option.any_eq_true ..).1 htest
  obtain ⟨hrun, hguard⟩ := hrun.of_guarded
  have hst' : row.status = .aborted := by simpa using hst
  refine ⟨_, w, hrun, row, hrow, hst', (aborted_leaves_nothing .sample hrun (fun x hx => ?_) "T" row hrow hst').2.2⟩
  have hx := hguard x hx
  revert hx
  cases x.2.1 with
  | call c => cases c <;> simp [Request.single, Request.CleansUp, Call.CleansUp]
  | upsertRecord =>
    intro hempty key _ _ we hwe
    simp [Request.single] at hempty
    simp [hempty] at hwe
  | abortTxn => exact fun _ => trivial
  | registerSchema | bindTableSchema | deleteRecord | commitTxn => simp [Request.single]

/-- A commit that is refused leaves its staged write and its pending record behind. -/
theorem aborted_leaves_write : ∃ hist w, Run (Request.step .sample) {} hist w ∧ ∃ row,
    w.store.getTxnState "T" = some row ∧ row.status = .aborted ∧
    (w.store.writeSet[("T", "_xtable/s/t/r.json")]?).isSome ∧ (w.pending["T"]?).isSome := by
  obtain ⟨w, hrun, htest⟩ := Run.exists_of_exec (Request.step .sample) {}
    [.call (.begin "T" none 0), .call (.begin "U" none 0), .upsertRecord "T" "s" "t" "r" none .null,
      .upsertRecord "U" "s" "t" "r" none .null, .commitTxn "U" fun _ => false, .commitTxn "T" fun _ => false]
    (fun w => ((w.store.getTxnState "T").any fun row => row.status = .aborted) &&
      (w.store.writeSet[("T", "_xtable/s/t/r.json")]?).isSome && (w.pending["T"]?).isSome) (by decide +kernel)
  simp only [Bool.and_eq_true] at htest
  obtain ⟨⟨hrow, hwrite⟩, hpend⟩ := htest
  obtain ⟨row, hrow, hst⟩ := (Option.any_eq_true ..).1 hrow
  exact ⟨_, w, hrun, row, hrow, by simpa using hst, hwrite, hpend⟩

end Xtable

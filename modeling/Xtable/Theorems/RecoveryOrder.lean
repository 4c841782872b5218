import Xtable.Theorems.Leftovers

/-! `recover` visits the transactions of the log in the order of a hash map. What it decides of one depends on its
    row, on the log as it was at the start and on the chains; what it changes belongs to that transaction, is erased
    for good, or is a count. So the order leaves no trace beyond the log itself, and a second recovery finds nothing
    to decide. -/

namespace Xtable

open Prog

theorem foldl_perm_congr {α β γ : Type} {f g : α → β → α} (P : α → γ)
    (hcongr : ∀ a a' b, P a = P a' → P (f a b) = P (g a' b))
    (hself : ∀ a a' b, P a = P a' → P (g a b) = P (g a' b))
    (hcomm : ∀ a b b', P (g (g a b) b') = P (g (g a b') b)) {l l' : List β} (hp : l.Perm l') {a a' : α}
    (h : P a = P a') : P (l.foldl f a) = P (l'.foldl g a') := by
  have hfold : ∀ (l : List β) (a a' : α), P a = P a' → P (l.foldl g a) = P (l.foldl g a') := by
    intro l
    induction l with
    | nil => exact fun _ _ h => h
    | cons b rest ih => exact fun a a' h => ih _ _ (hself a a' b h)
  have hperm : ∀ a, P (l.foldl g a) = P (l'.foldl g a) := by
    induction hp with
    | nil => exact fun _ => rfl
    | cons b _ ih => exact fun a => ih (g a b)
    | swap b b' rest => exact fun a => hfold rest _ _ (hcomm a b' b)
    | trans _ _ ih₁ ih₂ => exact fun a => (ih₁ a).trans (ih₂ a)
  rw [← hperm]
  clear hperm hp
  induction l generalizing a a' with
  | nil => exact h
  | cons b rest ih => exact ih (hcongr a a' b h)

namespace Recovery

/-! ## What is decided of one transaction -/

/-- The decision about an unfinished transaction, with its row. -/
inductive Verdict where
  | abort (row : TxnStateRecord)
  | commit (row : TxnStateRecord)

/-- The decision about a transaction, given what the log says of it; none if it is left as it is. -/
def verdict (r : Replay) (s : Store) (t : String) : Option Verdict :=
  match s.getTxnState t with
  | none => none
  | some row =>
    if row.status.Terminal then none
    else match r.lastStatus[t]? with
      | some .active => some (.abort row)
      | some .committing =>
        if s.ledger.published row ((r.lastUploaded[t]?).getD []) then some (.commit row) else some (.abort row)
      | _ => none

/-- Carry a decision out. -/
def carryOut (nowMs : Int) (t : String) (w : World) : Verdict → World
  | .abort row =>
    let w := (w.store.iterWriteSet t).foldl (World.dropStaged t) w
    { w with store := ((w.store.appendWal (.aborted t "crash recovery")).2.unregisterSnapshot
        row.snapshotVersion).putTxnState t { row with status := .aborted, lastHeartbeatMs := nowMs } }
  | .commit row =>
    { w with store := ((w.store.appendWal (.committed t row.lastVersion)).2.appendWal
        (.commitResult t row.lastVersion true)).2.putTxnState t { row with status := .committed } }

/-- One transaction of the log. -/
def resolved (nowMs : Int) (r : Replay) (w : World) (t : String) : World :=
  match verdict r w.store t with
  | none => w
  | some v => carryOut nowMs t w v

variable {w w' : World} {t t' : String} {row : TxnStateRecord} {nowMs nowMs' : Int} {r : Replay} {v v' : Verdict}

theorem abortTxnNoUploads_run (hrow : w.store.getTxnState t = some row) :
    (abortTxnNoUploads nowMs t).run World.exec w = (.ok (), carryOut nowMs t w (.abort row)) := by
  let w₁ := (w.store.iterWriteSet t).foldl (World.dropStaged t) w
  let w₂ : World := { w₁ with store := (w₁.store.appendWal (.aborted t "crash recovery")).2 }
  let w₃ : World := { w₂ with store := w₂.store.unregisterSnapshot row.snapshotVersion }
  have hkeep : w₁.unstaged = w.unstaged := foldl_keeps World.unstaged unstaged_dropStaged _ w
  have hrow₂ : w₂.store.getTxnState t = some row := by
    have hsame := congrArg (fun w : World => w.store.getTxnState t) hkeep
    exact hsame.trans hrow
  have hrow₃ : w₃.store.getTxnState t = some row := by
    have hsame := congrArg (fun s : Store => s.getTxnState t) (unpinned_unregister w₂.store row.snapshotVersion)
    exact hsame.trans hrow₂
  have hlook₂ : w₂.exec (.getTxnState t) = (some row, w₂) := by rw [exec_getTxnState, hrow₂]
  have hlook₃ : w₃.exec (.getTxnState t) = (some row, w₃) := by rw [exec_getTxnState, hrow₃]
  have hrelease : w₂.exec (.unregisterSnapshot row.snapshotVersion) = ((), w₃) := rfl
  have hlog : w₁.exec (.appendWal (.aborted t "crash recovery")) = (w₁.store.lastWalSeq + 1, w₂) := rfl
  simp only [abortTxnNoUploads, Server.iterWriteSet, Server.appendWal, Server.getTxnState, Server.unregisterSnapshot,
    Server.putTxnState, bind_eq, perform_bind, run_act, exec_iterWriteSet]
  rw [run_bind_ok World.exec (dropAll_run t w _)]
  simp only [run_act]
  rw [hlog]
  simp only [hlook₂, run_act, hrelease]
  rw [hlook₃]
  rfl

theorem recoverTxn_run (nowMs : Int) (r : Replay) (report : RecoveryReport) (w : World) (t : String) :
    ∃ report', (recoverTxn nowMs r report t).run World.exec w = (.ok report', resolved nowMs r w t) := by
  simp only [recoverTxn, Server.getTxnState, bind_eq, perform_bind, run_act, exec_getTxnState, resolved, verdict]
  cases hrow : w.store.getTxnState t with
  | none => exact ⟨report, rfl⟩
  | some row =>
    by_cases hterm : row.status.Terminal
    · exact ⟨_, by simp only [if_pos hterm]; rfl⟩
    have habort : ∀ report' : RecoveryReport, ((abortTxnNoUploads nowMs t).bind fun _ => .ret report').run World.exec w =
        (.ok report', carryOut nowMs t w (.abort row)) := fun report' => by
      rw [run_bind_ok World.exec (abortTxnNoUploads_run hrow)]
      rfl
    simp only [if_neg hterm, recoverUnfinished]
    rcases r.lastStatus[t]? with _ | (_ | _ | _ | _)
    case none | some.committed | some.aborted => exact ⟨report, rfl⟩
    case some.active => exact ⟨report, habort report⟩
    case some.committing =>
      obtain ⟨n, pending, hrun, hpublished⟩ := chainState_published (w := w) row ((r.lastUploaded[t]?).getD [])
      simp only [bind_eq]
      rw [run_bind_ok World.exec hrun]
      by_cases hnil : pending = []
      · by_cases hn : 0 < n
        · have hpub := hpublished.2 ⟨hnil, hn⟩
          exact ⟨_, by simp only [hnil, ne_eq, not_true, if_false, hn, if_true, hpub]; rfl⟩
        · have hnot : ¬ w.store.ledger.published row ((r.lastUploaded[t]?).getD []) = true := by simp [hpublished, hn]
          exact ⟨report, by simp only [hnil, ne_eq, not_true, if_false, hn, hnot]; exact habort report⟩
      · have hnot : ¬ w.store.ledger.published row ((r.lastUploaded[t]?).getD []) = true := by simp [hpublished, hnil]
        exact ⟨_, by simp only [ne_eq, hnil, not_false_eq_true, if_true, hnot]; exact habort _⟩

theorem recoverEach_run (report : RecoveryReport) (w : World) (ts : List String) :
    ∃ report', (recoverEach nowMs r report ts).run World.exec w = (.ok report', ts.foldl (resolved nowMs r) w) := by
  induction ts generalizing report w with
  | nil => exact ⟨report, rfl⟩
  | cons t rest ih =>
    obtain ⟨report', hrun⟩ := recoverTxn_run nowMs r report w t
    obtain ⟨report'', hrest⟩ := ih report' (resolved nowMs r w t)
    exact ⟨report'', by rw [recoverEach, bind_eq, run_bind_ok World.exec hrun, hrest]; rfl⟩

theorem recover_run (nowMs : Int) (order : List String → List String) (w : World) :
    ∃ report, (recover nowMs order).run World.exec w =
      (.ok report, (order ((replay w.store.iterWal).lastStatus.toList.map (·.1))).foldl
        (resolved nowMs (replay w.store.iterWal)) w) :=
  recoverEach_run {} w _

/-! ## What a decision changes -/

/-- The part of the process state that recovery leaves alone. -/
def spared (w : World) : World :=
  { w with
    store := { w.store with
      lastWalSeq := 0, wal := ∅, txnState := ∅, writeSet := ∅, stagedBlobs := ∅, activeSnapshots := ∅ }
    files := ∅ }

def Verdict.Aborts : Verdict → Prop
  | .abort _ => True
  | .commit _ => False

/-- The row that a decision leaves. -/
def Verdict.leaves (nowMs : Int) : Verdict → TxnStateRecord
  | .abort row => { row with status := .aborted, lastHeartbeatMs := nowMs }
  | .commit row => { row with status := .committed }

def Verdict.pin : Verdict → Option Nat
  | .abort row => some row.snapshotVersion
  | .commit _ => none

def Verdict.logged : Verdict → Nat
  | .abort _ => 1
  | .commit _ => 2

/-- A staged write of the transaction says that it is stored under the key. -/
def NamesRow (s : Store) (t key : String) : Prop :=
  ∃ x ∈ s.iterWriteSet t, x.2.backendKey = key

/-- A staged write of the transaction has its body under the handle. -/
def NamesBody (s : Store) (t handle : String) : Prop :=
  ∃ x ∈ s.iterWriteSet t, x.2.bodyHandle = some handle

/-- The body under the handle is in the file. -/
def InFile (s : Store) (path handle : String) : Prop := ∃ blob, s.stagedBlobs[handle]? = some blob ∧ blob.path = path

open Classical in
theorem files_dropStaged (w : World) (x : String × WriteSetEntry) (path : String) :
    (w.dropStaged t x).files[path]? =
      if ∃ handle, x.2.bodyHandle = some handle ∧ InFile w.store path handle then none else w.files[path]? := by
  unfold World.dropStaged
  cases x.2.bodyHandle with
  | none => simp
  | some handle =>
    cases hb : w.store.stagedBlobs[handle]? <;> simp [World.dropBlob, Store.getBlob, InFile, hb]

open Classical in
theorem files_dropAll (w : World) (l : WriteSet) (path : String) :
    (l.foldl (World.dropStaged t) w).files[path]? =
      if ∃ handle, (∃ x ∈ l, x.2.bodyHandle = some handle) ∧ InFile w.store path handle then none
      else w.files[path]? := by
  induction l generalizing w with
  | nil => simp
  | cons x rest ih =>
    have hafter : ∀ handle, InFile (w.dropStaged t x).store path handle ↔
        x.2.bodyHandle ≠ some handle ∧ InFile w.store path handle := by
      intro handle
      rw [InFile, stagedBlobs_dropStaged]
      cases hx : x.2.bodyHandle with
      | none => simp [eraseNamed, InFile]
      | some a => by_cases ha : a = handle <;> simp [eraseNamed, InFile, ha]
    rw [List.foldl_cons, ih, files_dropStaged]
    simp only [hafter, List.exists_mem_cons_iff, or_and_right, exists_or]
    by_cases hx : ∃ handle, x.2.bodyHandle = some handle ∧ InFile w.store path handle
    · simp [hx]
    · have hrest : ∀ handle, (x.2.bodyHandle ≠ some handle ∧ InFile w.store path handle) ↔
          InFile w.store path handle :=
        fun handle => ⟨fun h => h.2, fun h => ⟨fun hh => hx ⟨handle, hh, h⟩, h⟩⟩
      simp only [hx, hrest, if_false, false_or]

theorem dropAll_eq (w : World) (l : WriteSet) :
    l.foldl (World.dropStaged t) w =
      { w with
        store := { w.store with
          writeSet := (l.foldl (World.dropStaged t) w).store.writeSet
          stagedBlobs := (l.foldl (World.dropStaged t) w).store.stagedBlobs }
        files := (l.foldl (World.dropStaged t) w).files } := by
  have hstaged : (l.foldl (World.dropStaged t) w).unstaged = w.unstaged :=
    foldl_keeps World.unstaged unstaged_dropStaged _ w
  generalize l.foldl (World.dropStaged t) w = w₁ at hstaged ⊢
  obtain ⟨⟨⟩⟩ := w₁
  simp only [World.unstaged, Store.unstaged, World.mk.injEq, Store.mk.injEq] at hstaged ⊢
  simp [hstaged]

theorem carryOut_abort (nowMs : Int) (t : String) (w : World) (row : TxnStateRecord) :
    let dropped := (w.store.iterWriteSet t).foldl (World.dropStaged t) w
    carryOut nowMs t w (.abort row) =
      { w with
        store := { w.store with
          lastWalSeq := w.store.lastWalSeq + 1
          wal := w.store.wal.insert (w.store.lastWalSeq + 1) (.aborted t "crash recovery")
          txnState := w.store.txnState.insert t { row with status := .aborted, lastHeartbeatMs := nowMs }
          activeSnapshots := Store.unpin w.store.activeSnapshots (some row.snapshotVersion)
          writeSet := dropped.store.writeSet
          stagedBlobs := dropped.store.stagedBlobs }
        files := dropped.files } := by
  have hrelease : ∀ s : Store, s.unregisterSnapshot row.snapshotVersion =
      { s with activeSnapshots := Store.unpin s.activeSnapshots (some row.snapshotVersion) } := by
    intro s
    simp only [Store.unregisterSnapshot, Store.unpin]
    split <;> rfl
  simp only [carryOut, hrelease]
  rw [dropAll_eq]
  rfl

theorem spared_carryOut (w : World) (v : Verdict) : spared (carryOut nowMs t w v) = spared w := by
  cases v with
  | commit row => rfl
  | abort row => rw [carryOut_abort]; rfl

theorem lastWalSeq_carryOut (w : World) (v : Verdict) :
    (carryOut nowMs t w v).store.lastWalSeq = w.store.lastWalSeq + v.logged := by
  cases v with
  | commit row => rfl
  | abort row => rw [carryOut_abort]; rfl

theorem txnState_carryOut (w : World) (v : Verdict) :
    (carryOut nowMs t w v).store.txnState = w.store.txnState.insert t (v.leaves nowMs) := by
  cases v with
  | commit row => rfl
  | abort row => rw [carryOut_abort]; rfl

theorem activeSnapshots_carryOut (w : World) (v : Verdict) :
    (carryOut nowMs t w v).store.activeSnapshots = Store.unpin w.store.activeSnapshots v.pin := by
  cases v with
  | commit row => rfl
  | abort row => rw [carryOut_abort]; rfl

section Dropped

open Classical

theorem writeSet_carryOut (w : World) (v : Verdict) (t' k : String) :
    (carryOut nowMs t w v).store.writeSet[(t', k)]? =
      if v.Aborts ∧ t = t' ∧ NamesRow w.store t k then none else w.store.writeSet[(t', k)]? := by
  cases v with
  | commit row => simp only [Verdict.Aborts, false_and, if_false]; rfl
  | abort row =>
    rw [carryOut_abort]
    refine (foldl_drop (fun w => w.store.writeSet) (fun x : String × WriteSetEntry => some (t, x.2.backendKey))
      writeSet_dropStaged _ w _).trans ?_
    by_cases ht : t = t' <;> simp [Verdict.Aborts, NamesRow, ht]

theorem stagedBlobs_carryOut (w : World) (v : Verdict) (handle : String) :
    (carryOut nowMs t w v).store.stagedBlobs[handle]? =
      if v.Aborts ∧ NamesBody w.store t handle then none else w.store.stagedBlobs[handle]? := by
  cases v with
  | commit row => simp only [Verdict.Aborts, false_and, if_false]; rfl
  | abort row =>
    rw [carryOut_abort]
    refine (foldl_drop (fun w => w.store.stagedBlobs) (fun x : String × WriteSetEntry => x.2.bodyHandle)
      stagedBlobs_dropStaged _ w _).trans ?_
    simp [Verdict.Aborts, NamesBody]

theorem files_carryOut (w : World) (v : Verdict) (path : String) :
    (carryOut nowMs t w v).files[path]? =
      if v.Aborts ∧ ∃ handle, NamesBody w.store t handle ∧ InFile w.store path handle then none
      else w.files[path]? := by
  cases v with
  | commit row => simp only [Verdict.Aborts, false_and, if_false]; rfl
  | abort row =>
    rw [carryOut_abort]
    refine (files_dropAll w _ path).trans ?_
    simp [Verdict.Aborts, NamesBody]

end Dropped

/-! ## Decisions about different transactions -/

theorem mem_iterWriteSet_carryOut (hne : t ≠ t') (w : World) (v : Verdict) (x : String × WriteSetEntry) :
    x ∈ (carryOut nowMs t w v).store.iterWriteSet t' ↔ x ∈ w.store.iterWriteSet t' := by
  obtain ⟨key, we⟩ := x
  rw [mem_iterWriteSet, mem_iterWriteSet, writeSet_carryOut]
  simp [hne]

theorem namesRow_carryOut (hne : t ≠ t') (w : World) (v : Verdict) (key : String) :
    NamesRow (carryOut nowMs t w v).store t' key ↔ NamesRow w.store t' key := by
  simp only [NamesRow, mem_iterWriteSet_carryOut hne]

theorem namesBody_carryOut (hne : t ≠ t') (w : World) (v : Verdict) (handle : String) :
    NamesBody (carryOut nowMs t w v).store t' handle ↔ NamesBody w.store t' handle := by
  simp only [NamesBody, mem_iterWriteSet_carryOut hne]

theorem inFile_carryOut (w : World) (v : Verdict) (path handle : String) :
    InFile (carryOut nowMs t w v).store path handle ↔
      ¬ (v.Aborts ∧ NamesBody w.store t handle) ∧ InFile w.store path handle := by
  rw [InFile, stagedBlobs_carryOut]
  by_cases h : v.Aborts ∧ NamesBody w.store t handle <;> simp [h, InFile]

theorem verdict_carryOut (hne : t ≠ t') (w : World) (v : Verdict) :
    verdict r (carryOut nowMs t w v).store t' = verdict r w.store t' := by
  have hrow : (carryOut nowMs t w v).store.getTxnState t' = w.store.getTxnState t' := by
    rw [Store.getTxnState, Store.getTxnState, txnState_carryOut]
    simp [hne]
  have hchains : (carryOut nowMs t w v).store.versionChains = w.store.versionChains := by
    have hspared : spared (carryOut nowMs t w v) = spared w := spared_carryOut w v
    have hsame := congrArg (fun w : World => w.store.versionChains) hspared
    exact hsame
  have hlatest : (carryOut nowMs t w v).store.ledger.latest = w.store.ledger.latest := by
    funext key
    simp only [Ledger.latest, Store.ledger, Store.readChain, hchains]
  have hpublished : (carryOut nowMs t w v).store.ledger.published = w.store.ledger.published := by
    funext row uploaded
    unfold Ledger.published
    rw [hlatest]
  simp only [verdict, hrow, hpublished]

theorem unpin_comm (pins : Table Nat Nat) (p q : Option Nat) :
    Store.unpin (Store.unpin pins p) q = Store.unpin (Store.unpin pins q) p := by
  rcases p with _ | a <;> rcases q with _ | b <;> try rfl
  by_cases hab : a = b
  · rw [hab]
  refine Std.ExtTreeMap.ext_getElem? fun n => ?_
  simp only [Store.unpin, Store.unregisterSnapshot]
  by_cases ha : (pins[a]?).getD 0 ≤ 1 <;> by_cases hb : (pins[b]?).getD 0 ≤ 1 <;>
    simp only [ha, hb, if_true, if_false, Table.get_erase, Table.get_insert, hab, Ne.symm hab] <;>
    grind

/-- A row apart from the time of the last heartbeat. -/
def still (row : TxnStateRecord) : TxnStateRecord := { row with lastHeartbeatMs := 0 }

/-- What recovery leaves, the log and the time of an abort aside. -/
def unlogged (w : World) : World :=
  { w with store := { w.store with wal := ∅, txnState := w.store.txnState.map fun _ row => still row } }

theorem unlogged_eq (hspared : spared w = spared w') (hseq : w.store.lastWalSeq = w'.store.lastWalSeq)
    (hrows : w.store.txnState = w'.store.txnState) (hwrites : w.store.writeSet = w'.store.writeSet)
    (hblobs : w.store.stagedBlobs = w'.store.stagedBlobs)
    (hpins : w.store.activeSnapshots = w'.store.activeSnapshots) (hfiles : w.files = w'.files) :
    unlogged w = unlogged w' := by
  obtain ⟨⟨⟩⟩ := w
  obtain ⟨⟨⟩⟩ := w'
  simp only [spared, World.mk.injEq, Store.mk.injEq] at hspared
  simp only at hseq hrows hwrites hblobs hpins hfiles
  simp [unlogged, hspared, hseq, hrows, hwrites, hblobs, hpins, hfiles]

open Classical in
theorem files_carryOut_carryOut (hne : t ≠ t') (w : World) (v v' : Verdict) (path : String) :
    (carryOut nowMs t' (carryOut nowMs t w v) v').files[path]? =
      if ∃ handle, (v.Aborts ∧ NamesBody w.store t handle ∨ v'.Aborts ∧ NamesBody w.store t' handle) ∧
        InFile w.store path handle then none else w.files[path]? := by
  simp only [files_carryOut, namesBody_carryOut hne, inFile_carryOut, or_and_right, exists_or, and_assoc,
    exists_and_left]
  by_cases hfirst : v.Aborts ∧ ∃ handle, NamesBody w.store t handle ∧ InFile w.store path handle
  · simp [hfirst]
  · have hkept : ∀ handle, InFile w.store path handle → ¬ (v.Aborts ∧ NamesBody w.store t handle) :=
      fun handle hin h => hfirst ⟨h.1, handle, h.2, hin⟩
    have hsecond : ∀ handle, (¬ (v.Aborts ∧ NamesBody w.store t handle) ∧ InFile w.store path handle) ↔
        InFile w.store path handle :=
      fun handle => ⟨fun h => h.2, fun h => ⟨hkept handle h, h⟩⟩
    simp only [hfirst, hsecond, false_or, if_false]

open Classical in
theorem carryOut_comm (hne : t ≠ t') (w : World) (v v' : Verdict) :
    unlogged (carryOut nowMs t' (carryOut nowMs t w v) v') =
      unlogged (carryOut nowMs t (carryOut nowMs t' w v') v) := by
  refine unlogged_eq ?_ ?_ ?_ ?_ ?_ ?_ ?_
  · simp only [spared_carryOut]
  · simp only [lastWalSeq_carryOut]
    omega
  · simp only [txnState_carryOut]
    refine Std.ExtTreeMap.ext_getElem? fun t'' => ?_
    simp only [Table.get_insert]
    grind
  · refine Std.ExtTreeMap.ext_getElem? fun x => ?_
    obtain ⟨t'', key⟩ := x
    simp only [writeSet_carryOut, namesRow_carryOut hne, namesRow_carryOut (Ne.symm hne)]
    grind
  · refine Std.ExtTreeMap.ext_getElem? fun handle => ?_
    simp only [stagedBlobs_carryOut, namesBody_carryOut hne, namesBody_carryOut (Ne.symm hne)]
    grind
  · simp only [activeSnapshots_carryOut]
    exact unpin_comm _ _ _
  · refine Std.ExtTreeMap.ext_getElem? fun path => ?_
    rw [files_carryOut_carryOut hne, files_carryOut_carryOut (Ne.symm hne)]
    simp only [or_comm]

def Verdict.still : Verdict → Verdict
  | .abort row => .abort (Recovery.still row)
  | .commit row => .commit (Recovery.still row)

theorem map_still_insert (rows : Table String TxnStateRecord) (t : String) (row row' : TxnStateRecord)
    (h : still row = still row') :
    (rows.insert t row).map (fun _ row => still row) =
      ((rows.map fun _ row => still row).insert t row').map fun _ row => still row := by
  refine Std.ExtTreeMap.ext_getElem? fun t' => ?_
  by_cases ht : t = t'
  · simp [ht, h]
  · simp only [Table.get_map, Table.get_insert, ht, if_false, Option.map_map]
    rfl

theorem dropAll_unlogged (w : World) (l : WriteSet) :
    l.foldl (World.dropStaged t) (unlogged w) = unlogged (l.foldl (World.dropStaged t) w) := by
  refine List.foldl_hom unlogged fun w x => ?_
  unfold World.dropStaged
  cases x.2.bodyHandle <;> rfl

theorem unlogged_carryOut (w : World) (v : Verdict) :
    unlogged (carryOut nowMs t w v) = unlogged (carryOut 0 t (unlogged w) v.still) := by
  have hrows := map_still_insert w.store.txnState t (v.leaves nowMs) (v.still.leaves 0) (by cases v <;> rfl)
  cases v with
  | commit row =>
    simp only [Verdict.leaves] at hrows
    simp only [carryOut, unlogged, Verdict.still, Store.putTxnState, Store.appendWal, hrows]
  | abort row =>
    have hwrites : (unlogged w).store.iterWriteSet t = w.store.iterWriteSet t := rfl
    simp only [Verdict.leaves] at hrows
    simp only [Verdict.still, carryOut_abort]
    rw [hwrites, dropAll_unlogged]
    simp only [unlogged, hrows]
    rfl

theorem verdict_unlogged (r : Replay) (w : World) (t : String) :
    verdict r (unlogged w).store t = (verdict r w.store t).map Verdict.still := by
  have hrow : (unlogged w).store.getTxnState t = (w.store.getTxnState t).map still := by
    simp [unlogged, Store.getTxnState]
  have hstatus : ∀ row, (still row).status = row.status := fun _ => rfl
  have hpublished : ∀ row uploaded, (unlogged w).store.ledger.published (still row) uploaded =
      w.store.ledger.published row uploaded := fun _ _ => rfl
  unfold verdict
  rw [hrow]
  cases w.store.getTxnState t with
  | none => rfl
  | some row =>
    simp only [Option.map_some, hstatus, hpublished]
    split
    · rfl
    · split
      · rfl
      · split <;> rfl
      · rfl

theorem unlogged_resolved (nowMs : Int) (r : Replay) (w : World) (t : String) :
    unlogged (resolved nowMs r w t) = unlogged (resolved 0 r (unlogged w) t) := by
  unfold resolved
  rw [verdict_unlogged]
  cases verdict r w.store t with
  | none =>
    simp only [Option.map_none, unlogged]
    congr 2
    refine Std.ExtTreeMap.ext_getElem? fun t' => ?_
    simp only [Table.get_map, Option.map_map]
    rfl
  | some v => exact unlogged_carryOut w v

theorem resolved_comm (nowMs : Int) (r : Replay) (w : World) (t t' : String) :
    unlogged (resolved nowMs r (resolved nowMs r w t) t') = unlogged (resolved nowMs r (resolved nowMs r w t') t) := by
  by_cases hne : t = t'
  · rw [hne]
  unfold resolved
  cases hv : verdict r w.store t with
  | none =>
    cases hv' : verdict r w.store t' with
    | none => simp only [hv]
    | some v' => simp only [verdict_carryOut (Ne.symm hne), hv]
  | some v =>
    cases hv' : verdict r w.store t' with
    | none => simp only [hv, verdict_carryOut hne, hv']
    | some v' =>
      simp only [verdict_carryOut hne, verdict_carryOut (Ne.symm hne), hv, hv']
      exact carryOut_comm hne w v v'

/-! ## A second recovery -/

end Recovery

namespace Ledger

variable {L : Ledger} {t t' : String} {nowMs : Int}

/-- Recovery has nothing to decide about the transaction. -/
def Closed (L : Ledger) (t : String) : Prop := L.OpenInLog t → ∀ row, L.row t = some row → row.status.Terminal

theorem closed_resolve_self (L : Ledger) (nowMs : Int) (t : String) (uploaded : List String) :
    (L.resolve nowMs t (L.last t) uploaded).Closed t := by
  have habort : ∀ row, (L.abortRow nowMs t row).Closed t := by
    intro row _ row' hrow'
    cases setRow_row_self.symm.trans hrow'
    exact .inr rfl
  have hcommit : ∀ row, (L.commitRow t row).Closed t := by
    intro row _ row' hrow'
    cases setRow_row_self.symm.trans hrow'
    exact .inl rfl
  unfold resolve
  cases hrow : L.row t with
  | none =>
    intro _ row' hrow'
    exact absurd (hrow.symm.trans hrow') nofun
  | some row =>
    by_cases hterm : row.status.Terminal
    · simp only [if_pos hterm]
      intro _ row' hrow'
      cases hrow.symm.trans hrow'
      exact hterm
    simp only [if_neg hterm]
    match hlast : L.last t with
    | none | some .committed | some .aborted => exact fun hopen => by simp [OpenInLog, hlast] at hopen
    | some .active => exact habort row
    | some .committing =>
      simp only
      split
      · exact hcommit row
      · exact habort row

theorem Closed.resolve_of_ne (h : L.Closed t') (hne : t' ≠ t) (last : Option TxnStatus) (uploaded : List String) :
    (L.resolve nowMs t last uploaded).Closed t' := by
  have hrow : (L.resolve nowMs t last uploaded).row t' = L.row t' := (resolve_ne hne last uploaded).1
  have hlast : (L.resolve nowMs t last uploaded).last t' = L.last t' := (resolve_ne hne last uploaded).2.1
  intro hopen row' hrow'
  rw [OpenInLog, hlast] at hopen
  exact h hopen row' (hrow ▸ hrow')

theorem closed_resolve_all (nowMs : Int) (L₀ : Ledger) {ts : List String} (hnodup : ts.Nodup)
    (hsame : ∀ t ∈ ts, L.last t = L₀.last t) (hrest : ∀ t, t ∉ ts → L.Closed t) (t : String) :
    (ts.foldl (fun L t => L.resolve nowMs t (L₀.last t) ((L₀.uploaded t).getD [])) L).Closed t := by
  induction ts generalizing L with
  | nil => exact hrest t (by simp)
  | cons a rest ih =>
    rw [List.nodup_cons] at hnodup
    have hne : ∀ t' ∈ rest, t' ≠ a := fun t' ht' heq => hnodup.1 (heq ▸ ht')
    refine ih hnodup.2 (fun t' ht' => ?_) fun t' ht' => ?_
    · exact (resolve_ne (hne t' ht') _ _).2.1.trans (hsame t' (by simp [ht']))
    · by_cases heq : t' = a
      · subst heq
        have hself := closed_resolve_self L nowMs t' ((L₀.uploaded t').getD [])
        rw [hsame t' (by simp)] at hself
        exact hself
      · exact (hrest t' (by simp [heq, ht'])).resolve_of_ne heq _ _

end Ledger

namespace Recovery

variable {w : World}

theorem resolved_of_closed {t : String} (h : w.store.ledger.Closed t) (nowMs : Int) :
    resolved nowMs (replay w.store.iterWal) w t = w := by
  have hnone : verdict (replay w.store.iterWal) w.store t = none := by
    unfold verdict
    cases hrow : w.store.getTxnState t with
    | none => rfl
    | some row =>
      by_cases hterm : row.status.Terminal
      · simp only [if_pos hterm]
      simp only [if_neg hterm]
      match hlast : (replay w.store.iterWal).lastStatus[t]? with
      | none | some .committed | some .aborted => rfl
      | some .active => exact absurd (h (.inl hlast) row hrow) hterm
      | some .committing => exact absurd (h (.inr hlast) row hrow) hterm
  unfold resolved
  rw [hnone]

theorem recover_closes (nowMs : Int) {order : List String → List String} (horder : ∀ ts, (order ts).Perm ts)
    (hwal : w.store.WalBound) : ∃ report w', (recover nowMs order).run World.exec w = (.ok report, w') ∧
      ∀ t, w'.store.ledger.Closed t := by
  obtain ⟨report, w', hrun, -, hL, -, -⟩ := recover_resolves (w := w) nowMs order hwal
  refine ⟨report, w', hrun, fun t => ?_⟩
  rw [hL, settle_all_ledger]
  have hperm := horder ((replay w.store.iterWal).lastStatus.toList.map (·.1))
  refine Ledger.closed_resolve_all nowMs w.store.ledger (hperm.nodup_iff.2 Table.nodup_keys) (fun _ _ => rfl)
    (fun t ht hopen => ?_) t
  rw [hperm.mem_iff] at ht
  have hlogged : ∀ st, w.store.ledger.last t ≠ some st := by
    intro st hst
    exact ht (List.mem_map.2 ⟨(t, st), Table.mem_toList.2 hst, rfl⟩)
  rcases hopen with hactive | hcommitting
  · exact absurd hactive (hlogged _)
  · exact absurd hcommitting (hlogged _)

/-- The order in which `recover` visits the transactions leaves no trace but in the log it appends; and
where no WAL row lies above the last sequence number, a second recovery changes nothing at all. -/
theorem recover_any_order_once (w : World) (nowMs nowMs' : Int) (order order' : List String → List String)
    (horder : ∀ ts, (order ts).Perm ts) (horder' : ∀ ts, (order' ts).Perm ts) :
    ∃ report report' w₁ w₂, (recover nowMs order).run World.exec w = (.ok report, w₁) ∧
      (recover nowMs' order').run World.exec w = (.ok report', w₂) ∧ unlogged w₁ = unlogged w₂ ∧
      (w.store.WalBound → ∃ report'', (recover nowMs' order').run World.exec w₁ = (.ok report'', w₁)) := by
  obtain ⟨report, hrun⟩ := recover_run nowMs order w
  obtain ⟨report', hrun'⟩ := recover_run nowMs' order' w
  refine ⟨report, report', _, _, hrun, hrun', ?_, fun hwal => ?_⟩
  · have hcongr : ∀ now now' a a' t, unlogged a = unlogged a' → unlogged (resolved now (replay w.store.iterWal) a t) =
        unlogged (resolved now' (replay w.store.iterWal) a' t) := by
      intro now now' a a' t h
      rw [unlogged_resolved now, unlogged_resolved now', h]
    exact foldl_perm_congr unlogged (hcongr nowMs nowMs') (hcongr nowMs' nowMs')
      (fun a t t' => resolved_comm nowMs' _ a t t') ((horder _).trans (horder' _).symm) rfl
  · obtain ⟨_, w₁, hrun₁, hclosed⟩ := recover_closes nowMs horder hwal
    obtain ⟨-, rfl⟩ := Prod.mk.inj (hrun.symm.trans hrun₁)
    obtain ⟨report'', hrun₂⟩ := recover_run nowMs' order' _
    exact ⟨report'', hrun₂.trans (congrArg _ (List.foldl_fixed' (fun t => resolved_of_closed (hclosed t) nowMs') _))⟩

/-- Transactions for every decision: two are aborted and share a spilled body, one is backfilled, one is left open
because the log has it aborted. -/
def interrupted : World where
  store :=
    { lastWalSeq := 5
      wal := (((((∅ : Table Nat WalRecord).insert 1 (.begin "A" 0 none)).insert 2 (.begin "B" 0 none)).insert 3
        (.committing "C" ["k"])).insert 4 (.aborted "D" "gone")).insert 5 (.stage "B" "b" (some "h"))
      txnState := ((((∅ : Table String TxnStateRecord).insert "A" (.newActive 0 none 1)).insert "B"
        (.newActive 0 none 2)).insert "C" { TxnStateRecord.newActive 0 none 3 with
          status := .committing, writeKeys := ["k"], allocVersions := [("k", 1)] }).insert "D" (.newActive 0 none 4)
      writeSet := ((∅ : Table (String × String) WriteSetEntry).insert ("A", "a")
        (Coordinator.writeEntry "a" [] (some "h") none [] false)).insert ("B", "b") (Coordinator.writeEntry "b" [] (some "h") none [] false)
      stagedBlobs := (∅ : Table String BlobRecord).insert "h" ⟨"/blobs/h", 1⟩
      versionChains := (∅ : Table String VersionChain).insert "k" ⟨"k", [.new 1 "" "k" "C" 0]⟩
      activeSnapshots := (∅ : Table Nat Nat).insert 0 3 }
  files := (∅ : Table String Bytes).insert "/blobs/h" [1]

/-- What recovery decided, to be evaluated: the statuses, what is staged, the pins and the files. -/
def outcome (w : World) : List (String × TxnStatus) × List (String × String) × List String × List (Nat × Nat) × Nat :=
  (w.store.txnState.toList.map fun x => (x.1, x.2.status), w.store.writeSet.toList.map (·.1),
    w.store.stagedBlobs.toList.map (·.1), w.store.activeSnapshots.toList, w.files.toList.length)

theorem recover_any_order_once_interrupted : ∃ report report' w₁ w₂,
    (recover 7 id).run World.exec interrupted = (.ok report, w₁) ∧
    (recover 9 List.reverse).run World.exec interrupted = (.ok report', w₂) ∧ unlogged w₁ = unlogged w₂ ∧
    outcome w₁ = ([("A", .aborted), ("B", .aborted), ("C", .committed), ("D", .active)], [], [], [(0, 1)], 0) ∧
    ∃ report'', (recover 9 List.reverse).run World.exec w₁ = (.ok report'', w₁) := by
  have hwal : interrupted.store.WalBound := by
    intro n r hn
    by_contra hlt
    have hlt : 5 < n := Nat.not_le.1 hlt
    have h₁ : 1 ≠ n := by omega
    have h₂ : 2 ≠ n := by omega
    have h₃ : 3 ≠ n := by omega
    have h₄ : 4 ≠ n := by omega
    have h₅ : 5 ≠ n := by omega
    simp [interrupted, h₁, h₂, h₃, h₄, h₅] at hn
  obtain ⟨report, report', w₁, w₂, hrun, hrun', hsame, hagain⟩ :=
    recover_any_order_once interrupted 7 9 id List.reverse (fun _ => .refl _) List.reverse_perm
  refine ⟨report, report', w₁, w₂, hrun, hrun', hsame, ?_, hagain hwal⟩
  have hw₁ : w₁ = ((recover 7 id).run World.exec interrupted).2 := (congrArg Prod.snd hrun).symm
  rw [hw₁]
  decide +kernel

/-- A log whose rows lie above the last sequence number that the store knows of. -/
def overrun : World where
  store :=
    { wal := (((∅ : Table Nat WalRecord).insert 1 (.aborted "U" "gone")).insert 2 (.stage "U" "u" none)).insert 3
        (.begin "T" 0 none)
      txnState := ((∅ : Table String TxnStateRecord).insert "T" (.newActive 0 none 1)).insert "U" (.newActive 0 none 2) }

/-- The record of one abort takes the place of another, and the second recovery aborts a transaction that the
first has left open. -/
theorem recover_twice_differs :
    let once := ((recover 7 id).run World.exec overrun).2
    let twice := ((recover 7 id).run World.exec once).2
    (outcome once).1 = [("T", .aborted), ("U", .active)] ∧ (outcome twice).1 = [("T", .aborted), ("U", .aborted)] := by
  decide +kernel

end Recovery

end Xtable

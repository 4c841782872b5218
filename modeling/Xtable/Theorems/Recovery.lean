import Xtable.Theorems.Invariant

/-! `recover` resolves the transactions of the log one after the other; each is aborted, committed or left as it is,
    according to its row, its last WAL status and the chains of its keys. Only an abort releases the pin. -/

namespace Xtable

/-- The part of the state that structured reads depend on. -/
def World.records (w : World) :
    Table RecordKey StoredRecord × Table (RecordKey × Nat) StoredRecordVersion × Table String ChunkIndexEntry ×
      Table String Bytes × MemTableSet :=
  (w.store.recordIndex, w.store.recordVersions, w.store.chunkIndex, w.bucket, w.mems)

namespace Ledger

/-- The chains have every uploaded key of the row at the version it was given, and at least one. -/
def published (L : Ledger) (row : TxnStateRecord) (uploaded : List String) : Bool :=
  (row.allocVersions.all fun x => x.1 ∉ uploaded ∨ L.latest x.1 = x.2) &&
    row.allocVersions.any fun x => x.1 ∈ uploaded

def abortRow (L : Ledger) (nowMs : Int) (t : String) (row : TxnStateRecord) : Ledger :=
  (L.log (.aborted t "crash recovery")).setRow t { row with status := .aborted, lastHeartbeatMs := nowMs }

def commitRow (L : Ledger) (t : String) (row : TxnStateRecord) : Ledger :=
  ((L.log (.committed t row.lastVersion)).log (.commitResult t row.lastVersion true)).setRow t
    { row with status := .committed }

/-- The resolution of one transaction, given what the log says of it. -/
def resolve (L : Ledger) (nowMs : Int) (t : String) (last : Option TxnStatus) (uploaded : List String) : Ledger :=
  match L.row t with
  | none => L
  | some row =>
    if row.status.Terminal then L
    else match last with
      | some .active => L.abortRow nowMs t row
      | some .committing => if L.published row uploaded then L.commitRow t row else L.abortRow nowMs t row
      | _ => L

theorem resolve_chain (L : Ledger) (nowMs : Int) (t : String) (last : Option TxnStatus) (uploaded : List String) :
    (L.resolve nowMs t last uploaded).chain = L.chain := by
  unfold resolve
  split
  · rfl
  split
  · rfl
  split <;> try rfl
  split <;> rfl

theorem published_resolve (L : Ledger) (nowMs : Int) (t : String) (last : Option TxnStatus)
    (uploaded uploaded' : List String) (row : TxnStateRecord) :
    (L.resolve nowMs t last uploaded).published row uploaded' = L.published row uploaded' := by
  have hlatest : (L.resolve nowMs t last uploaded).latest = L.latest := by
    funext k
    rw [latest, latest, resolve_chain]
  unfold published
  rw [hlatest]

/-- The snapshot of a transaction that its resolution aborts. -/
def aborts (L : Ledger) (t : String) (last : Option TxnStatus) (uploaded : List String) : Option Nat :=
  match L.row t with
  | none => none
  | some row =>
    if row.status.Terminal then none
    else match last with
      | some .active => some row.snapshotVersion
      | some .committing => if L.published row uploaded then none else some row.snapshotVersion
      | _ => none

end Ledger

/-- The registry of snapshots after one pin, if any, is released. -/
def Store.unpin (pins : Table Nat Nat) : Option Nat → Table Nat Nat
  | none => pins
  | some snap => (({ activeSnapshots := pins } : Store).unregisterSnapshot snap).activeSnapshots

theorem Store.unpin_some (s : Store) (snap : Nat) :
    Store.unpin s.activeSnapshots (some snap) = (s.unregisterSnapshot snap).activeSnapshots := by
  simp only [unpin, unregisterSnapshot]
  split <;> rfl

namespace Recovery

open Prog

/-- The ledger and the registry after the resolution of one transaction. -/
def settle (nowMs : Int) (t : String) (last : Option TxnStatus) (uploaded : List String)
    (x : Ledger × Table Nat Nat) : Ledger × Table Nat Nat :=
  (x.1.resolve nowMs t last uploaded, Store.unpin x.2 (x.1.aborts t last uploaded))

/-- What a step of recovery does: it returns, with the given ledger and registry, and structured data as before. -/
def Resolves {α : Type} (p : Server α) (w : World) (L : Ledger) (P : Table Nat Nat) : Prop :=
  ∃ a w', p.run World.exec w = (.ok a, w') ∧ w'.store.WalBound ∧ w'.store.ledger = L ∧
    w'.store.activeSnapshots = P ∧ w'.records = w.records

variable {α β : Type} {w : World} {t : String} {row : TxnStateRecord} {L L' : Ledger} {P P' : Table Nat Nat}

theorem Resolves.ret {a : α} (hwal : w.store.WalBound) :
    Resolves (.ret a) w w.store.ledger w.store.activeSnapshots :=
  ⟨a, w, rfl, hwal, rfl, rfl, rfl⟩

theorem Resolves.perform {e : Act} {f : e.Res → Server α} (hrec : (w.exec e).2.records = w.records)
    (hf : Resolves (f (w.exec e).1) (w.exec e).2 L P) : Resolves (Prog.perform e >>= f) w L P := by
  obtain ⟨a, w₂, hrun, hwal, hL, hP, hrec'⟩ := hf
  exact ⟨a, w₂, hrun, hwal, hL, hP, hrec'.trans hrec⟩

theorem Resolves.read {p : Server α} {f : α → Server β} {a : α}
    (hp : p.run World.exec w = (.ok a, w)) (hf : Resolves (f a) w L P) : Resolves (p.bind f) w L P := by
  obtain ⟨b, w', hrun, hrest⟩ := hf
  exact ⟨b, w', by rw [run_bind_ok _ hp, hrun], hrest⟩

theorem Resolves.look {f : Option TxnStateRecord → Server α} (hf : Resolves (f (w.store.ledger.row t)) w L P) :
    Resolves (Prog.perform (.getTxnState t) >>= f) w L P :=
  .perform rfl hf

theorem Resolves.log {rec : WalRecord} {f : Nat → Server α} (hwal : w.store.WalBound)
    (hf : ∀ n w', w'.store.WalBound → w'.store.ledger = w.store.ledger.log rec →
      w'.store.activeSnapshots = w.store.activeSnapshots → Resolves (f n) w' L P) :
    Resolves (Prog.perform (.appendWal rec) >>= f) w L P :=
  .perform rfl (hf _ _ (Store.walBound_appendWal hwal rec) (Store.ledger_appendWal hwal rec) rfl)

theorem Resolves.store {r : TxnStateRecord} {f : Unit → Server α} (hwal : w.store.WalBound)
    (hf : ∀ w', w'.store.WalBound → w'.store.ledger = w.store.ledger.setRow t r →
      w'.store.activeSnapshots = w.store.activeSnapshots → Resolves (f ()) w' L P) :
    Resolves (Prog.perform (.putTxnState t r) >>= f) w L P :=
  .perform rfl (hf _ hwal (Store.ledger_putTxnState w.store t r) rfl)

theorem Resolves.store_last {r : TxnStateRecord} (hwal : w.store.WalBound) :
    Resolves (Prog.perform (.putTxnState t r)) w (w.store.ledger.setRow t r) w.store.activeSnapshots :=
  ⟨(), _, rfl, hwal, Store.ledger_putTxnState w.store t r, rfl, rfl⟩

theorem Resolves.bind {p : Server α} {f : α → Server β} (hp : Resolves p w L P)
    (hf : ∀ a w', w'.store.WalBound → w'.store.ledger = L → w'.store.activeSnapshots = P → Resolves (f a) w' L' P') :
    Resolves (p.bind f) w L' P' := by
  obtain ⟨a, w₁, hrun, hwal, hL, hP, hrec⟩ := hp
  obtain ⟨b, w₂, hrun₂, hwal₂, hL₂, hP₂, hrec₂⟩ := hf a w₁ hwal hL hP
  exact ⟨b, w₂, by rw [run_bind_ok _ hrun, hrun₂], hwal₂, hL₂, hP₂, hrec₂.trans hrec⟩

theorem tidy_silent {t : String} {a : Act} (h : Tidy t a) : a.Silent := by
  cases h <;> trivial

theorem tidy_snapshots {t : String} {a : Act} (h : Tidy t a) (w : World) :
    (w.exec a).2.store.activeSnapshots = w.store.activeSnapshots := by
  cases h <;> rfl

theorem tidy_records {t : String} {a : Act} (h : Tidy t a) (w : World) : (w.exec a).2.records = w.records := by
  cases h <;> rfl

theorem dropStaged_resolves (hwal : w.store.WalBound) (ws : WriteSet) :
    Resolves (forEach ws fun x => Coordinator.dropStaged t x.2) w w.store.ledger w.store.activeSnapshots := by
  refine (Within.forEach fun x _ => dropStaged_within t x.2).run ?_ ⟨hwal, rfl, rfl, rfl⟩
  rintro e w' he ⟨hw', hL', hP', hrec'⟩
  exact ⟨(tidy_silent he).walBound hw', ((tidy_silent he).ledger w').trans hL', (tidy_snapshots he w').trans hP',
    (tidy_records he w').trans hrec'⟩

theorem Resolves.release {snap : Nat} {f : Unit → Server α} (hwal : w.store.WalBound)
    (hf : ∀ w', w'.store.WalBound → w'.store.ledger = w.store.ledger →
      w'.store.activeSnapshots = Store.unpin w.store.activeSnapshots (some snap) → Resolves (f ()) w' L P) :
    Resolves (Prog.perform (.unregisterSnapshot snap) >>= f) w L P := by
  have hsilent : (Act.unregisterSnapshot snap).Silent := trivial
  refine .perform ?_ (hf _ (hsilent.walBound hwal) (hsilent.ledger w) (Store.unpin_some w.store snap).symm)
  simp only [World.exec, World.setStore, Store.unregisterSnapshot]
  split <;> rfl

theorem abortTxnNoUploads_resolves (nowMs : Int) (hwal : w.store.WalBound)
    (hrow : w.store.ledger.row t = some row) :
    Resolves (abortTxnNoUploads nowMs t) w (w.store.ledger.abortRow nowMs t row)
      (Store.unpin w.store.activeSnapshots (some row.snapshotVersion)) := by
  refine Resolves.perform rfl (Resolves.bind (dropStaged_resolves hwal _) fun _ w₁ hwal₁ hL₁ hP₁ => ?_)
  refine Resolves.log hwal₁ fun _ w₂ hwal₂ hL₂ hP₂ => Resolves.look ?_
  have hrow₂ : w₂.store.ledger.row t = some row := by rw [hL₂, Ledger.log_row, hL₁, hrow]
  rw [hrow₂]
  refine Resolves.release hwal₂ fun w₃ hwal₃ hL₃ hP₃ => Resolves.look ?_
  rw [hL₃, hrow₂]
  have hL : w.store.ledger.abortRow nowMs t row =
      w₃.store.ledger.setRow t { row with status := .aborted, lastHeartbeatMs := nowMs } := by
    rw [hL₃, hL₂, hL₁]
    rfl
  have hP : Store.unpin w.store.activeSnapshots (some row.snapshotVersion) = w₃.store.activeSnapshots := by
    rw [hP₃, hP₂, hP₁]
  rw [hL, hP]
  exact Resolves.store_last hwal₃

theorem chainState_resolves (uploaded : List String) (alloc : List (String × Nat)) (n : Nat) (pending : List String) :
    ∃ n' pending', (chainState uploaded n pending alloc).run World.exec w = (.ok (n', pending'), w) ∧
      (pending' = [] ↔ pending = [] ∧ ∀ x ∈ alloc, x.1 ∉ uploaded ∨ w.store.ledger.latest x.1 = x.2) ∧
      (pending' = [] → (0 < n' ↔ 0 < n ∨ ∃ x ∈ alloc, x.1 ∈ uploaded)) := by
  induction alloc generalizing n pending with
  | nil => exact ⟨n, pending, rfl, by simp, by simp⟩
  | cons x rest ih =>
    obtain ⟨key, version⟩ := x
    by_cases hup : key ∈ uploaded
    · have hstep : (chainState uploaded n pending ((key, version) :: rest)).run World.exec w =
          (if w.store.ledger.latest key = version then chainState uploaded (n + 1) pending rest
            else chainState uploaded n (pending ++ [key]) rest).run World.exec w := by
        rw [chainState, if_pos hup]
        rfl
      by_cases hlatest : w.store.ledger.latest key = version
      · obtain ⟨n', pending', hrun, hpend, hpub⟩ := ih (n + 1) pending
        refine ⟨n', pending', ?_, by simp [hpend, hlatest], fun hnil => by simp [hpub hnil, hup]⟩
        rw [hstep, if_pos hlatest, hrun]
      · obtain ⟨n', pending', hrun, hpend, -⟩ := ih n (pending ++ [key])
        have hne : pending' ≠ [] := by simp [hpend]
        refine ⟨n', pending', ?_, by simp [hne, hup, hlatest], fun hnil => absurd hnil hne⟩
        rw [hstep, if_neg hlatest, hrun]
    · obtain ⟨n', pending', hrun, hpend, hpub⟩ := ih n pending
      refine ⟨n', pending', ?_, by simp [hpend, hup], fun hnil => by simp [hpub hnil, hup]⟩
      rw [chainState, if_neg hup]
      exact hrun

theorem chainState_published (row : TxnStateRecord) (uploaded : List String) :
    ∃ n pending, (chainState uploaded 0 [] row.allocVersions).run World.exec w = (.ok (n, pending), w) ∧
      (w.store.ledger.published row uploaded = true ↔ pending = [] ∧ 0 < n) := by
  obtain ⟨n, pending, hrun, hpend, hpub⟩ := chainState_resolves (w := w) uploaded row.allocVersions 0 []
  refine ⟨n, pending, hrun, ?_⟩
  rw [and_congr_right hpub, hpend]
  simp [Ledger.published]

theorem commitRow_resolves (report : RecoveryReport) (hwal : w.store.WalBound) :
    Resolves (do
      let _ ← Server.appendWal (.committed t row.lastVersion)
      let _ ← Server.appendWal (.commitResult t row.lastVersion true)
      Server.putTxnState t { row with status := .committed }
      return report) w (w.store.ledger.commitRow t row) w.store.activeSnapshots := by
  refine Resolves.log hwal fun _ w₁ hwal₁ hL₁ hP₁ => Resolves.log hwal₁ fun _ w₂ hwal₂ hL₂ hP₂ => ?_
  refine Resolves.store hwal₂ fun w₃ hwal₃ hL₃ hP₃ => ?_
  have hL : w.store.ledger.commitRow t row = w₃.store.ledger := by
    rw [hL₃, hL₂, hL₁]
    rfl
  rw [hL, ← hP₁, ← hP₂, ← hP₃]
  exact .ret hwal₃

theorem recoverUnfinished_resolves (nowMs : Int) (r : Replay) (report : RecoveryReport) (hwal : w.store.WalBound)
    (hrow : w.store.ledger.row t = some row) (hterm : ¬ row.status.Terminal) :
    let x := settle nowMs t r.lastStatus[t]? ((r.lastUploaded[t]?).getD []) (w.store.ledger, w.store.activeSnapshots)
    Resolves (recoverUnfinished nowMs r report t row) w x.1 x.2 := by
  have habort : ∀ report' : RecoveryReport,
      Resolves ((abortTxnNoUploads nowMs t).bind fun _ => .ret report') w
        (w.store.ledger.abortRow nowMs t row) (Store.unpin w.store.activeSnapshots (some row.snapshotVersion)) := by
    intro report'
    refine (abortTxnNoUploads_resolves nowMs hwal hrow).bind fun _ w' hwal' hL' hP' => ?_
    rw [← hL', ← hP']
    exact .ret hwal'
  simp only [recoverUnfinished, settle, Ledger.resolve, Ledger.aborts, hrow, if_neg hterm]
  generalize r.lastStatus[t]? = last
  rcases last with _ | (_ | _ | _ | _)
  case none | some.committed | some.aborted => exact .ret hwal
  case some.active => exact habort report
  case some.committing =>
    obtain ⟨n, pending, hrun, hpublished⟩ := chainState_published (w := w) row ((r.lastUploaded[t]?).getD [])
    refine Resolves.read hrun ?_
    by_cases hnil : pending = []
    · by_cases hn : 0 < n
      · simp only [hnil, ne_eq, not_true, if_false, hn, if_true, hpublished.2 ⟨hnil, hn⟩]
        exact commitRow_resolves _ hwal
      · have hnot : ¬ w.store.ledger.published row ((r.lastUploaded[t]?).getD []) = true := by
          simp [hpublished, hn]
        simp only [hnil, ne_eq, not_true, if_false, hn, if_neg hnot]
        exact habort report
    · have hnot : ¬ w.store.ledger.published row ((r.lastUploaded[t]?).getD []) = true := by
        simp [hpublished, hnil]
      simp only [ne_eq, hnil, not_false_eq_true, if_true, if_neg hnot]
      exact habort _

theorem recoverTxn_resolves (nowMs : Int) (r : Replay) (report : RecoveryReport) (t : String)
    (hwal : w.store.WalBound) :
    let x := settle nowMs t r.lastStatus[t]? ((r.lastUploaded[t]?).getD []) (w.store.ledger, w.store.activeSnapshots)
    Resolves (recoverTxn nowMs r report t) w x.1 x.2 := by
  refine Resolves.look ?_
  cases hrow : w.store.ledger.row t with
  | none =>
    simp only [settle, Ledger.resolve, Ledger.aborts, hrow]
    exact .ret hwal
  | some row =>
    by_cases hterm : row.status.Terminal
    · simp only [settle, Ledger.resolve, Ledger.aborts, hrow, if_pos hterm]
      exact .ret hwal
    · simp only [if_neg hterm]
      exact recoverUnfinished_resolves nowMs r report hwal hrow hterm

theorem recoverEach_resolves (nowMs : Int) (r : Replay) (report : RecoveryReport) (ts : List String)
    (hwal : w.store.WalBound) :
    let x := ts.foldl (fun x t => settle nowMs t r.lastStatus[t]? ((r.lastUploaded[t]?).getD []) x)
      (w.store.ledger, w.store.activeSnapshots)
    Resolves (recoverEach nowMs r report ts) w x.1 x.2 := by
  induction ts generalizing report w with
  | nil => exact .ret hwal
  | cons t rest ih =>
    refine Resolves.bind (recoverTxn_resolves nowMs r report t hwal) fun report' w' hwal' hL' hP' => ?_
    rw [List.foldl_cons, ← Prod.mk.eta (p := settle _ _ _ _ _), ← hL', ← hP']
    exact ih report' hwal'

theorem recover_resolves (nowMs : Int) (order : List String → List String) (hwal : w.store.WalBound) :
    let x := (order ((replay w.store.iterWal).lastStatus.toList.map (·.1))).foldl
      (fun x t => settle nowMs t (w.store.ledger.last t) ((w.store.ledger.uploaded t).getD []) x)
      (w.store.ledger, w.store.activeSnapshots)
    Resolves (recover nowMs order) w x.1 x.2 :=
  Resolves.perform rfl (recoverEach_resolves nowMs _ {} _ hwal)

end Recovery

end Xtable

import Xtable.Tx.FlushLoop
import Xtable.Theorems.LostSchemas

/-! A flush cuts the WAL at the newest commit version of its memtable, though the log is numbered by a counter of
    its own. A transaction that began after every commit of the memtable, in a store whose versions were not ahead
    of its log, has all its records above the cut. -/

namespace Xtable

open Pool (Phases Phased)
open Prog Coordinator

variable {a : Act} {w : World} {α : Type}

/-! ## What a call knows of a row -/

/-- Actions that keep the log and the snapshots of the rows, and make no transaction known. -/
def Act.Plain : Act → Prop
  | putTxnState _ _ | deleteTxnState _ | appendWal _ | truncateWal _ | lockBeginTxn _ _ => False
  | _ => True

/-- What a call that has seen the row of `t`, begun at `snap`, does. -/
inductive Held (t : String) (snap : Nat) : Act → Prop where
  | plain {a : Act} (ha : a.Plain) : Held t snap a
  | put {row : TxnStateRecord} (hsnap : row.snapshotVersion = snap) : Held t snap (.putTxnState t row)
  | log {r : WalRecord} (hid : r.txnId = some t) : Held t snap (.appendWal r)

/-- A `begin` draws its snapshot, stores the row and registers it; from then on, as all other calls, it holds the row
that it has seen last. -/
inductive Grasp where
  | drawing (t : String)
  | drawn (t : String) (snap : Nat)
  | stored (t : String) (snap : Nat)
  | holds (o : Option (String × Nat))

namespace Grasp

inductive Move : Protocol Act.Res Grasp where
  | capture {t : String} :
      Move (.drawing t) .captureAndRegisterSnapshot (fun _ => True) fun snap : Nat => .drawn t snap
  | putRow {t : String} {snap : Nat} {row : TxnStateRecord} (hsnap : row.snapshotVersion = snap) :
      Move (.drawn t snap) (.putTxnState t row) (fun _ => True) fun _ => .stored t snap
  | lockBegin {t : String} {snap v : Nat} :
      Move (.stored t snap) (.lockBeginTxn t v) (fun r : Except XtableError Unit => r = .ok ())
        fun _ => .holds (some (t, snap))
  | look {o : Option (String × Nat)} {t : String} :
      Move (.holds o) (.getTxnState t) (fun _ => True)
        fun r : Option TxnStateRecord => .holds (r.map fun row => (t, row.snapshotVersion))
  | relook {t : String} {snap : Nat} :
      Move (.holds (some (t, snap))) (.getTxnState t)
        (fun r : Option TxnStateRecord => ∃ row, r = some row ∧ row.snapshotVersion = snap) fun _ => .holds (some (t, snap))
  | plain {o : Option (String × Nat)} {a : Act} (ha : a.Plain) : Move (.holds o) a (fun _ => True) fun _ => .holds o
  | held {t : String} {snap : Nat} {a : Act} (ha : Held t snap a) :
      Move (.holds (some (t, snap))) a (fun _ => True) fun _ => .holds (some (t, snap))

def Free (g : Grasp) : Prop := ∃ o, g = .holds o

/-- The id that a `begin` has drawn and not registered yet. -/
def draws : Grasp → Option String
  | drawing t | drawn t _ | stored t _ => some t
  | holds _ => none

end Grasp

/-- A program that holds on to what it sees. -/
abbrev Grasps {α : Type} (p : Server α) (g : Grasp) : Prop := p.Obeys Grasp.Move g fun _ g' => g'.Free

section Programs

variable {t : String} {snap : Nat} {o : Option (String × Nat)}

theorem grasps_of_held {p : Server α} (hp : p.Only (Held t snap)) : Grasps p (.holds (some (t, snap))) :=
  (hp.obeys fun _ ha => .held ha).mono fun _ _ h => ⟨_, h⟩

theorem grasps_of_plain {p : Server α} (hp : p.Only Act.Plain) : Grasps p (.holds o) :=
  (hp.obeys fun _ ha => .plain ha).mono fun _ _ h => ⟨_, h⟩

theorem grasps_of_look {f : Option TxnStateRecord → Server α} (hnone : (f none).Only Act.Plain)
    (hsome : ∀ row, (f (some row)).Only (Held t row.snapshotVersion)) :
    Grasps (Server.getTxnState t >>= f) (.holds o) := by
  refine Obeys.perform .look fun r _ => ?_
  cases r with
  | none => exact grasps_of_plain hnone
  | some row => exact grasps_of_held (hsome row)

theorem Act.Idle.plain {a : Act} (h : a.Idle) : a.Plain := by
  cases a <;> first | exact h.elim | trivial

theorem DropAct.held {a : Act} (h : DropAct t a) : Held t snap a := by
  cases h with
  | idle ha => exact .plain ha.plain
  | log hid => exact .log hid
  | drop => exact .plain trivial

theorem CommitAct.held {moved : Prop} {a : Act} (h : CommitAct t snap moved a) : Held t snap a := by
  cases h with
  | drop ha => exact ha.held
  | put hsnap => exact .put hsnap
  | append => exact .plain trivial

theorem begin_grasps (t : String) (idem : Option String) (now : Int) : Grasps (Coordinator.begin t idem now) (.drawing t) := by
  refine Obeys.perform .capture fun snap _ => ?_
  refine Obeys.perform (.putRow rfl) fun _ _ => ?_
  refine Obeys.perform .lockBegin fun r hr => ?_
  subst hr
  exact grasps_of_held (Only.perform (.log rfl) fun _ => trivial)

theorem requireActive_grasps {f : TxnStateRecord → Server α} (hf : ∀ row, (f row).Only (Held t row.snapshotVersion)) :
    Grasps (requireActive t >>= f) (.holds o) := by
  rw [requireActive, bind_eq, bind_eq, Prog.bind_assoc, ← bind_eq]
  refine grasps_of_look trivial fun row => ?_
  by_cases hrow : row.status = .active
  · simpa [hrow] using hf row
  · simp [hrow, Only]

theorem spill_only (env : Env) (t' key : String) (body : Bytes) : (spill env t' key body).Only (Held t snap) := by
  unfold spill
  split
  · refine Only.perform (.plain trivial) fun _ => ?_
    exact Only.perform (.plain trivial) fun _ => trivial
  · trivial

theorem stage_grasps (env : Env) (t key : String) (body : Bytes) (contentType : Option String)
    (userMeta : List (String × String)) (deleted : Bool) :
    Grasps (Coordinator.stage env t key body contentType userMeta deleted) (.holds o) := by
  refine requireActive_grasps fun row => ?_
  refine (spill_only env t key body).bind fun handle => ?_
  refine Only.perform (.log rfl) fun _ => ?_
  refine Only.perform (.plain trivial) fun _ => ?_
  by_cases hkey : key ∈ row.writeKeys
  · simp only [hkey, if_true]
    exact ⟨.plain trivial, fun _ => trivial⟩
  · simp only [hkey, if_false]
    refine Only.perform (.put rfl) fun _ => ?_
    exact ⟨.plain trivial, fun _ => trivial⟩

theorem read_grasps (t key : String) (version : Nat) (etag : String) :
    Grasps (Coordinator.read t key version etag) (.holds o) := by
  refine requireActive_grasps fun row => ?_
  refine Only.perform (.plain trivial) fun _ => ?_
  split
  · trivial
  · exact ⟨.put rfl, fun _ => trivial⟩

theorem heartbeat_grasps (t : String) (now : Int) : Grasps (Coordinator.heartbeat t now) (.holds o) :=
  requireActive_grasps fun _ => ⟨.put rfl, fun _ => trivial⟩

theorem commit_grasps (env : Env) (aged : String → Bool) (t : String) :
    Grasps (Coordinator.commit (Engine.postCommitHook env) aged t) (.holds o) := by
  refine Obeys.bind ((claim_walk (Grasp.Move.plain trivial) (.plain trivial) rfl).mono ?_)
  rintro (_ | _ | version) _ rfl
  · exact ⟨_, rfl⟩
  · refine Obeys.bind (Obeys.attempt ((commitOwned_walk env aged .look (fun _ _ => .held (.plain trivial))
      fun _ _ a ha => .held ha.held).mono ?_))
    have hfree : ∀ {g : Grasp}, ((True ∧ g = .holds none) ∨ ∃ txn : TxnStateRecord, True ∧
        g = .holds (some (t, txn.snapshotVersion))) → g.Free := by
      rintro _ (⟨-, rfl⟩ | ⟨txn, -, rfl⟩) <;> exact ⟨_, rfl⟩
    rintro (err | version) g hg
    · obtain ⟨o', rfl⟩ := hfree hg
      refine Obeys.bind ((reconcile_walk err .look fun _ _ a ha => .held ha.held).mono ?_)
      rintro (_ | _) _ ⟨r, -, rfl⟩ <;> exact ⟨_, rfl⟩
    · exact hfree hg
  · exact ⟨_, rfl⟩

theorem abort_grasps (t : String) : Grasps (Coordinator.abort t) (.holds o) := by
  refine (abort_walk .look (fun _ => .plain trivial) fun _ a ha => .held ha.held).mono ?_
  rintro _ _ (⟨_, rfl⟩ | ⟨_, _, rfl⟩) <;> exact ⟨_, rfl⟩

theorem sweepStaleTxns_grasps (now timeout : Int) :
    (Gc.sweepStaleTxns now timeout).Obeys Grasp.Move (.holds o) fun r g => (∃ k, r = .ok k) ∧ g.Free := by
  refine Obeys.perform (.plain trivial) fun stale _ => abortEach_obeys ?_ ⟨_, rfl⟩ 0 stale
  rintro _ t ⟨o', rfl⟩
  refine (abortTxnLocal_walk .look (fun _ => .plain trivial) fun _ a ha => .held ha.held).mono ?_
  rintro _ _ ⟨hok, ⟨_, rfl⟩ | ⟨_, _, rfl⟩⟩ <;> exact ⟨hok, _, rfl⟩

theorem sweepAll_grasps (now timeout : Int) : Grasps (Gc.sweepAll now timeout) (.holds o) := by
  refine Obeys.bind ((sweepStaleTxns_grasps now timeout).mono ?_)
  rintro _ _ ⟨⟨n, rfl⟩, o', rfl⟩
  exact Obeys.perform (.plain trivial) fun _ _ => ⟨_, rfl⟩

/-! ### Recovery and the flush -/

theorem abortTxnNoUploads_grasps (now : Int) (t : String) (snap : Nat) :
    Grasps (Recovery.abortTxnNoUploads now t) (.holds (some (t, snap))) := by
  refine Obeys.perform (.plain trivial) fun ws _ => ?_
  refine Obeys.bind (((Within.forEach fun x _ => dropStaged_within t x.2).obeys fun _ h => .held h.drop.held).mono ?_)
  rintro _ _ ⟨⟨_, rfl⟩, rfl⟩
  refine Obeys.perform (.held (.log rfl)) fun _ _ => ?_
  refine Obeys.perform .relook fun _ hrow => ?_
  obtain ⟨row, rfl, -⟩ := hrow
  refine Obeys.perform (.plain trivial) fun _ _ => ?_
  refine Obeys.perform .relook fun _ hrow => ?_
  obtain ⟨row, rfl, hsnap⟩ := hrow
  exact Obeys.act (.held (.put hsnap)) fun _ _ => ⟨_, rfl⟩

theorem chainState_only {P : Act → Prop} (hread : ∀ key, P (.readChain key)) (uploaded : List String) (n : Nat) (keys : List String)
    (alloc : List (String × Nat)) : (Recovery.chainState uploaded n keys alloc).Only P := by
  induction alloc generalizing n keys with
  | nil => trivial
  | cons x rest ih =>
    unfold Recovery.chainState
    split
    · refine Only.perform (hread _) fun chain => ?_
      split
      · exact ih _ _
      · exact ih _ _
    · exact ih _ _

theorem recoverUnfinished_grasps (now : Int) (r : Recovery.Replay) (report : Recovery.RecoveryReport) (t : String)
    (row : TxnStateRecord) :
    Grasps (Recovery.recoverUnfinished now r report t row) (.holds (some (t, row.snapshotVersion))) := by
  have habort : ∀ report' : Recovery.RecoveryReport, Grasps ((Recovery.abortTxnNoUploads now t).bind fun _ =>
      (ret report' : Server Recovery.RecoveryReport)) (.holds (some (t, row.snapshotVersion))) := by
    intro report'
    refine Obeys.bind ((abortTxnNoUploads_grasps now t _).mono ?_)
    rintro (_ | _) _ hg <;> exact hg
  unfold Recovery.recoverUnfinished
  split
  · exact habort report
  · refine Obeys.bind (((chainState_only (fun _ => .plain trivial) _ _ _ _).obeys fun _ ha => .held ha).mono ?_)
    rintro (_ | state) _ rfl
    · exact ⟨_, rfl⟩
    simp only
    split
    · exact habort _
    · split
      · refine grasps_of_held ?_
        refine Only.perform (.log rfl) fun _ => ?_
        refine Only.perform (.log rfl) fun _ => ?_
        exact Only.perform (.put rfl) fun _ => trivial
      · exact habort report
  · exact ⟨_, rfl⟩

theorem recoverEach_grasps (now : Int) (r : Recovery.Replay) (report : Recovery.RecoveryReport) (ts : List String) :
    Grasps (Recovery.recoverEach now r report ts) (.holds o) := by
  induction ts generalizing report o with
  | nil => exact ⟨_, rfl⟩
  | cons t rest ih =>
    have htxn : Grasps (Recovery.recoverTxn now r report t) (.holds o) := by
      refine Obeys.perform .look fun row _ => ?_
      cases row with
      | none => exact ⟨_, rfl⟩
      | some row =>
        by_cases hst : row.status.Terminal
        · simp only [if_pos hst]
          exact ⟨_, rfl⟩
        · simp only [if_neg hst]
          exact recoverUnfinished_grasps now r report t row
    refine Obeys.bind (htxn.mono ?_)
    rintro (_ | report') _ ⟨o', rfl⟩
    · exact ⟨_, rfl⟩
    · exact ih report'

theorem recover_grasps (now : Int) (order : List String → List String) : Grasps (Recovery.recover now order) (.holds none) :=
  Obeys.perform (.plain trivial) fun _ _ => recoverEach_grasps now _ _ _

/-- What the flush of a memtable does to the log: it notes itself and cuts. -/
inductive FlushAct (mt : MemTable) : Act → Prop where
  | plain {a : Act} (ha : a.Plain) : FlushAct mt a
  | log {r : WalRecord} (hid : r.txnId = none) : FlushAct mt (.appendWal r)
  | cut : FlushAct mt (.truncateWal mt.latestSeq)

theorem flushOne_only (c : Codecs) (chunkId : String) (now : Int64) (entries : List MemEntry) (mt : MemTable) :
    (Flush.flushOne c chunkId now entries mt).Only (FlushAct mt) := by
  unfold Flush.flushOne
  split
  · trivial
  split
  · trivial
  · trivial
  refine Only.perform (.plain trivial) fun _ => ?_
  refine Only.perform (.plain trivial) fun _ => ?_
  refine (Only.forEach fun e _ => ?_).bind fun _ => ?_
  · split
    · trivial
    · exact Only.perform (.plain trivial) fun _ => trivial
  refine Only.perform (.log rfl) fun _ => ?_
  refine Only.perform (.plain trivial) fun _ => ?_
  exact Only.perform .cut fun _ => trivial

end Programs

/-! ## The log runs ahead of the snapshots -/

/-- The snapshot of a transaction, if it has a row. -/
def Store.snapshotOf (s : Store) (t : String) : Option Nat := (s.txnState[t]?).map (·.snapshotVersion)

/-- Every record of a transaction in the log stands above the snapshot of its row. -/
structure Store.Paced (s : Store) : Prop where
  bound : s.WalBound
  rows : ∀ t snap, s.snapshotOf t = some snap → snap ≤ s.lastWalSeq
  wal : ∀ (seq : Nat) r t, s.wal[seq]? = some r → r.txnId = some t → ∃ snap, s.snapshotOf t = some snap ∧ snap < seq

/-- What an action leaves alone for the calls that have not drawn `o`. -/
structure World.Spares (o : Option String) (w w' : World) : Prop where
  seq : w.store.lastWalSeq ≤ w'.store.lastWalSeq
  held : ∀ t snap, w.store.snapshotOf t = some snap → w'.store.snapshotOf t = some snap
  absent : ∀ t, o ≠ some t → w.store.snapshotOf t = none → w'.store.snapshotOf t = none
  unknown : ∀ t, o ≠ some t → w.locks.byTxn[t]? = none → w'.locks.byTxn[t]? = none

/-- What a call knows is so. -/
def Grasp.Ok (w : World) : Grasp → Prop
  | drawing t => w.store.snapshotOf t = none ∧ w.locks.byTxn[t]? = none
  | drawn t snap => w.store.snapshotOf t = none ∧ w.locks.byTxn[t]? = none ∧ snap ≤ w.store.lastWalSeq
  | stored t snap => w.store.snapshotOf t = some snap ∧ w.locks.byTxn[t]? = none
  | holds none => True
  | holds (some (t, snap)) => w.store.snapshotOf t = some snap

theorem Grasp.Ok.spared {g : Grasp} {o : Option String} {w' : World} (h : g.Ok w) (hspares : w.Spares o w')
    (hdraws : ∀ t, g.draws = some t → o ≠ some t) : g.Ok w' := by
  cases g with
  | drawing t => exact ⟨hspares.absent t (hdraws t rfl) h.1, hspares.unknown t (hdraws t rfl) h.2⟩
  | drawn t snap =>
    exact ⟨hspares.absent t (hdraws t rfl) h.1, hspares.unknown t (hdraws t rfl) h.2.1, h.2.2.trans hspares.seq⟩
  | stored t snap => exact ⟨hspares.held t snap h.1, hspares.unknown t (hdraws t rfl) h.2⟩
  | holds o' =>
    cases o' with
    | none => trivial
    | some x => exact hspares.held x.1 x.2 h

namespace Store

variable {s s' : Store} {t : String} {row : TxnStateRecord}

theorem snapshotOf_putTxnState (t' : String) :
    (s.putTxnState t row).snapshotOf t' = if t = t' then some row.snapshotVersion else s.snapshotOf t' := by
  simp only [snapshotOf, putTxnState, Table.get_insert]
  split <;> rfl

theorem Paced.of_eq (h : s.Paced) (hrows : ∀ t, s'.snapshotOf t = s.snapshotOf t) (hwal : s'.wal = s.wal)
    (hseq : s'.lastWalSeq = s.lastWalSeq) : s'.Paced where
  bound n r hn := hseq ▸ h.bound n r (hwal ▸ hn)
  rows t snap ht := hseq ▸ h.rows t snap (hrows t ▸ ht)
  wal seq r t hr hid := by
    rw [hrows]
    exact h.wal seq r t (hwal ▸ hr) hid

theorem Paced.appendWal (h : s.Paced) {r : WalRecord} (hrow : ∀ t, r.txnId = some t → ∃ snap, s.snapshotOf t = some snap) :
    (s.appendWal r).2.Paced where
  bound n r' hn := by
    simp only [Store.appendWal, Table.get_insert] at hn ⊢
    split at hn
    · omega
    · exact (h.bound n r' hn).trans (Nat.le_succ _)
  rows t snap ht := (h.rows t snap ht).trans (Nat.le_succ _)
  wal seq r' t hr hid := by
    simp only [Store.appendWal, Table.get_insert] at hr
    split at hr
    case isTrue heq =>
      cases hr
      obtain ⟨snap, hsnap⟩ := hrow t hid
      have hle := h.rows t snap hsnap
      exact ⟨snap, hsnap, by omega⟩
    case isFalse => exact h.wal seq r' t hr hid

theorem Paced.newRow (h : s.Paced) (hnone : s.snapshotOf t = none) (hle : row.snapshotVersion ≤ s.lastWalSeq) :
    (s.putTxnState t row).Paced where
  bound := h.bound
  rows t' snap ht := by
    rw [snapshotOf_putTxnState] at ht
    split at ht
    · cases ht
      exact hle
    · exact h.rows t' snap ht
  wal seq r t' hr hid := by
    obtain ⟨snap, hsnap, hlt⟩ := h.wal seq r t' hr hid
    have hne : t ≠ t' := by
      rintro rfl
      simp [hnone] at hsnap
    exact ⟨snap, by rw [snapshotOf_putTxnState, if_neg hne, hsnap], hlt⟩

theorem get_truncateWal (upToSeq seq : Nat) :
    (s.truncateWal upToSeq).2.wal[seq]? = if upToSeq < seq then s.wal[seq]? else none := by
  simp only [truncateWal]
  rw [Std.ExtTreeMap.getElem?_filter']
  by_cases hcut : upToSeq < seq <;> cases s.wal[seq]? <;> simp [hcut]

theorem Paced.truncateWal (h : s.Paced) (upToSeq : Nat) : (s.truncateWal upToSeq).2.Paced where
  bound n r hn := by
    rw [get_truncateWal] at hn
    split at hn
    · exact h.bound n r hn
    · cases hn
  rows := h.rows
  wal seq r t hr hid := by
    rw [get_truncateWal] at hr
    split at hr
    · exact h.wal seq r t hr hid
    · cases hr

end Store

/-! ## What each action does -/

section Effects

variable {w w' : World} {t : String} {snap : Nat} {o : Option String}

theorem World.Spares.of_eq (hrows : ∀ t, w'.store.snapshotOf t = w.store.snapshotOf t)
    (hseq : w.store.lastWalSeq ≤ w'.store.lastWalSeq)
    (hlocks : ∀ t, o ≠ some t → w.locks.byTxn[t]? = none → w'.locks.byTxn[t]? = none) : w.Spares o w' where
  seq := hseq
  held t _ h := (hrows t).trans h
  absent t _ h := (hrows t).trans h
  unknown := hlocks

theorem Act.Plain.store (h : a.Plain) (w : World) :
    (∀ t, (w.exec a).2.store.snapshotOf t = w.store.snapshotOf t) ∧ (w.exec a).2.store.wal = w.store.wal ∧
      (w.exec a).2.store.lastWalSeq = w.store.lastWalSeq := by
  cases a <;> try first | exact h.elim | exact ⟨fun _ => rfl, rfl, rfl⟩
  case compareAndSetTxnStatus t old new =>
    rcases w.exec_compareAndSet t _ _ with ⟨r, hr, -, heq⟩ | ⟨-, heq⟩ <;> rw [heq]
    · refine ⟨fun t' => ?_, rfl, rfl⟩
      rw [Store.snapshotOf_putTxnState]
      split
      case isTrue hne => simp [Store.snapshotOf, ← hne, hr]
      case isFalse => rfl
    · exact ⟨fun _ => rfl, rfl, rfl⟩
  case unregisterSnapshot snap =>
    simp only [World.exec, World.setStore, Store.unregisterSnapshot]
    split <;> exact ⟨fun _ => rfl, rfl, rfl⟩
  case appendChainEntriesBulk entries =>
    simp only [World.exec, World.onStore, Store.appendChainEntriesBulk]
    split <;> exact ⟨fun _ => rfl, rfl, rfl⟩

theorem Act.Plain.spares (h : a.Plain) (w : World) : w.Spares o (w.exec a).2 := by
  obtain ⟨hrows, -, hseq⟩ := h.store w
  refine .of_eq hrows hseq.ge fun t _ hnone => World.exec_unknown hnone fun snap heq => ?_
  subst heq
  exact h

theorem Act.Plain.paced (h : a.Plain) (hw : w.store.Paced) : (w.exec a).2.store.Paced := by
  obtain ⟨hrows, hwal, hseq⟩ := h.store w
  exact hw.of_eq hrows hwal hseq

theorem World.spares_appendWal (w : World) (r : WalRecord) : w.Spares o (w.exec (.appendWal r)).2 :=
  .of_eq (fun _ => rfl) (Nat.le_succ _) fun _ _ h => h

theorem Held.spares (h : Held t snap a) (hsnap : w.store.snapshotOf t = some snap) : w.Spares o (w.exec a).2 := by
  cases h with
  | plain ha => exact ha.spares w
  | log hid => exact w.spares_appendWal _
  | @put row hput =>
    refine .of_eq (fun t' => ?_) le_rfl fun _ _ h => h
    refine (Store.snapshotOf_putTxnState t').trans ?_
    split
    case isTrue heq => rw [← heq, hsnap, hput]
    case isFalse => rfl

theorem Held.paced (h : Held t snap a) (hw : w.store.Paced) (hsnap : w.store.snapshotOf t = some snap) :
    (w.exec a).2.store.Paced := by
  have hspares := h.spares (o := none) hsnap
  cases h with
  | plain ha => exact ha.paced hw
  | log hid =>
    refine hw.appendWal fun t' ht' => ⟨snap, ?_⟩
    obtain rfl : t = t' := Option.some.inj (hid.symm.trans ht')
    exact hsnap
  | put hput =>
    refine hw.of_eq (fun t' => ?_) rfl rfl
    cases hold : w.store.snapshotOf t' with
    | some n => exact hspares.held t' n hold
    | none => exact hspares.absent t' nofun hold

theorem Grasp.Move.effect {g : Grasp} {e : Act} {A : e.Res → Prop} {N : e.Res → Grasp} (hm : Grasp.Move g e A N)
    (hw : w.store.Paced) (hg : g.Ok w)
    (hbegin : ∀ t, g = .drawing t → w.store.globalVersion ≤ w.store.lastWalSeq) :
    A (w.exec e).1 ∧ (w.exec e).2.store.Paced ∧ (N (w.exec e).1).Ok (w.exec e).2 ∧ w.Spares g.draws (w.exec e).2 := by
  cases hm with
  | @capture t =>
    have hplain : Act.Plain .captureAndRegisterSnapshot := trivial
    exact ⟨trivial, hplain.paced hw, ⟨hg.1, hg.2, hbegin t rfl⟩, hplain.spares w⟩
  | @putRow t snap row hsnap =>
    obtain ⟨hnone, hunknown, hle⟩ := hg
    have hget : ∀ t', (w.store.putTxnState t row).snapshotOf t' =
        if t = t' then some row.snapshotVersion else w.store.snapshotOf t' := Store.snapshotOf_putTxnState
    refine ⟨trivial, hw.newRow hnone (hsnap ▸ hle), ⟨?_, hunknown⟩, le_rfl, fun t' n hn => ?_, fun t' hne hn => ?_, fun _ _ h => h⟩
    · exact (hget t).trans (by rw [if_pos rfl, hsnap])
    · have hne : t ≠ t' := by
        rintro rfl
        simp [hnone] at hn
      exact (hget t').trans (by rw [if_neg hne, hn])
    · have hne' : t ≠ t' := fun heq => hne (congrArg some heq)
      exact (hget t').trans (by rw [if_neg hne', hn])
  | @lockBegin t snap v =>
    obtain ⟨hsnap, hunknown⟩ := hg
    have hlocks : w.locks.beginTxn t v = (.ok (), (w.locks.beginTxn t v).2) := by
      simp [SiLockManager.beginTxn, hunknown]
    refine ⟨congrArg Prod.fst hlocks, hw, hsnap, .of_eq (fun _ => rfl) le_rfl fun t' hne hnone => ?_⟩
    refine World.exec_unknown hnone fun n heq => hne ?_
    cases heq
    rfl
  | @look o t =>
    refine ⟨trivial, hw, ?_, .of_eq (fun _ => rfl) le_rfl fun _ _ h => h⟩
    cases hrow : w.store.txnState[t]? with
    | none => simp [World.exec, Store.getTxnState, hrow, Grasp.Ok]
    | some row => simp [World.exec, Store.getTxnState, hrow, Grasp.Ok, Store.snapshotOf]
  | @relook t snap =>
    refine ⟨?_, hw, hg, .of_eq (fun _ => rfl) le_rfl fun _ _ h => h⟩
    exact Option.map_eq_some_iff.1 hg
  | @plain o a ha => exact ⟨trivial, ha.paced hw, hg.spared (o := none) (ha.spares w) (by rintro _ ⟨⟩), ha.spares w⟩
  | @held t snap a ha => exact ⟨trivial, ha.paced hw hg, (ha.spares (o := none) hg).held t snap hg, ha.spares hg⟩

end Effects

/-! ## The calls in flight -/

/-- How a call begins. -/
def Call.grasp (c : Call) : Grasp :=
  match c.begins with
  | some t => .drawing t
  | none => .holds none

theorem Call.body_grasps (env : Env) (c : Call) : Grasps (c.body env) c.grasp := by
  have wrap : ∀ {α : Type} {p : Server α} {f : α → Server Reply} {g : Grasp}, Grasps p g → (∀ a, ∃ r, f a = ret r) →
      Grasps (p >>= f) g := by
    intro α p f g hp hf
    refine Obeys.bind (hp.mono ?_)
    rintro (x | a) g' hg
    · exact hg
    · obtain ⟨r, hr⟩ := hf a
      simpa [hr] using hg
  cases c with
  | begin t idem now => exact wrap (begin_grasps t idem now) fun _ => ⟨_, rfl⟩
  | stage t key body contentType userMeta deleted =>
    exact wrap (stage_grasps env t key body contentType userMeta deleted) fun _ => ⟨_, rfl⟩
  | read t key version etag => exact wrap (read_grasps t key version etag) fun _ => ⟨_, rfl⟩
  | heartbeat t now => exact wrap (heartbeat_grasps t now) fun _ => ⟨_, rfl⟩
  | commit t aged => exact wrap (commit_grasps env aged t) fun _ => ⟨_, rfl⟩
  | abort t => exact wrap (abort_grasps t) fun _ => ⟨_, rfl⟩
  | sweepStale now timeout => exact wrap ((sweepStaleTxns_grasps now timeout).mono fun _ _ h => h.2) fun _ => ⟨_, rfl⟩
  | sweep now timeout => exact wrap (sweepAll_grasps now timeout) fun _ => ⟨_, rfl⟩

/-- A transaction begins while the version counter is not ahead of the log's. -/
def BeginsBehind (w : World) (_ : Call) (e : Act) : Prop :=
  e = .captureAndRegisterSnapshot → w.store.globalVersion ≤ w.store.lastWalSeq

/-- The log keeps the pace, and what each call in flight knows is so; no two calls begin one transaction. -/
structure Paced (w : World) (γ : Phases Act Call Grasp) : Prop where
  store : w.store.Paced
  known : ∀ i ph, γ i = some ph → ph.phase.Ok w
  fits : ∀ i ph t, γ i = some ph → ph.phase.draws = some t → ph.call.begins = some t
  begins : ∀ i j a b t, γ i = some a → γ j = some b → a.call.begins = some t → b.call.begins = some t → i = j

theorem Grasp.Move.draws {g : Grasp} {e : Act} {A : e.Res → Prop} {N : e.Res → Grasp} (hm : Grasp.Move g e A N) (r : e.Res)
    {t : String} (h : (N r).draws = some t) : g.draws = some t := by
  cases hm <;> first | exact h | cases h

theorem paced_invariant (env : Env) :
    Pool.Invariant (coordinator env) Grasp.Move Call.grasp (fun _ _ g => g.Free) BeginsBehind Paced where
  obeys c := Call.body_grasps env c
  spawn w γ i c live h hi hlive hadm := by
    obtain ⟨-, hfresh⟩ := Call.admits_iff.1 hadm
    have hother : ∀ {j : Nat} {ph : Phased Act Call Grasp} {t : String}, γ j = some ph → c.begins = some t →
        ph.call.begins ≠ some t :=
      fun hj ht => (hfresh _ ht).2.2 _ ((hlive _).2 ⟨_, _, hj, rfl⟩)
    refine ⟨h.store, ?_, ?_, ?_⟩
    · intro j ph hj
      rcases Pool.update_some_inv hj with ⟨-, rfl⟩ | ⟨-, hj⟩
      · cases hb : c.begins with
        | none => simp [Call.grasp, hb, Grasp.Ok]
        | some t =>
          obtain ⟨hrow, hlock, -⟩ := hfresh t hb
          simp [Call.grasp, hb, Grasp.Ok, Store.snapshotOf, hrow, hlock]
      · exact h.known j ph hj
    · intro j ph t hj hdraws
      rcases Pool.update_some_inv hj with ⟨-, rfl⟩ | ⟨-, hj⟩
      · cases hb : c.begins with
        | none => simp [Call.grasp, hb, Grasp.draws] at hdraws
        | some t' => simpa [Call.grasp, hb, Grasp.draws] using hdraws
      · exact h.fits j ph t hj hdraws
    · intro j k a b t hj hk ha hb
      rcases Pool.update_some_inv hj with ⟨rfl, rfl⟩ | ⟨-, hj'⟩ <;> rcases Pool.update_some_inv hk with ⟨rfl, rfl⟩ | ⟨-, hk'⟩
      · rfl
      · exact absurd hb (hother hk' ha)
      · exact absurd ha (hother hj' hb)
      · exact h.begins j k a b t hj' hk' ha hb
  act w γ i c d g e A N h hi hm hcond := by
    have hbegin : ∀ t, g = .drawing t → w.store.globalVersion ≤ w.store.lastWalSeq := by
      rintro t rfl
      cases hm
      exact hcond rfl
    obtain ⟨hA, hstore, hok, hspares⟩ := hm.effect h.store (h.known i _ hi) hbegin
    refine ⟨hA, hstore, ?_, ?_, ?_⟩
    · intro j ph hj
      rcases Pool.update_some_inv hj with ⟨-, rfl⟩ | ⟨hji, hj⟩
      · exact hok
      · refine (h.known j ph hj).spared hspares fun t ht hdraws => hji ?_
        exact h.begins j i ph _ t hj hi (h.fits j ph t hj ht) (h.fits i _ t hi hdraws)
    · intro j ph t hj hdraws
      rcases Pool.update_some_inv hj with ⟨-, rfl⟩ | ⟨-, hj⟩
      · exact h.fits i ⟨c, d, g⟩ t hi (hm.draws _ hdraws)
      · exact h.fits j ph t hj hdraws
    · intro j k a b t hj hk ha hb
      obtain ⟨a₀, hj₀, ha₀⟩ := Pool.update_some_call hi hj rfl
      obtain ⟨b₀, hk₀, hb₀⟩ := Pool.update_some_call hi hk rfl
      exact h.begins j k a₀ b₀ t hj₀ hk₀ (ha₀ ▸ ha) (hb₀ ▸ hb)
  finish w γ i ph r h hi _ :=
    ⟨h.store, fun j a hj => h.known j a (Pool.update_none_inv hj).2,
      fun j a t hj => h.fits j a t (Pool.update_none_inv hj).2,
      fun j k a b t hj hk => h.begins j k a b t (Pool.update_none_inv hj).2 (Pool.update_none_inv hk).2⟩

/-! ## The server with its flush loop -/

/-- The store that a server starts on: an empty one, or what a rebuild made of an empty one. -/
inductive Store.Cold (c : Codecs) : Store → Prop where
  | empty : Cold c {}
  | rebuilt {backend : Backend} {listed : Except String (List ListedObject)}
      {order : List (RecordKey × Rebuild.PerKey) → List (RecordKey × Rebuild.PerKey)} {report : Rebuild.Report} {s : Store}
      (h : (rebuild c backend listed order).run RebuildAct.exec {} = (.ok report, s)) : Cold c s

theorem RebuildAct.exec_log (a : RebuildAct) (s : Store) (h : s.txnState = ∅ ∧ s.wal = ∅) :
    (a.exec s).2.txnState = ∅ ∧ (a.exec s).2.wal = ∅ := by
  cases a <;> try exact h
  case putRecordVersionsBulk updates =>
    refine ⟨(foldl_keeps Store.txnState (fun s e => ?_) updates s).trans h.1, (foldl_keeps Store.wal (fun s e => ?_) updates s).trans h.2⟩ <;>
      rfl
  case appendChainEntriesBulk entries =>
    simp only [RebuildAct.exec, Store.appendChainEntriesBulk]
    split <;> exact h

theorem Store.Cold.log_empty {c : Codecs} {s : Store} (h : s.Cold c) : s.txnState = ∅ ∧ s.wal = ∅ := by
  cases h with
  | empty => exact ⟨rfl, rfl⟩
  | @rebuilt backend listed order report s hrun =>
    have hkeeps := run_keeps RebuildAct.exec (I := fun s => s.txnState = ∅ ∧ s.wal = ∅) RebuildAct.exec_log
      (rebuild c backend listed order) (s := {}) ⟨rfl, rfl⟩
    rwa [hrun] at hkeeps

theorem Store.Cold.paced {c : Codecs} {s : Store} (h : s.Cold c) : s.Paced := by
  obtain ⟨hrows, hwal⟩ := h.log_empty
  refine ⟨fun n r hn => ?_, fun t snap ht => ?_, fun seq r t hr => ?_⟩
  · simp [hwal] at hn
  · simp [Store.snapshotOf, hrows] at ht
  · simp [hwal] at hr

/-- The calls in flight keep to the protocol in some phases that fit the state, and so does the flush. -/
structure Daemon.Paced (d : Daemon) : Prop where
  calls : ∃ γ, Pool.Follows Grasp.Move (fun _ _ g => g.Free) d.pool γ ∧ Xtable.Paced d.pool.state γ
  flush : ∀ mt p, d.flushing = some (mt, p) → p.Only (FlushAct mt)

theorem World.restart_paced {w' : World} {now : Int} {order : List String} (h : w.store.Paced)
    (hrestart : w.restart now order = some w') : w'.store.Paced := by
  have hrun := (recover_grasps now fun _ => order).run (h := World.exec)
    (I := fun w g => w.store.Paced ∧ g.Ok w ∧ g.Free) (s := w.crash) ?_ ⟨h, trivial, _, rfl⟩
  · obtain ⟨g, -, hpaced, -⟩ := hrun
    unfold World.restart at hrestart
    split at hrestart
    · split at hrestart
      case h_1 w₁ heq =>
        rw [heq] at hpaced
        cases hrestart
        exact hpaced
      case h_2 => cases hrestart
    · cases hrestart
  · rintro w g e A N ⟨hw, hok, o, rfl⟩ hm
    obtain ⟨hA, hw', hok', -⟩ := hm.effect hw hok nofun
    refine ⟨hA, hw', hok', ?_⟩
    cases hm <;> exact ⟨_, rfl⟩

theorem FlushAct.spares {mt : MemTable} (h : FlushAct mt a) (w : World) : w.Spares none (w.exec a).2 := by
  cases h with
  | plain ha => exact ha.spares w
  | log hid => exact w.spares_appendWal _
  | cut => exact .of_eq (fun _ => rfl) le_rfl fun _ _ h => h

theorem FlushAct.paced {mt : MemTable} (h : FlushAct mt a) (hw : w.store.Paced) : (w.exec a).2.store.Paced := by
  cases h with
  | plain ha => exact ha.paced hw
  | log hid =>
    refine hw.appendWal fun t ht => ?_
    rw [hid] at ht
    cases ht
  | cut => exact hw.truncateWal _

theorem Paced.spared {w' : World} {γ : Phases Act Call Grasp} (h : Paced w γ) (hstore : w'.store.Paced)
    (hspares : w.Spares none w') : Paced w' γ :=
  ⟨hstore, fun i ph hi => (h.known i ph hi).spared hspares nofun, h.fits, h.begins⟩

namespace Daemon

variable {d d' : Daemon} {env : Env} {c : Codecs}

theorem Paced.setState (h : d.Paced) (hstore : w.store.Paced) (hspares : d.pool.state.Spares none w)
    {flushing : Option (MemTable × Server Unit)} {taken : List MemTable}
    (hflush : ∀ mt p, flushing = some (mt, p) → p.Only (FlushAct mt)) :
    Daemon.Paced ⟨{ d.pool with state := w }, taken, flushing⟩ := by
  obtain ⟨γ, hfollows, hpaced⟩ := h.calls
  exact ⟨⟨γ, hfollows, hpaced.spared hstore hspares⟩, hflush⟩

theorem Paced.setMems {m : MemTableSet} (h : d.Paced) {flushing : Option (MemTable × Server Unit)} {taken : List MemTable}
    (hflush : ∀ mt p, flushing = some (mt, p) → p.Only (FlushAct mt)) :
    Daemon.Paced ⟨{ d.pool with state := { d.pool.state with mems := m } }, taken, flushing⟩ := by
  obtain ⟨γ, hfollows, hpaced⟩ := h.calls
  have hspares : d.pool.state.Spares none { d.pool.state with mems := m } :=
    .of_eq (fun _ => rfl) le_rfl fun _ _ h => h
  exact h.setState (w := { d.pool.state with mems := m }) hpaced.store hspares hflush

theorem Paced.fault {mt : MemTable} {k : a.Res → Server Unit} (h : d.Paced)
    (hflushing : d.flushing = some (mt, .act a k)) (hfault : d.fault mt a = some d') : d'.Paced := by
  unfold Daemon.fault at hfault
  split at hfault
  case h_5 =>
    cases hfault
    refine ⟨h.calls, fun mt' p hp => ?_⟩
    cases hp
    trivial
  case h_6 => cases hfault
  all_goals
    cases hfault
    exact h.setMems (by simp)

end Daemon

/-- A transaction begins while the version counter is not ahead of the log's, and the log is cut only when every open
transaction has begun after the memtable's newest commit. -/
def DaemonEvent.Timely (d : Daemon) : DaemonEvent → Prop
  | .run (.act i) => ∀ call, d.pool.pendingAct i = some (call, .captureAndRegisterSnapshot) →
      d.pool.state.store.globalVersion ≤ d.pool.state.store.lastWalSeq
  | .flushAct => d.truncating.isSome → ∀ mt p, d.flushing = some (mt, p) → ∀ (t : String) (row : TxnStateRecord),
      d.pool.state.store.txnState[t]? = some row → row.status = .active ∨ row.status = .committing →
      mt.latestSeq ≤ row.snapshotVersion
  | _ => True

namespace Daemon

variable {d d' : Daemon} {env : Env} {c : Codecs} {ev : DaemonEvent}

theorem paced_idle (h : w.store.Paced) : Daemon.Paced { pool := Pool.idle w } := by
  have hidle : Xtable.Paced w fun _ => none := ⟨h, by simp, by simp, by simp⟩
  have hfollows : Pool.Follows Grasp.Move (fun _ _ g => g.Free) (Pool.idle w : CallPool) fun _ => none :=
    fun i => .inl ⟨by simp [Pool.idle], rfl⟩
  exact ⟨⟨_, hfollows, hidle⟩, by simp⟩

theorem Paced.step (h : d.Paced) (hstep : Daemon.step env c ev d = some d') (htimely : ev.Timely d) : d'.Paced := by
  cases ev with
  | run ev =>
    obtain ⟨p, hp, rfl⟩ := Option.map_eq_some_iff.1 hstep
    obtain ⟨γ, hfollows, hpaced⟩ := h.calls
    refine ⟨(paced_invariant env).step hp hfollows hpaced fun i call e hev hpend he => ?_, h.flush⟩
    subst hev he
    exact htimely call hpend
  | rotate =>
    cases hstep
    exact h.setMems h.flush
  | takeImmutables =>
    simp only [Daemon.step] at hstep
    split at hstep
    · cases hstep
      exact h.setMems h.flush
    · cases hstep
  | flushOne chunkId nowMs entries =>
    simp only [Daemon.step] at hstep
    split at hstep
    case h_1 mt rest _ _ =>
      split at hstep
      · cases hstep
        refine ⟨h.calls, fun mt' p hp => ?_⟩
        cases hp
        exact flushOne_only c chunkId nowMs entries mt
      · cases hstep
    case h_2 => cases hstep
  | flushAct =>
    simp only [Daemon.step] at hstep
    split at hstep
    case h_1 mt a k hflushing =>
      cases hstep
      obtain ⟨ha, hk⟩ := h.flush _ _ hflushing
      obtain ⟨γ, hfollows, hpaced⟩ := h.calls
      refine h.setState (ha.paced hpaced.store) (ha.spares _) fun mt' p hp => ?_
      cases hp
      exact hk _
    case h_2 => cases hstep
  | flushFault =>
    simp only [Daemon.step] at hstep
    split at hstep
    case h_1 mt a k hflushing => exact h.fault hflushing hstep
    case h_2 => cases hstep
  | flushEnd =>
    simp only [Daemon.step] at hstep
    split at hstep
    case h_1 =>
      cases hstep
      exact ⟨h.calls, by simp⟩
    case h_2 =>
      cases hstep
      exact h.setMems (by simp)
    case h_3 => cases hstep
  | restart nowMs order =>
    obtain ⟨p, hp, rfl⟩ := Option.map_eq_some_iff.1 hstep
    obtain ⟨w, hw, rfl⟩ := Option.map_eq_some_iff.1 hp
    obtain ⟨γ, -, hpaced⟩ := h.calls
    exact paced_idle (World.restart_paced hpaced.store hw)

theorem Paced.wal_kept (h : d.Paced) (hstep : Daemon.step env c .flushAct d = some d') {seq : Nat} {r : WalRecord}
    (hr : d.pool.state.store.wal[seq]? = some r)
    (hcut : d.truncating.isSome → ∀ mt p, d.flushing = some (mt, p) → mt.latestSeq < seq) :
    d'.pool.state.store.wal[seq]? = some r := by
  simp only [Daemon.step] at hstep
  split at hstep
  case h_1 mt a k hflushing =>
    cases hstep
    obtain ⟨ha, -⟩ := h.flush _ _ hflushing
    obtain ⟨γ, -, hpaced⟩ := h.calls
    cases ha with
    | plain ha =>
      obtain ⟨-, hwal, -⟩ := ha.store d.pool.state
      exact (congrArg (·[seq]?) hwal).trans hr
    | @log r' hid =>
      have hne : d.pool.state.store.lastWalSeq + 1 ≠ seq := by
        have := hpaced.store.bound seq r hr
        omega
      simpa [Daemon.setState, World.exec, World.onStore, Store.appendWal, hne] using hr
    | cut =>
      have hlt := hcut (by simp [truncating, hflushing]) mt _ hflushing
      exact (Store.get_truncateWal mt.latestSeq seq).trans ((if_pos hlt).trans hr)
  case h_2 => cases hstep

end Daemon

/-- If transactions begin with the version counter not ahead of the log's, and the log is cut only when every open
transaction has begun after the newest commit of the memtable, no flush removes a record of an open transaction. -/
theorem truncation_spares_open (env : Env) (c : Codecs) {s : Store} (hcold : s.Cold c) (bucket : Table String Bytes)
    {hist : List (Daemon × DaemonEvent × Daemon)} {d : Daemon}
    (hrun : Run (Daemon.step env c) { pool := Pool.idle { store := s, bucket := bucket } } hist d)
    (htimely : ∀ x ∈ hist, x.2.1.Timely x.1) : ∀ x ∈ hist, x.2.1 = .flushAct →
    ∀ (seq : Nat) r t row, x.1.pool.state.store.wal[seq]? = some r → r.txnId = some t →
      x.1.pool.state.store.txnState[t]? = some row → row.status = .active ∨ row.status = .committing →
      x.2.2.pool.state.store.wal[seq]? = some r := by
  obtain ⟨-, hinv⟩ := hrun.invariant (I := Daemon.Paced) (C := fun d ev => ev.Timely d) (Daemon.paced_idle hcold.paced)
    (fun _ _ _ h ht hstep => h.step hstep ht) htimely
  rintro ⟨u, ev, v⟩ hx hev seq r t row hr hid hrow hopen
  subst hev
  obtain ⟨hu, -⟩ := hinv _ hx
  refine hu.wal_kept (hrun.step_of_mem _ hx) hr fun hcut mt p hflushing => ?_
  obtain ⟨γ, -, hpaced⟩ := hu.calls
  obtain ⟨snap, hsnap, hlt⟩ := hpaced.store.wal seq r t hr hid
  have heq : row.snapshotVersion = snap := by simpa [Store.snapshotOf, hrow] using hsnap
  have hle := htimely _ hx hcut mt p hflushing t row hrow hopen
  omega

/-! ### A cut under an open transaction -/

def commitAndTake : List DaemonEvent :=
  (Call.alone 1 (.begin "U" none 0) 4 ++ Call.alone 1 (.stage "U" "k" [] none [] false) 5 ++
    Call.alone 1 (.commit "U" fun _ => false) 19).map .run ++ [.rotate, .takeImmutables]

def flushToCut : List DaemonEvent :=
  .flushOne "c" 0 [Coordinator.memEntry "U" 1 ∅ "k" (Coordinator.writeEntry "k" [] none none [] false)] ::
    List.replicate 5 .flushAct

def beginT : List DaemonEvent := (Call.alone 0 (.begin "T" none 0) 4).map .run

def DaemonEvent.timely (d : Daemon) : DaemonEvent → Bool
  | .run (.act i) =>
    match d.pool.pendingAct i with
    | some (_, .captureAndRegisterSnapshot) => d.pool.state.store.globalVersion ≤ d.pool.state.store.lastWalSeq
    | _ => true
  | .flushAct =>
    match d.flushing with
    | some (mt, _) => d.pool.state.store.txnState.toList.all fun x => x.2.status.Terminal ∨ mt.latestSeq ≤ x.2.snapshotVersion
    | none => true
  | _ => true

theorem DaemonEvent.timely_of_test {d : Daemon} {ev : DaemonEvent} (h : ev.timely d = true) : ev.Timely d := by
  cases ev with
  | run ev =>
    cases ev with
    | act i =>
      intro call hpend
      simpa [DaemonEvent.timely, hpend] using h
    | spawn i c | finish i => trivial
  | flushAct =>
    intro _ mt p hflushing t row hrow hopen
    simp only [DaemonEvent.timely, hflushing, List.all_eq_true, decide_eq_true_eq] at h
    rcases h (t, row) (Table.mem_toList.2 hrow) with hterm | hle
    · rcases hopen with hst | hst <;> rcases hterm with hst' | hst' <;> rw [hst] at hst' <;> cases hst'
    · exact hle
  | _ => trivial

/-- `T` begins after the commit of `U`: the flush leaves its `Begin` in the log. -/
theorem truncation_spares_open_later : ∃ hist u v,
    Run (Daemon.step .sample .stored) {} (hist ++ [(u, .flushAct, v)]) v ∧ u.truncating = some 1 ∧
    (u.pool.state.store.txnState["T"]?).map (·.status) = some .active ∧
    v.pool.state.store.wal[1]? = none ∧ v.pool.state.store.wal[6]? = some (.begin "T" 1 none) := by
  obtain ⟨u, v, hguarded, htest⟩ := Run.exists_step_of_exec
    (guarded (fun d ev => DaemonEvent.timely d ev) (Daemon.step .sample .stored)) {}
    (commitAndTake ++ beginT ++ flushToCut) .flushAct
    (fun u v => u.truncating = some 1 ∧ (u.pool.state.store.txnState["T"]?).map (·.status) = some .active ∧
      v.pool.state.store.wal[1]? = none ∧ u.pool.state.store.wal[6]? = some (.begin "T" 1 none)) (by decide +kernel)
  obtain ⟨hrun, hguard⟩ := hguarded.of_guarded
  generalize history _ _ _ = hist at hrun hguard
  simp only [decide_eq_true_eq] at htest
  obtain ⟨hcut, hactive, hgone, hbegin⟩ := htest
  obtain ⟨row, hrow, hst⟩ := Option.map_eq_some_iff.1 hactive
  refine ⟨hist, u, v, hrun, hcut, hactive, hgone, ?_⟩
  exact truncation_spares_open .sample .stored .empty ∅ hrun
    (fun x hx => DaemonEvent.timely_of_test (hguard x hx)) (u, .flushAct, v) (by simp) rfl 6 _ "T" row hbegin rfl hrow (.inl hst)

/-- `T` begins before `U`, and is `Active` when the flush of `U`'s commit cuts its `Begin` out of the log. -/
theorem truncation_drops_active : ∃ hist u v,
    Run (Daemon.step .sample .stored) {} (hist ++ [(u, .flushAct, v)]) v ∧
    u.pool.state.store.wal[1]? = some (.begin "T" 0 none) ∧ v.pool.state.store.wal[1]? = none ∧
    (v.pool.state.store.txnState["T"]?).map (·.status) = some .active := by
  obtain ⟨u, v, hrun, htest⟩ := Run.exists_step_of_exec (Daemon.step .sample .stored) {}
    (beginT ++ commitAndTake ++ flushToCut) .flushAct
    (fun u v => u.pool.state.store.wal[1]? = some (.begin "T" 0 none) ∧ v.pool.state.store.wal[1]? = none ∧
      (v.pool.state.store.txnState["T"]?).map (·.status) = some .active) (by decide +kernel)
  exact ⟨_, u, v, hrun, by simpa using htest⟩

end Xtable

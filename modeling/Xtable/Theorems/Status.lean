import Xtable.Theorems.Interleaving

/-! How the stored row of a transaction moves, over all interleavings. The moves are the legal ones exactly as long
    as `stage`, `read` and `heartbeat`, which write the whole row back, find it still `Active`. -/

namespace Xtable

inductive StatusMove : TxnStatus → TxnStatus → Prop where
  | claim : StatusMove .active .committing
  | commit : StatusMove .committing .committed
  | giveUp : StatusMove .committing .aborted
  | abort : StatusMove .active .aborted

theorem StatusMove.ne_active {a b : TxnStatus} (h : StatusMove a b) : b ≠ .active := by
  cases h <;> nofun

/-- How one store transaction may change the row of a transaction. -/
inductive RowMove : Option TxnStateRecord → Option TxnStateRecord → Prop where
  | absent : RowMove none none
  | begun {r : TxnStateRecord} (hst : r.status = .active) : RowMove none (some r)
  | moved {r r' : TxnStateRecord} (hst : r'.status = r.status ∨ StatusMove r.status r'.status)
      (hterm : r.status.Terminal → r'.allocVersions = r.allocVersions) : RowMove (some r) (some r')

theorem RowMove.refl : (r : Option TxnStateRecord) → RowMove r r
  | none => .absent
  | some _ => .moved (.inl rfl) fun _ => rfl

theorem RowMove.setRow {L : Ledger} {t : String} {r : TxnStateRecord} (h : RowMove (L.row t) (some r))
    (t' : String) : RowMove (L.row t') ((L.setRow t r).row t') := by
  by_cases ht : t' = t
  · subst ht
    simpa using h
  · simpa [ht] using .refl (L.row t')

/-- Actions that store no row. -/
def Act.KeepsRows : Act → Prop
  | putTxnState _ _ | deleteTxnState _ | compareAndSetTxnStatus _ _ _ => False
  | _ => True

theorem Act.KeepsRows.row_eq {a : Act} (h : a.KeepsRows) (w : World) :
    (w.exec a).2.store.ledger.row = w.store.ledger.row := by
  cases a <;> try first | exact h.elim | rfl
  case unregisterSnapshot snap =>
    simp only [World.exec, World.setStore, Store.unregisterSnapshot]
    split <;> rfl
  case appendChainEntriesBulk entries =>
    simp only [World.exec, World.onStore, Store.appendChainEntriesBulk]
    split <;> rfl

theorem World.exec_version_le (w : World) (a : Act) :
    w.store.ledger.version ≤ (w.exec a).2.store.ledger.version := by
  cases a <;> try exact le_rfl
  case nextGlobalVersion => exact Nat.le_succ _
  case unregisterSnapshot snap =>
    simp only [exec, setStore, Store.unregisterSnapshot]
    split <;> exact le_rfl
  case compareAndSetTxnStatus t old new =>
    rcases w.exec_compareAndSet t _ _ with ⟨r, -, -, heq⟩ | ⟨-, heq⟩ <;> rw [heq]
    exact le_rfl
  case appendChainEntriesBulk entries =>
    simp only [exec, onStore, Store.appendChainEntriesBulk]
    split <;> exact le_rfl

/-- A `begin` whose row is stored and whose log record is not. -/
def Phase.announces : Phase → Option String
  | begun t _ | registered t _ => some t
  | _ => none

namespace Inv

open Ledger
open Pool (Phases)

variable {gc : Prop} {w : World} {γ : Phases Act Call Phase} {i : Nat} {c : Call} {d : List Act} {g : Phase} {t : String}

theorem rowMove_compareAndSet {next : TxnStatus} (hmove : StatusMove .active next) (t' : String) :
    RowMove (w.store.ledger.row t') ((w.exec (.compareAndSetTxnStatus t .active next)).2.store.ledger.row t') := by
  rcases w.exec_compareAndSet t _ _ with ⟨r, hr, hst, heq⟩ | ⟨-, heq⟩ <;> rw [heq]
  · rw [Store.ledger_putTxnState]
    refine RowMove.setRow ?_ t'
    change RowMove (w.store.txnState[t]?) _
    rw [hr]
    exact .moved (.inr (hst ▸ hmove)) fun hterm => rfl
  · exact .refl _

theorem rowMove_writeBack {r txn : TxnStateRecord} (hback : c.writesBack = true)
    (hread : w.store.ledger.ReadActive t txn) (hst : r.status = txn.status) :
    (∀ t', RowMove (w.store.ledger.row t') ((w.exec (.putTxnState t r)).2.store.ledger.row t')) ↔
      WriteBackActive w c (.putTxnState t r) := by
  have hL : (w.exec (.putTxnState t r)).2.store.ledger = w.store.ledger.setRow t r :=
    Store.ledger_putTxnState w.store t r
  rw [hL]
  obtain ⟨r₀, hr₀, -⟩ := hread.at'
  have hactive : r.status = .active := hst.trans hread.status
  constructor
  · rintro hmove - _ _ heq
    obtain ⟨rfl, rfl⟩ := Act.putTxnState.inj heq
    refine ⟨r₀, hr₀, ?_⟩
    have := hmove t
    rw [setRow_row_self, hr₀] at this
    cases this with
    | moved hst₀ _ =>
      rw [hactive] at hst₀
      rcases hst₀ with heq | hmoved
      · exact heq.symm
      · exact absurd rfl hmoved.ne_active
  · intro hcond
    obtain ⟨r₁, hr₁, hst₁⟩ := hcond hback t r rfl
    cases hr₀.symm.trans hr₁
    refine RowMove.setRow ?_
    rw [hr₀]
    exact .moved (.inl (hactive.trans hst₁.symm)) (by simp [hst₁, TxnStatus.Terminal])

theorem rowMove_iff {e : Act} {A : e.Res → Prop} {N : e.Res → Phase} (h : Inv gc w γ)
    (hi : γ i = some ⟨c, d, g⟩) (hm : Move g e A N) :
    (∀ t, RowMove (w.store.ledger.row t) ((w.exec e).2.store.ledger.row t)) ↔ WriteBackActive w c e := by
  have hok := h.phases i _ hi
  have hfits := h.fits i _ hi
  -- actions that store no row are legal moves and not write-backs
  have hkeeps : e.KeepsRows →
      ((∀ t, RowMove (w.store.ledger.row t) ((w.exec e).2.store.ledger.row t)) ↔ WriteBackActive w c e) := by
    intro hk
    rw [hk.row_eq]
    refine iff_of_true (fun t => .refl _) ?_
    rintro - t r rfl
    exact hk.elim
  -- nor is storing a row a write-back when the call does not write back
  have hstore : ∀ {t r}, c.writesBack = false → RowMove (w.store.ledger.row t) (some r) →
      ((∀ t', RowMove (w.store.ledger.row t') ((w.store.putTxnState t r).ledger.row t')) ↔
        WriteBackActive w c (.putTxnState t r)) := by
    intro t r hback hmove
    rw [Store.ledger_putTxnState]
    exact iff_of_true (RowMove.setRow hmove) (by simp [WriteBackActive, hback])
  have hcommit : ∀ {t aged}, c = .commit t aged → c.writesBack = false := by
    rintro t aged rfl
    rfl
  cases hm <;> try exact hkeeps trivial
  case putRow t row =>
    obtain ⟨hnone, -, idem, now, hnew⟩ := hok
    refine hstore ?_ ?_
    · cases c <;> first | rfl | cases hfits
    · rw [hnone, hnew]
      exact .begun rfl
  case stageNote t key txn hkey | readNote t key txn hkey | beatNote t txn now => exact rowMove_writeBack hfits hok rfl
  case commitClaim t => exact iff_of_true (rowMove_compareAndSet .claim) nofun
  case abortClaim t row | sweepClaim b t row => exact iff_of_true (rowMove_compareAndSet .abort) nofun
  case publish t snap ha | tidyReleased t ha | tidyAborting t snap sweep ha => exact hkeeps (by cases ha <;> trivial)
  case storeAborted t row =>
    obtain ⟨aged, hc⟩ := hfits
    obtain ⟨hrow, hst, -⟩ := hok
    refine hstore (hcommit hc) ?_
    rw [hrow]
    exact .moved (.inr (by rw [hst]; exact .giveUp)) (by simp [hst, TxnStatus.Terminal])
  case storeAlloc t row v =>
    obtain ⟨aged, hc⟩ := hfits
    obtain ⟨hl, -⟩ := hok
    refine hstore (hcommit hc) ?_
    rw [hl.row_eq]
    exact .moved (.inl rfl) (by simp [hl.status, TxnStatus.Terminal])
  case storeCommitted t row v =>
    obtain ⟨aged, hc⟩ := hfits
    obtain ⟨hrow, hst, -⟩ := hok
    refine hstore (hcommit hc) ?_
    rw [hrow]
    exact .moved (.inr (by rw [hst]; exact .commit)) (by simp [hst, TxnStatus.Terminal])

theorem row_none_after {e : Act} {A : e.Res → Prop} {N : e.Res → Phase} (h : Inv gc w γ)
    (hi : γ i = some ⟨c, d, g⟩) (hm : Move g e A N) (hnone : w.store.ledger.row t = none) :
    (w.exec e).2.store.ledger.row t = none ∨ (N (w.exec e).1).announces = some t := by
  have hok := h.phases i _ hi
  have hkeeps : e.KeepsRows → (w.exec e).2.store.ledger.row t = none ∨ (N (w.exec e).1).announces = some t :=
    fun hk => .inl (by rw [hk.row_eq, hnone])
  -- storing a row over an existing one
  have hstore : ∀ {t' r}, w.store.ledger.row t' ≠ none → (w.store.putTxnState t' r).ledger.row t = none := by
    intro t' r hne
    rw [Store.ledger_putTxnState, setRow_row_ne, hnone]
    rintro rfl
    exact hne hnone
  have hclaim : ∀ {t' next}, (w.exec (.compareAndSetTxnStatus t' .active next)).2.store.ledger.row t = none := by
    intro t' next
    rcases w.exec_compareAndSet t' _ _ with ⟨r, hr, -, heq⟩ | ⟨-, heq⟩ <;> rw [heq]
    · exact hstore (Option.ne_none_iff_exists'.2 ⟨r, hr⟩)
    · exact hnone
  cases hm <;> try exact hkeeps trivial
  case publish ha | tidyReleased ha | tidyAborting ha => exact hkeeps (by cases ha <;> trivial)
  case commitClaim | abortClaim | sweepClaim => exact .inl hclaim
  case stageNote | readNote | beatNote =>
    obtain ⟨r₀, hr₀, -⟩ := hok.at'
    exact .inl (hstore (Option.ne_none_iff_exists'.2 ⟨r₀, hr₀⟩))
  case storeAborted | storeAlloc | storeCommitted => exact .inl (hstore (hok.row_of_owns rfl))
  case putRow t' r =>
    by_cases ht : t = t'
    · subst ht
      exact .inr rfl
    · refine .inl ?_
      change (w.store.putTxnState t' r).ledger.row t = none
      rw [Store.ledger_putTxnState, setRow_row_ne ht, hnone]

theorem rely {e : Act} {A : e.Res → Prop} {N : e.Res → Phase} (h : Inv gc w γ) (hi : γ i = some ⟨c, d, g⟩)
    (hm : Move g e A N) (hcond : Steady gc w c e) : Rely w.store.ledger (w.exec e).2.store.ledger := by
  have hok := h.phases i _ hi
  have hfits := h.fits i _ hi
  have hkeeps : e.KeepsRows → Rely w.store.ledger (w.exec e).2.store.ledger := by
    refine fun hk => ⟨World.exec_version_le w e, fun t r hr => ⟨r, ?_, rfl, fun _ => rfl⟩⟩
    rw [hk.row_eq, hr]
  have hclaim : ∀ {t next}, Rely w.store.ledger (w.exec (.compareAndSetTxnStatus t .active next)).2.store.ledger := by
    intro t next
    rcases w.exec_compareAndSet t _ _ with ⟨r, hr, hst, heq⟩ | ⟨-, heq⟩ <;> rw [heq]
    · rw [Store.ledger_putTxnState]
      exact .setRow hr (by simp [hst, TxnStatus.Terminal]) rfl
    · exact .refl _
  -- a row written back, as it was read
  have hback : ∀ {t txn r}, c.writesBack = true → w.store.ledger.ReadActive t txn →
      r.snapshotVersion = txn.snapshotVersion → WriteBackActive w c (.putTxnState t r) →
      Rely w.store.ledger (w.store.putTxnState t r).ledger := by
    intro t txn r hb hread hsnap hactive
    obtain ⟨row, hrow, hst⟩ := hactive hb t r rfl
    obtain ⟨r₀, hr₀, hsnap₀⟩ := hread.at'
    cases hrow.symm.trans hr₀
    rw [Store.ledger_putTxnState]
    exact .setRow hrow (by simp [hst, TxnStatus.Terminal]) (hsnap.trans hsnap₀.symm)
  have howner : ∀ {t row r}, w.store.ledger.row t = some row → row.status = .committing →
      r.snapshotVersion = row.snapshotVersion → Rely w.store.ledger (w.store.putTxnState t r).ledger := by
    intro t row r hrow hst hsnap
    rw [Store.ledger_putTxnState]
    exact .setRow hrow (by simp [hst, TxnStatus.Terminal]) hsnap
  cases hm <;> try exact hkeeps trivial
  case publish ha | tidyReleased ha | tidyAborting ha => exact hkeeps (by cases ha <;> trivial)
  case commitClaim | abortClaim | sweepClaim => exact hclaim
  case stageNote | readNote | beatNote => exact hback hfits hok rfl hcond.1
  case storeAborted => exact howner hok.1 hok.2.1 rfl
  case storeAlloc => exact howner hok.1.row_eq hok.1.status rfl
  case storeCommitted => exact howner hok.1 hok.2.1 rfl
  case putRow t row =>
    refine ⟨le_rfl, fun t' r hr => ⟨r, ?_, rfl, fun _ => rfl⟩⟩
    have hne : t' ≠ t := by
      rintro rfl
      rw [hok.1] at hr
      cases hr
    change (w.store.putTxnState t row).ledger.row t' = some r
    rw [Store.ledger_putTxnState, setRow_row_ne hne, hr]

end Inv

/-! ## Runs -/

/-- The calls in flight are in phases that fit the life-cycle invariant. -/
def CallPool.Lawful (gc : Prop) (p : CallPool) : Prop :=
  ∃ γ, Pool.Follows Move (fun _ _ g => g.Quiet) p γ ∧ Inv gc p.state γ

/-- The next action of the event's call, if it writes a row back, finds the row `Active`. -/
def CallPool.WriteBacksActive (p : CallPool) : Pool.Event Call → Prop
  | .act i => ∀ c e, p.pendingAct i = some (c, e) → WriteBackActive p.state c e
  | _ => True

/-- The row that an action overwrites as a whole. -/
def Act.putsRow : Act → Option String
  | putTxnState t _ => some t
  | _ => none

theorem writeBackActive_iff {w : World} {c : Call} {e : Act} : WriteBackActive w c e ↔
    (c.writesBack = true → ∀ t ∈ e.putsRow, (w.store.txnState[t]?).any (·.status = .active) = true) := by
  cases e <;> simp [WriteBackActive, Act.putsRow, Option.any_eq_true]

instance {w : World} {c : Call} {e : Act} : Decidable (WriteBackActive w c e) :=
  decidable_of_iff' _ writeBackActive_iff

instance (p : CallPool) : DecidablePred p.WriteBacksActive
  | .spawn _ _ | .finish _ => .isTrue trivial
  | .act i =>
    match hp : p.pendingAct i with
    | none => .isTrue (by simp [CallPool.WriteBacksActive, hp])
    | some (c, e) => decidable_of_iff (WriteBackActive p.state c e) (by simp [CallPool.WriteBacksActive, hp])

theorem CallPool.lawful_idle (gc : Prop) : CallPool.Lawful gc (Pool.idle {}) :=
  ⟨fun _ => none, fun i => .inl ⟨by simp [Pool.idle], rfl⟩, World.inv_empty gc⟩

theorem Inv.rowMove_event_iff {gc : Prop} {env : Env} {u v : CallPool} {ev : Pool.Event Call}
    {γ : Pool.Phases Act Call Phase} (hinv : Inv gc u.state γ)
    (hf : Pool.Follows Move (fun _ _ g => g.Quiet) u γ) (hstep : CallPool.Step env ev u = some v) :
    (∀ t, RowMove (u.state.store.getTxnState t) (v.state.store.getTxnState t)) ↔ u.WriteBacksActive ev := by
  cases ev with
  | spawn i c =>
    obtain ⟨-, -, rfl⟩ := Pool.step_spawn_inv hstep
    exact iff_of_true (fun t => .refl _) trivial
  | finish i =>
    obtain ⟨th, -, -, rfl⟩ := Pool.step_finish_inv hstep
    exact iff_of_true (fun t => .refl _) trivial
  | act i =>
    obtain ⟨c, d, e, k, hth, rfl⟩ := Pool.step_act_inv hstep
    obtain ⟨g, hγ, A, N, hm, -⟩ := hf.thread hth
    simp only [CallPool.WriteBacksActive, Pool.pendingAct, hth, Option.some.injEq, Prod.mk.injEq]
    refine (hinv.rowMove_iff hγ hm).trans ⟨?_, fun hcond => hcond c e ⟨rfl, rfl⟩⟩
    rintro hcond c' e' ⟨rfl, rfl⟩
    exact hcond

/-- The rows move legally all along a run exactly when every write-back of the run finds its row
`Active`. -/
theorem rowMoves_iff_writeBacksActive (env : Env) {hist : List (CallPool × Pool.Event Call × CallPool)}
    {p : CallPool} (hrun : Run (CallPool.Step env) (Pool.idle {}) hist p) :
    (∀ x ∈ hist, ∀ t, RowMove (x.1.state.store.getTxnState t) (x.2.2.state.store.getTxnState t)) ↔
      ∀ x ∈ hist, x.1.WriteBacksActive x.2.1 := by
  refine hrun.forall_iff
    (P := fun u _ v => ∀ t, RowMove (u.state.store.getTxnState t) (v.state.store.getTxnState t))
    (Q := fun u ev _ => u.WriteBacksActive ev) (CallPool.lawful_idle True) ?_
  rintro u ev v ⟨γ, hf, hinv⟩ hstep
  refine ⟨hinv.rowMove_event_iff hf hstep, fun hcond => ?_⟩
  refine (inv_invariant True env).step hstep hf hinv ?_
  rintro i c e rfl hpend
  exact ⟨hcond c e hpend, fun _ => trivial⟩

/-- The rows move legally while a heartbeat runs against a stage of the same transaction. -/
theorem rowMoves_heartbeat_stage : ∃ hist p, Run (CallPool.Step .sample) (Pool.idle {}) hist p ∧
    p.state.store.getTxnState "T" ≠ none ∧
    ((∀ x ∈ hist, ∀ t, RowMove (x.1.state.store.getTxnState t) (x.2.2.state.store.getTxnState t)) ↔
      ∀ x ∈ hist, x.1.WriteBacksActive x.2.1) := by
  obtain ⟨p, hrun, hrow⟩ := Run.exists_of_exec (CallPool.Step .sample) (Pool.idle {})
    ((Call.begin "T" none 0).alone 0 4 ++ [.spawn 1 (.heartbeat "T" 5), .act 1] ++
      (Call.stage "T" "k" [1] none [] false).alone 2 5 ++ [.act 1, .finish 1])
    (fun p => decide (p.state.store.getTxnState "T" ≠ none)) (by decide +kernel)
  exact ⟨_, p, hrun, of_decide_eq_true hrow, rowMoves_iff_writeBacksActive .sample hrun⟩

/-- The status of a transaction and the versions it holds. -/
def CallPool.standing (p : CallPool) (t : String) : Option (TxnStatus × List (String × Nat)) :=
  (p.state.store.getTxnState t).map fun r => (r.status, r.allocVersions)

/-- A heartbeat that has read the row before a commit writes it back afterwards: the committed
transaction is `Active` again, and the versions it was committed at are gone. -/
theorem heartbeat_reopens_committed : ∃ hist u v, Run (CallPool.Step .sample) (Pool.idle {})
      (hist ++ [(u, .act 2, v)]) v ∧
    u.standing "T" = some (.committed, [("k", 1)]) ∧ v.standing "T" = some (.active, []) := by
  obtain ⟨u, v, hrun, hmove⟩ := Run.exists_step_of_exec (CallPool.Step .sample) (Pool.idle {})
    ((Call.begin "T" none 0).alone 0 4 ++ (Call.stage "T" "k" [1] none [] false).alone 1 5 ++
      [.spawn 2 (.heartbeat "T" 5), .act 2] ++ (Call.commit "T" fun _ => false).alone 3 19) (.act 2)
    (fun u v => u.standing "T" = some (.committed, [("k", 1)]) && v.standing "T" = some (.active, []))
    (by decide +kernel)
  exact ⟨_, u, v, hrun, by simpa using hmove⟩

end Xtable

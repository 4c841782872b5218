import Xtable.Theorems.Status
import Xtable.Theorems.Restart

/-! Concurrent calls with crashes between any two actions. A transaction stays unresolved exactly where row and log
    disagree for good: a `begin` cut between its row and its log record, or a commit cut between its last log record
    and its last row. -/

namespace Xtable

open Pool (Phases Phased)

variable {row : TxnStateRecord} {t : String} {e : Act}

/-! ## What the moves do to rows and log -/

theorem Move.owns_eq {g : Phase} {A : e.Res → Prop} {N : e.Res → Phase} (hm : Move g e A N) (hk : e.KeepsRows)
    {r : e.Res} (hr : A r) : (N r).owns = g.owns := by
  have hactive : ∀ {k : TxnStateRecord → Phase} {other : Phase} {r : Option TxnStateRecord},
      (∀ row, (k row).owns = none) → other.owns = none → (Phase.onActive k other r).owns = none := by
    intro k other r hk ho
    cases r with
    | none => exact ho
    | some row =>
      simp only [Phase.onActive]
      split
      · exact hk row
      · exact ho
  cases hm <;> try first | rfl | exact hk.elim
  case stageRequire | readRequire | beatRequire | commitLook | abortLook | sweepLook =>
    exact hactive (fun _ => rfl) rfl
  case load t =>
    cases r with
    | none => cases hr
    | some row => rfl
  case check =>
    simp only
    split <;> rfl
  case release t snap sweep => cases sweep <;> rfl

theorem Move.keeps_log {g : Phase} {A : e.Res → Prop} {N : e.Res → Phase} (hm : Move g e A N) (n : Nat) :
    e ≠ .truncateWal n := by
  rintro rfl
  cases hm
  case publish ha | tidyReleased ha | tidyAborting ha => cases ha

theorem Ledger.log_last_none {L : Ledger} {rec : WalRecord} (h : (L.log rec).last t = none) :
    L.last t = none ∧ rec.txnId ≠ some t := by
  by_cases hid : rec.txnId = some t
  · cases rec <;> simp_all [WalRecord.txnId, Ledger.log, Ledger.setLast]
  · exact ⟨(Ledger.log_last_ne hid).symm.trans h, hid⟩

theorem World.exec_last_none {w : World} (hwal : w.store.WalBound) (hkeep : ∀ n, e ≠ .truncateWal n)
    (h : (w.exec e).2.store.ledger.last t = none) :
    w.store.ledger.last t = none ∧ ∀ rec, e = .appendWal rec → rec.txnId ≠ some t := by
  by_cases hlog : ∃ rec, e = .appendWal rec
  · obtain ⟨rec, rfl⟩ := hlog
    change (w.store.appendWal rec).2.ledger.last t = none at h
    rw [Store.ledger_appendWal hwal] at h
    obtain ⟨hlast, hid⟩ := Ledger.log_last_none h
    exact ⟨hlast, fun rec' heq => Act.appendWal.inj heq ▸ hid⟩
  · have hlast : (w.exec e).2.store.ledger.last t = w.store.ledger.last t := by
      cases e <;> try rfl
      case appendWal rec => exact absurd ⟨rec, rfl⟩ hlog
      case truncateWal n => exact absurd rfl (hkeep n)
      case unregisterSnapshot snap => exact congrFun (congrArg Ledger.last (Act.Silent.ledger (a := .unregisterSnapshot snap) trivial w)) t
      case compareAndSetTxnStatus t' old new =>
        rcases w.exec_compareAndSet t' _ _ with ⟨r, -, -, heq⟩ | ⟨-, heq⟩ <;> rw [heq]
        rfl
      case appendChainEntriesBulk entries =>
        simp only [World.exec, World.onStore, Store.appendChainEntriesBulk]
        split <;> rfl
    exact ⟨hlast ▸ h, fun rec heq => absurd ⟨rec, heq⟩ hlog⟩

namespace Inv

open Ledger

variable {gc : Prop} {w : World} {γ : Phases Act Call Phase} {i : Nat} {c : Call} {d : List Act} {g : Phase}
  {t : String} {row : TxnStateRecord}

theorem committing_after {A : e.Res → Prop} {N : e.Res → Phase} (h : Inv gc w γ) (hi : γ i = some ⟨c, d, g⟩)
    (hm : Move g e A N) (hcond : Steady gc w c e) (hrow : (w.exec e).2.store.ledger.row t = some row)
    (hst : row.status = .committing) :
    (N (w.exec e).1).owns = some t ∨ (g.owns ≠ some t ∧ w.store.ledger.row t = some row) := by
  have hok := h.phases i _ hi
  have hA := (h.act hi hm hcond).1
  have hkeeps : e.KeepsRows →
      (N (w.exec e).1).owns = some t ∨ (g.owns ≠ some t ∧ w.store.ledger.row t = some row) := by
    intro hk
    rw [hk.row_eq] at hrow
    rw [hm.owns_eq hk hA]
    by_cases hown : g.owns = some t
    · exact .inl hown
    · exact .inr ⟨hown, hrow⟩
  -- a row stored for `t'`: of another transaction, or not `Committing`
  have hstore : ∀ {t' r}, (w.store.putTxnState t' r).ledger.row t = some row → r.status ≠ .committing →
      t ≠ t' ∧ w.store.ledger.row t = some row := by
    intro t' r hr hne
    rw [Store.ledger_putTxnState] at hr
    rcases setRow_row_inv hr with ⟨rfl, rfl⟩ | hr
    · exact absurd hst hne
    · exact hr
  cases hm <;> try exact hkeeps trivial
  case publish ha | tidyReleased ha | tidyAborting ha => exact hkeeps (by cases ha <;> trivial)
  case putRow t' r =>
    obtain ⟨-, -, idem, now, hnew⟩ := hok
    exact .inr ⟨nofun, (hstore hrow (by rw [hnew]; nofun)).2⟩
  case stageNote t' key txn _ => exact .inr ⟨nofun, (hstore hrow (by simp [TxnStateRecord.addWriteKey, hok.status])).2⟩
  case readNote t' key txn _ => exact .inr ⟨nofun, (hstore hrow (by simp [TxnStateRecord.addReadKey, hok.status])).2⟩
  case beatNote t' txn now => exact .inr ⟨nofun, (hstore hrow (by simp [hok.status])).2⟩
  case storeAborted t' r =>
    obtain ⟨hne, hrow⟩ := hstore hrow nofun
    exact .inr ⟨fun heq => hne (Option.some.inj heq).symm, hrow⟩
  case storeCommitted t' r v =>
    obtain ⟨hne, hrow⟩ := hstore hrow nofun
    exact .inr ⟨fun heq => hne (Option.some.inj heq).symm, hrow⟩
  case storeAlloc t' r v =>
    change (w.store.putTxnState t' (r.withAlloc v)).ledger.row t = some row at hrow
    rw [Store.ledger_putTxnState] at hrow
    rcases setRow_row_inv hrow with ⟨rfl, -⟩ | ⟨hne, hrow⟩
    · exact .inl rfl
    · exact .inr ⟨fun heq => hne (Option.some.inj heq).symm, hrow⟩
  case commitClaim t' =>
    rcases w.exec_compareAndSet t' _ _ with ⟨r, -, -, heq⟩ | ⟨-, heq⟩ <;> rw [heq] at hrow ⊢
    · rw [Store.ledger_putTxnState] at hrow
      rcases setRow_row_inv hrow with ⟨rfl, -⟩ | ⟨-, hrow⟩
      · exact .inl rfl
      · exact .inr ⟨nofun, hrow⟩
    · exact .inr ⟨nofun, hrow⟩
  case abortClaim t' r =>
    rcases w.exec_compareAndSet t' _ _ with ⟨r, -, -, heq⟩ | ⟨-, heq⟩ <;> rw [heq] at hrow
    · exact .inr ⟨nofun, (hstore hrow nofun).2⟩
    · exact .inr ⟨nofun, hrow⟩
  case sweepClaim b t' r =>
    rcases w.exec_compareAndSet t' _ _ with ⟨r, -, -, heq⟩ | ⟨-, heq⟩ <;> rw [heq] at hrow
    · exact .inr ⟨nofun, (hstore hrow nofun).2⟩
    · exact .inr ⟨nofun, hrow⟩

theorem unlogged_after {A : e.Res → Prop} {N : e.Res → Phase} (h : Inv gc w γ) (hi : γ i = some ⟨c, d, g⟩)
    (hm : Move g e A N) (hrow : (w.exec e).2.store.ledger.row t ≠ none)
    (hlast : (w.exec e).2.store.ledger.last t = none) :
    (N (w.exec e).1).announces = some t ∨
      (g.announces ≠ some t ∧ w.store.ledger.row t ≠ none ∧ w.store.ledger.last t = none) := by
  obtain ⟨hlast₀, hrec⟩ := World.exec_last_none h.wal hm.keeps_log hlast
  by_cases hann : g.announces = some t
  · left
    cases hm <;> try (cases hann; done)
    case lockBegin => exact hann
    case walBegin t' row idem =>
      cases hann
      exact absurd rfl (hrec _ rfl)
  · by_cases hnone : w.store.ledger.row t = none
    · exact .inl ((h.row_none_after hi hm hnone).resolve_left hrow)
    · exact .inr ⟨hann, hnone, hlast₀⟩

end Inv

/-! ## Calls in flight account for what is unresolved -/

/-- The last action of a call that is in the middle of a disagreement between row and log. -/
def Phase.Marked (done : List Act) : Phase → Prop
  | begun _ _ => ∃ t r rest, done = .putTxnState t r :: rest
  | registered _ _ => ∃ t snap rest, done = .lockBeginTxn t snap :: rest
  | doomed _ _ => ∃ t reason rest, done = .appendWal (.aborted t reason) :: rest
  | walled _ _ _ => ∃ t v rest, done = .appendWal (.committed t v) :: rest ∨
      done = .appendWal (.commitResult t v true) :: rest
  | _ => True

theorem Move.marked {g : Phase} {A : e.Res → Prop} {N : e.Res → Phase} (hm : Move g e A N) (r : e.Res) (d : List Act) :
    (N r).Marked (e :: d) := by
  have hactive : ∀ {k : TxnStateRecord → Phase} {other : Phase} {r : Option TxnStateRecord} {d : List Act},
      (∀ row, (k row).Marked d) → other.Marked d → (Phase.onActive k other r).Marked d := by
    intro k other r d hk ho
    cases r with
    | none => exact ho
    | some row =>
      simp only [Phase.onActive]
      split
      · exact hk row
      · exact ho
  cases hm <;> try trivial
  case putRow | lockBegin | giveUp => exact ⟨_, _, _, rfl⟩
  case walCommitted => exact ⟨_, _, _, .inl rfl⟩
  case walResult => exact ⟨_, _, _, .inr rfl⟩
  case stageRequire | readRequire | beatRequire | commitLook | abortLook | sweepLook =>
    refine hactive (fun _ => ?_) ?_ <;> trivial
  case commitClaim | abortClaim | sweepClaim | check =>
    simp only
    split <;> trivial
  case load => cases r <;> trivial
  case release t snap sweep => cases sweep <;> trivial

/-- Every row that is not resolved has a call in flight that will resolve it. -/
structure Tracked (w : World) (γ : Phases Act Call Phase) : Prop where
  owned : ∀ t row, w.store.ledger.row t = some row → row.status = .committing →
    ∃ i ph, γ i = some ph ∧ ph.phase.owns = some t
  begun : ∀ t, w.store.ledger.row t ≠ none → w.store.ledger.last t = none →
    ∃ i ph, γ i = some ph ∧ ph.phase.announces = some t
  marked : ∀ i ph, γ i = some ph → ph.phase.Marked ph.done

namespace Tracked

variable {gc : Prop} {w : World} {γ : Phases Act Call Phase} {i : Nat} {c : Call} {d : List Act} {g : Phase}

theorem spawn (h : Tracked w γ) (hi : γ i = none) : Tracked w (Function.update γ i (some ⟨c, [], c.start⟩)) := by
  have hkeep : ∀ {j ph}, γ j = some ph → Function.update γ i (some ⟨c, [], c.start⟩) j = some ph := by
    intro j ph hj
    have hji : j ≠ i := by
      rintro rfl
      simp [hi] at hj
    simpa [hji] using hj
  refine ⟨fun t row hrow hst => ?_, fun t hrow hlast => ?_, fun j ph hj => ?_⟩
  · obtain ⟨j, ph, hj, hown⟩ := h.owned t row hrow hst
    exact ⟨j, ph, hkeep hj, hown⟩
  · obtain ⟨j, ph, hj, hann⟩ := h.begun t hrow hlast
    exact ⟨j, ph, hkeep hj, hann⟩
  · by_cases hji : j = i
    · subst hji
      obtain rfl : ⟨c, [], c.start⟩ = ph := by simpa using hj
      cases c <;> trivial
    · exact h.marked j ph (by simpa [hji] using hj)

theorem finish (h : Tracked w γ) {ph : Phased Act Call Phase} (hi : γ i = some ph) (hq : ph.phase.Quiet) :
    Tracked w (Function.update γ i none) := by
  have hkeep : ∀ {j ph'}, γ j = some ph' → ¬ ph'.phase.Quiet → Function.update γ i none j = some ph' := by
    intro j ph' hj hbusy
    have hji : j ≠ i := by
      rintro rfl
      cases hi.symm.trans hj
      exact hbusy hq
    simpa [hji] using hj
  refine ⟨fun t row hrow hst => ?_, fun t hrow hlast => ?_, fun j ph' hj => ?_⟩
  · obtain ⟨j, ph', hj, hown⟩ := h.owned t row hrow hst
    exact ⟨j, ph', hkeep hj fun hquiet => by simp [hquiet.owns] at hown, hown⟩
  · obtain ⟨j, ph', hj, hann⟩ := h.begun t hrow hlast
    refine ⟨j, ph', hkeep hj fun hquiet => ?_, hann⟩
    cases hg : ph'.phase <;> rw [hg] at hquiet hann <;> first | exact hquiet.elim | cases hann
  · by_cases hji : j = i
    · subst hji
      simp at hj
    · exact h.marked j ph' (by simpa [hji] using hj)

theorem act {A : e.Res → Prop} {N : e.Res → Phase} (h : Tracked w γ) (hinv : Inv gc w γ) (hi : γ i = some ⟨c, d, g⟩)
    (hm : Move g e A N) (hcond : Steady gc w c e) :
    Tracked (w.exec e).2 (Function.update γ i (some ⟨c, e :: d, N (w.exec e).1⟩)) := by
  have hkeep : ∀ {j ph}, γ j = some ph → ph.phase ≠ g →
      Function.update γ i (some ⟨c, e :: d, N (w.exec e).1⟩) j = some ph := by
    intro j ph hj hne
    have hji : j ≠ i := by
      rintro rfl
      cases hi.symm.trans hj
      exact hne rfl
    simpa [hji] using hj
  refine ⟨fun t row hrow hst => ?_, fun t hrow hlast => ?_, fun j ph hj => ?_⟩
  · rcases hinv.committing_after hi hm hcond hrow hst with hown | ⟨hne, hrow₀⟩
    · exact ⟨i, ⟨c, e :: d, N (w.exec e).1⟩, by simp, hown⟩
    · obtain ⟨j, ph, hj, hown⟩ := h.owned t row hrow₀ hst
      exact ⟨j, ph, hkeep hj fun heq => hne (heq ▸ hown), hown⟩
  · rcases hinv.unlogged_after hi hm hrow hlast with hann | ⟨hne, hrow₀, hlast₀⟩
    · exact ⟨i, ⟨c, e :: d, N (w.exec e).1⟩, by simp, hann⟩
    · obtain ⟨j, ph, hj, hann⟩ := h.begun t hrow₀ hlast₀
      exact ⟨j, ph, hkeep hj fun heq => hne (heq ▸ hann), hann⟩
  · by_cases hji : j = i
    · subst hji
      obtain rfl : ⟨c, e :: d, N (w.exec e).1⟩ = ph := by simpa using hj
      exact hm.marked _ d
    · exact h.marked j ph (by simpa [hji] using hj)

end Tracked

/-! ## Crashes that fall between row and log -/

/-- The call has just made row and log disagree: `begin` has stored its row and not its log record, or `commit` has
logged its outcome and not stored it. -/
def Call.Torn : Call → List Act → Prop
  | .begin _ _ _, .putTxnState _ _ :: _ | .begin _ _ _, .lockBeginTxn _ _ :: _ => True
  | .commit _ _, .appendWal (.committed _ _) :: _ | .commit _ _, .appendWal (.commitResult _ _ _) :: _
  | .commit _ _, .appendWal (.aborted _ _) :: _ => True
  | _, _ => False

/-- The condition on each event: write-backs find the row `Active`, and no crash falls where a call has made row and
log disagree. -/
def CallPool.Orderly (p : CallPool) : ServerEvent → Prop
  | .run ev => p.WriteBacksActive ev
  | .restart _ _ => ∀ (i : Nat) th, p.threads[i]? = some th → ¬ th.call.Torn th.done

instance : (c : Call) → (d : List Act) → Decidable (c.Torn d) := by
  intro c d
  unfold Call.Torn
  split <;> infer_instance

instance (p : CallPool) : DecidablePred p.Orderly
  | .run ev => inferInstanceAs (Decidable (p.WriteBacksActive ev))
  | .restart _ _ => decidable_of_iff (∀ x ∈ p.threads.toList, ¬ x.2.call.Torn x.2.done)
      ⟨fun h i th hth => h (i, th) (Table.mem_toList.2 hth), fun h x hx => h x.1 x.2 (Table.mem_toList.1 hx)⟩

/-- The phases in which row and log disagree for good, should the call be cut. -/
def Phase.Torn : Phase → Prop
  | begun _ _ | registered _ _ | doomed _ _ | walled _ _ _ => True
  | _ => False

theorem Phase.torn_of_announces {g : Phase} (hann : g.announces = some t) : g.Torn := by
  cases g <;> first | (cases hann; done) | trivial

theorem Phase.Marked.torn {g : Phase} {c : Call} {d : List Act} (hm : g.Marked d) (hf : g.Fits c) (hg : g.Torn) :
    c.Torn d := by
  have hbegin : ∀ {t}, c.begins = some t → ∃ idem now, c = .begin t idem now := by
    intro t hb
    cases c <;> try (cases hb; done)
    case begin t' idem now =>
      cases hb
      exact ⟨idem, now, rfl⟩
  cases g <;> try (exact hg.elim)
  case begun | registered =>
    obtain ⟨idem, now, rfl⟩ := hbegin hf
    obtain ⟨t', x, rest, rfl⟩ := hm
    trivial
  case doomed =>
    obtain ⟨aged, rfl⟩ := hf
    obtain ⟨t', reason, rest, rfl⟩ := hm
    trivial
  case walled =>
    obtain ⟨aged, rfl⟩ := hf
    obtain ⟨t', v', rest, rfl | rfl⟩ := hm <;> trivial

section Restart

variable {gc : Prop} {w w' : World} {γ : Phases Act Call Phase} {nowMs : Int} {order : List String}

theorem Tracked.openInLog (h : Tracked w γ) (hinv : Inv gc w γ) (hclean : ∀ i ph, γ i = some ph → ¬ ph.phase.Torn)
    (hrow : w.store.ledger.row t = some row) (hst : ¬ row.status.Terminal) : w.store.ledger.OpenInLog t := by
  have hlogged : w.store.ledger.last t ≠ none := by
    intro hnone
    obtain ⟨i, ph, hi, hann⟩ := h.begun t (by simp [hrow]) hnone
    exact hclean i ph hi (Phase.torn_of_announces hann)
  have hopen : w.store.ledger.Open t → w.store.ledger.OpenInLog t :=
    fun ho => .inl (ho.resolve_left hlogged)
  cases hstatus : row.status with
  | committed => exact absurd (.inl hstatus) hst
  | aborted => exact absurd (.inr hstatus) hst
  | active => exact hopen ((hinv.sound.rows t row hrow).active hstatus).2.1
  | committing =>
    obtain ⟨i, ph, hi, hown⟩ := h.owned t row hrow hstatus
    have hok := hinv.phases i ph hi
    have htorn := hclean i ph hi
    cases hg : ph.phase <;> rw [hg] at hown hok htorn <;> try (cases hown; done)
    all_goals injection hown with hown; subst hown
    case owned =>
      obtain ⟨r, hc⟩ := hok
      exact hopen hc.open'
    case loaded => exact hopen hok.open'
    case allocated => exact hopen hok.1.open'
    case doomed | walled => exact absurd trivial htorn
    case logged | ready | appended => exact .inr hok.1.last

theorem Tracked.restart (h : Tracked w γ) (hinv : Inv gc w γ)
    (hclean : ∀ i ph, γ i = some ph → ¬ ph.phase.Torn) (hr : w.restart nowMs order = some w') :
    (∀ t row, w'.store.ledger.row t = some row → row.status.Terminal) ∧ Tracked w' fun _ => none := by
  have hspec := World.restart_spec hinv.wal hinv.halted hr
  have hterm : ∀ t row, w'.store.ledger.row t = some row → row.status.Terminal := by
    intro t row hrow
    rcases hspec.recovers.row t with heq | ⟨r, st, now, -, -, hst, hr'⟩
    · by_cases hst : row.status.Terminal
      · exact hst
      · exact hspec.resolved t (h.openInLog hinv hclean (heq ▸ hrow) hst) row hrow
    · cases hr'.symm.trans hrow
      exact hst
  refine ⟨hterm, fun t row hrow hst => ?_, fun t hrow hlast => ?_, by simp⟩
  · have := hterm t row hrow
    simp [hst, TxnStatus.Terminal] at this
  · -- the log knows every transaction that has a row
    have hrow₀ : w.store.ledger.row t ≠ none := by
      rcases hspec.recovers.row t with heq | ⟨r, -, -, hr₀, -⟩
      · exact heq ▸ hrow
      · simp [hr₀]
    have hlast₀ : w.store.ledger.last t ≠ none := by
      intro hnone
      obtain ⟨i, ph, hi, hann⟩ := h.begun t hrow₀ hnone
      exact hclean i ph hi (Phase.torn_of_announces hann)
    exact absurd hlast (hspec.recovers.logged t hlast₀)

end Restart

/-! ## Runs with crashes -/

theorem tracked_invariant (gc : Prop) (env : Env) :
    Pool.Invariant (coordinator env) Move Call.start (fun _ _ g => g.Quiet) (Steady gc)
      (fun w γ => Inv gc w γ ∧ Tracked w γ) where
  obeys := Call.body_obeys env
  spawn _ _ _ _ _ h hi hlive hadm := ⟨h.1.spawn hi hlive hadm, h.2.spawn hi⟩
  act _ _ _ _ _ _ _ _ _ h hi hm hcond := by
    obtain ⟨hA, hinv⟩ := h.1.act hi hm hcond
    exact ⟨hA, hinv, h.2.act h.1 hi hm hcond⟩
  finish _ _ _ _ _ h hi hq := ⟨h.1.finish hi hq, h.2.finish hi hq⟩

/-- The life-cycle invariant, with a call in flight behind every unresolved row. -/
def CallPool.Accounted (gc : Prop) (p : CallPool) : Prop :=
  ∃ γ, Pool.Follows Move (fun _ _ g => g.Quiet) p γ ∧ Inv gc p.state γ ∧ Tracked p.state γ

/-- The event is the collection of the chains. -/
def CallPool.Collects (p : CallPool) : ServerEvent → Prop
  | .run (.act i) => ∃ c, p.pendingAct i = some (c, .gcChainsAtActiveSnapshot)
  | _ => False

theorem CallPool.accounted_idle {gc : Prop} {w : World} (hinv : Inv gc w fun _ => none) (htr : Tracked w fun _ => none) :
    CallPool.Accounted gc (Pool.idle w) :=
  ⟨fun _ => none, fun i => .inl ⟨by simp [Pool.idle], rfl⟩, hinv, htr⟩

namespace CallPool.Accounted

variable {gc : Prop} {env : Env} {u v : CallPool} {ev : ServerEvent}

theorem restart {nowMs : Int} {order : List String} (h : u.Accounted gc)
    (horderly : u.Orderly (.restart nowMs order)) (hstep : serverStep env (.restart nowMs order) u = some v) :
    Restarts gc u.state v.state ∧ (∀ t row, v.state.store.ledger.row t = some row → row.status.Terminal) ∧
      v.Accounted gc := by
  obtain ⟨γ, hf, hinv, htr⟩ := h
  simp only [serverStep, Option.map_eq_some_iff] at hstep
  obtain ⟨w', hw', rfl⟩ := hstep
  have hclean : ∀ i ph, γ i = some ph → ¬ ph.phase.Torn := by
    intro i ph hi htorn
    rcases hf i with ⟨-, hnone⟩ | ⟨th, g, hth, hph, -⟩
    · rw [hnone] at hi
      cases hi
    · cases hph.symm.trans hi
      exact horderly i th hth ((htr.marked i _ hi).torn (hinv.fits i _ hi) htorn)
  have hspec := World.restart_spec hinv.wal hinv.halted hw'
  obtain ⟨hterm, htr'⟩ := htr.restart hinv hclean hw'
  exact ⟨hspec, hterm, accounted_idle hspec.inv htr'⟩

theorem step (h : u.Accounted gc) (horderly : u.Orderly ev) (hgc : u.Collects ev → gc)
    (hstep : serverStep env ev u = some v) : v.Accounted gc := by
  cases ev with
  | restart nowMs order => exact (h.restart horderly hstep).2.2
  | run ev =>
    obtain ⟨γ, hf, hinv⟩ := h
    refine (tracked_invariant gc env).step hstep hf hinv ?_
    intro i c e hev hpend
    subst hev
    refine ⟨horderly c e hpend, fun he => hgc ⟨c, ?_⟩⟩
    rw [hpend, he]

theorem committed_step (h : u.Accounted gc) (horderly : u.Orderly ev) (hstep : serverStep env ev u = some v)
    (hrow : u.state.store.getTxnState t = some row) (hst : row.status = .committed) :
    ∃ row', v.state.store.getTxnState t = some row' ∧ row'.status = .committed ∧
      row'.allocVersions = row.allocVersions := by
  cases ev with
  | restart nowMs order =>
    obtain ⟨hspec, -⟩ := h.restart horderly hstep
    rcases hspec.recovers.row t with heq | ⟨r, st, now, hr, hopen, -⟩
    · exact ⟨row, heq.trans hrow, hst, rfl⟩
    · cases hrow.symm.trans hr
      exact absurd (.inl hst) hopen
  | run ev =>
    obtain ⟨γ, hf, hinv, -⟩ := h
    have hmove := (hinv.rowMove_event_iff hf hstep).2 horderly t
    rw [hrow] at hmove
    generalize hv : v.state.store.getTxnState t = after at hmove
    cases hmove with
    | @moved _ r' hst' hterm =>
      refine ⟨r', rfl, ?_, hterm (.inl hst)⟩
      rcases hst' with heq | hmoved
      · exact heq.trans hst
      · rw [hst] at hmoved
        cases hmoved

end CallPool.Accounted

theorem TxnStateRecord.lastVersion_eq {v : Nat}
    (halloc : row.allocVersions = (row.writeKeys.insertionSort (· ≤ ·)).map fun key => (key, v))
    (hk : row.writeKeys ≠ []) : row.lastVersion = v := by
  have hlen : row.writeKeys.length ≠ 0 := by simpa using hk
  simp [TxnStateRecord.lastVersion, halloc, Function.comp_def, List.max?_replicate, hlen]

theorem Ledger.Alloc.lastVersion {L : Ledger} {v : Nat} (ha : L.Alloc row v) (hk : row.writeKeys ≠ []) :
    row.lastVersion = v :=
  TxnStateRecord.lastVersion_eq ha.eq hk

theorem TxnStateRecord.lastVersion_congr {r r' : TxnStateRecord} (h : r.allocVersions = r'.allocVersions)
    (hne : r.allocVersions ≠ []) : r.lastVersion = r'.lastVersion := by
  obtain ⟨x, rest, hx⟩ := List.exists_cons_of_ne_nil hne
  simp [TxnStateRecord.lastVersion, ← h, hx]

theorem commit_replays (env : Env) {w : World} (aged : String → Bool) (hrow : w.store.getTxnState t = some row)
    (hst : row.status = .committed) : (Call.commit t aged).run env w = (.ok (.committed row.lastVersion), w) := by
  have hexec : w.exec (.getTxnState t) = (some row, w) := by rw [← hrow]; rfl
  simp [Call.run, Call.body, Coordinator.commit, Coordinator.claim, Coordinator.replay, Prog.perform, hexec, hst]

/-- A store in which every transaction is resolved, in agreement with the chains. -/
structure Store.Resolved (gc : Prop) (s : Store) : Prop where
  terminal : ∀ t row, s.getTxnState t = some row → row.status = .committed ∨ row.status = .aborted
  /-- A committed transaction has its version in the chain of each key it writes; where chains are
  collected, newer versions may have taken its place. -/
  landed : ∀ t row, s.getTxnState t = some row → row.status = .committed → ∀ k ∈ row.writeKeys,
    (∃ e ∈ (s.readChain k).entries, e.txnId = t ∧ e.commitVersion = row.lastVersion) ∨
      (gc ∧ (s.readChain k).entries ≠ [] ∧ ∀ e ∈ (s.readChain k).entries, row.lastVersion < e.commitVersion)
  /-- Every chain entry is of a committed transaction that writes the key. -/
  owned : ∀ k, ∀ e ∈ (s.readChain k).entries, ∃ row, s.getTxnState e.txnId = some row ∧
    row.status = .committed ∧ k ∈ row.writeKeys ∧ e.commitVersion = row.lastVersion

theorem Ledger.Sound.resolved {gc : Prop} {s : Store} (h : s.ledger.Sound gc)
    (hterm : ∀ t row, s.ledger.row t = some row → row.status.Terminal) : s.Resolved gc where
  terminal := hterm
  landed t row hrow hst k hk := by
    obtain ⟨v, ha, hkept⟩ := (h.rows t row hrow).committed hst
    rw [ha.lastVersion (List.ne_nil_of_mem hk)]
    exact hkept k hk
  owned k e he := by
    obtain ⟨row, hrow, hst, hmem⟩ := h.owned k e he
    have hcommitted : row.status = .committed := by
      rcases hterm _ row hrow with hst' | hst'
      · exact hst'
      · rcases hst with hst | hst <;> rw [hst] at hst' <;> cases hst'
    obtain ⟨v, ha, -⟩ := (h.rows _ row hrow).committed hcommitted
    obtain ⟨hk, hv⟩ := ha.mem hmem
    refine ⟨row, hrow, hcommitted, hk, ?_⟩
    rw [ha.lastVersion (List.ne_nil_of_mem hk)]
    exact hv

/-- If write-backs find their rows `Active` and crashes tear no call, each restart resolves every transaction, and
from then on `commit` of a transaction with chain entries answers their version. -/
theorem restart_resolves (env : Env) {hist : List (CallPool × ServerEvent × CallPool)} {p : CallPool}
    (hrun : Run (CallPool.serverStep env) (Pool.idle {}) hist p) (horderly : ∀ x ∈ hist, x.1.Orderly x.2.1)
    {u v : CallPool} {nowMs : Int} {order : List String} (hx : (u, .restart nowMs order, v) ∈ hist) :
    v.state.store.Resolved (∃ x ∈ hist, x.1.Collects x.2.1) ∧
      ∀ k, ∀ e ∈ (v.state.store.readChain k).entries, ∀ aged,
        (Call.commit e.txnId aged).run env p.state = (.ok (.committed e.commitVersion), p.state) := by
  set gc : Prop := ∃ x ∈ hist, x.1.Collects x.2.1 with hgc
  have hempty : CallPool.Accounted gc (Pool.idle {}) :=
    CallPool.accounted_idle (World.inv_empty gc) (by constructor <;> simp [Store.ledger])
  obtain ⟨-, hall⟩ := hrun.invariant (I := CallPool.Accounted gc)
    (C := fun u ev => u.Orderly ev ∧ (u.Collects ev → gc)) hempty
    (fun u ev v hu hcond hstep => hu.step hcond.1 hcond.2 hstep) fun x hx => ⟨horderly x hx, fun hc => ⟨x, hx, hc⟩⟩
  obtain ⟨-, hterm, -⟩ := (hall _ hx).1.restart (horderly _ hx) (hrun.step_of_mem _ hx)
  obtain ⟨γ, -, hinv, -⟩ := (hall _ hx).2
  have hres := hinv.sound.resolved hterm
  refine ⟨hres, fun k e he aged => ?_⟩
  obtain ⟨row, hrow, hst, hk, hev⟩ := hres.owned k e he
  -- the row keeps its status and versions in the rest of the run
  obtain ⟨before, after, heq, -, hafter⟩ := hrun.split_of_mem hx
  have hmem : ∀ y ∈ after, y ∈ hist := fun y hy => by simp [heq, hy]
  obtain ⟨⟨row', hrow', hst', halloc⟩, -⟩ := hafter.invariant
    (I := fun q : CallPool => ∃ r, q.state.store.getTxnState e.txnId = some r ∧ r.status = .committed ∧
      r.allocVersions = row.allocVersions)
    (C := fun q ev => q.Accounted gc ∧ q.Orderly ev) ⟨row, hrow, hst, rfl⟩
    (fun q ev q' hq hcond hstep => by
      obtain ⟨r, hr, hrst, hralloc⟩ := hq
      obtain ⟨r', hr', hrst', hralloc'⟩ := hcond.1.committed_step hcond.2 hstep hr hrst
      exact ⟨r', hr', hrst', hralloc'.trans hralloc⟩)
    fun y hy => ⟨(hall y (hmem y hy)).1, horderly y (hmem y hy)⟩
  obtain ⟨r, hr, -, hmemv⟩ := hinv.sound.owned k e he
  obtain rfl := Option.some.inj (hrow.symm.trans hr)
  rw [commit_replays env aged hrow' hst', hev,
    TxnStateRecord.lastVersion_congr halloc (halloc ▸ List.ne_nil_of_mem hmemv)]

/-- A commit cut after its chain append is resolved by the restart, and answers its version afterwards. -/
theorem restart_resolves_after_append : ∃ hist u p,
    Run (CallPool.serverStep .sample) (Pool.idle {}) (hist ++ [(u, .restart 9 ["T"], p)]) p ∧
    u.standing "T" = some (.committing, [("k", 1)]) ∧
    p.state.store.Resolved (∃ x ∈ hist ++ [(u, .restart 9 ["T"], p)], x.1.Collects x.2.1) ∧
    ∃ e ∈ (p.state.store.readChain "k").entries, e.txnId = "T" ∧
      (Call.commit e.txnId fun _ => false).run .sample p.state = (.ok (.committed e.commitVersion), p.state) := by
  obtain ⟨u, p, hguarded, htest⟩ := Run.exists_step_of_exec
    (guarded (fun (u : CallPool) ev => decide (u.Orderly ev)) (CallPool.serverStep .sample)) (Pool.idle {})
    (((Call.begin "T" none 0).alone 0 4 ++ (Call.stage "T" "k" [1] none [] false).alone 1 5 ++
      (Call.commit "T" fun _ => false).first 2 10).map .run) (.restart 9 ["T"])
    (fun u p => u.standing "T" = some (.committing, [("k", 1)]) &&
      (p.state.store.readChain "k").entries.any fun e => e.txnId = "T") (by decide +kernel)
  obtain ⟨hrun, horderly⟩ := hguarded.of_guarded
  simp only [Bool.and_eq_true, decide_eq_true_eq, List.any_eq_true] at htest
  obtain ⟨hstand, e, he, het⟩ := htest
  obtain ⟨hres, hcommit⟩ := restart_resolves .sample hrun (fun x hx => of_decide_eq_true (horderly x hx))
    (List.mem_append_right _ (List.mem_singleton_self _))
  exact ⟨_, u, p, hrun, hstand, hres, e, he, het, hcommit "k" e he _⟩

def CallPool.hasEntry (p : CallPool) (t k : String) : Bool :=
  (p.state.store.readChain k).entries.any fun e => e.txnId = t

/-- Restarts that leave a transaction unresolved, or committed without its entry: a `begin` cut before its log record;
a commit cut after its log records, which cannot be committed although its entry is in the chain; a commit that gives
up, cut between log and row; and a collection that drops the entry of a committed transaction. -/
theorem restart_leaves_unresolved :
    (∃ hist p, Run (CallPool.serverStep .sample) (Pool.idle {}) hist p ∧ p.standing "T" = some (.active, [])) ∧
    (∃ hist p, Run (CallPool.serverStep .sample) (Pool.idle {}) hist p ∧
      p.standing "T" = some (.committing, [("k", 1)]) ∧ p.hasEntry "T" "k" = true ∧
      ((Call.commit "T" fun _ => false).run .sample p.state).1.isOk = false) ∧
    (∃ hist p, Run (CallPool.serverStep .sample) (Pool.idle {}) hist p ∧ p.standing "U" = some (.committing, [])) ∧
    ∃ hist p, Run (CallPool.serverStep .sample) (Pool.idle {}) hist p ∧
      p.standing "T" = some (.committed, [("k", 1)]) ∧ p.hasEntry "T" "k" = false := by
  refine ⟨?_, ?_, ?_, ?_⟩
  · obtain ⟨p, hrun, htest⟩ := Run.exists_of_exec (CallPool.serverStep .sample) (Pool.idle {})
      (((Call.begin "T" none 0).first 0 2).map .run ++ [.restart 9 []])
      (fun p => p.standing "T" = some (.active, [])) (by decide +kernel)
    exact ⟨_, p, hrun, by simpa using htest⟩
  · obtain ⟨p, hrun, htest⟩ := Run.exists_of_exec (CallPool.serverStep .sample) (Pool.idle {})
      (((Call.begin "T" none 0).alone 0 4 ++ (Call.stage "T" "k" [1] none [] false).alone 1 5 ++
        (Call.commit "T" fun _ => false).first 2 13).map .run ++ [.restart 9 ["T"]])
      (fun p => p.standing "T" = some (.committing, [("k", 1)]) && (p.hasEntry "T" "k" &&
        ((Call.commit "T" fun _ => false).run .sample p.state).1.isOk = false)) (by decide +kernel)
    exact ⟨_, p, hrun, by simpa using htest⟩
  · obtain ⟨p, hrun, htest⟩ := Run.exists_of_exec (CallPool.serverStep .sample) (Pool.idle {})
      (((Call.begin "T" none 0).alone 0 4 ++ (Call.begin "U" none 0).alone 0 4 ++
        (Call.stage "T" "k" [1] none [] false).alone 1 5 ++ (Call.stage "U" "k" [1] none [] false).alone 1 5 ++
        (Call.commit "T" fun _ => false).alone 2 19 ++
        (Call.commit "U" fun _ => false).first 3 8).map .run ++ [.restart 9 ["T", "U"]])
      (fun p => p.standing "U" = some (.committing, [])) (by decide +kernel)
    exact ⟨_, p, hrun, by simpa using htest⟩
  · obtain ⟨p, hrun, htest⟩ := Run.exists_of_exec (CallPool.serverStep .sample) (Pool.idle {})
      (((Call.begin "T" none 0).alone 0 4 ++ (Call.stage "T" "k" [1] none [] false).alone 1 5 ++
        (Call.commit "T" fun _ => false).alone 2 19 ++ (Call.begin "U" none 0).alone 0 4 ++
        (Call.stage "U" "k" [1] none [] false).alone 1 5 ++ (Call.commit "U" fun _ => false).alone 2 19 ++
        (Call.sweep 0 5).alone 3 2).map .run ++ [.restart 9 ["T", "U"]])
      (fun p => p.standing "T" = some (.committed, [("k", 1)]) && p.hasEntry "T" "k" = false) (by decide +kernel)
    exact ⟨_, p, hrun, by simpa using htest⟩

end Xtable

import Xtable.Theorems.Status

/-! A transaction pins its snapshot once: from the capture in `begin` until the call that has made its row terminal
    releases it. The registry counts these pins and those of the live readers, in every interleaving in which rows
    are written back while they are `Active`. -/

namespace Xtable

open Pool (Phases Phased)

/-! ## The registry -/

namespace Store

/-- How often a snapshot is registered. -/
def pins (s : Store) (snap : Nat) : Nat := (s.activeSnapshots[snap]?).getD 0

/-- The registry counts the holders of each snapshot and the readers at it, and nothing else. -/
structure Counts (P : Table Nat Nat) (holds : String → Nat → Prop) (readers : List Nat) : Prop where
  positive : ∀ snap : Nat, P[snap]? ≠ some 0
  count : ∃ H : Nat → Finset String, (∀ t snap, t ∈ H snap ↔ holds t snap) ∧
    ∀ snap : Nat, (P[snap]?).getD 0 = (H snap).card + readers.count snap

variable {s : Store} {snap v : Nat}

theorem pins_capture : s.captureAndRegisterSnapshot.2.pins v = s.pins v + if v = s.globalVersion then 1 else 0 := by
  by_cases h : v = s.globalVersion
  · subst h
    simp [pins, captureAndRegisterSnapshot]
  · simp [pins, captureAndRegisterSnapshot, h, Ne.symm h]

theorem pins_unregister : (s.unregisterSnapshot snap).pins v = s.pins v - if v = snap then 1 else 0 := by
  by_cases h : v = snap
  · subst h
    simp only [pins, unregisterSnapshot]
    split <;> simp
    omega
  · simp only [pins, unregisterSnapshot]
    split <;> simp [Ne.symm h]

theorem capture_positive (h : ∀ n : Nat, s.activeSnapshots[n]? ≠ some 0) (n : Nat) :
    s.captureAndRegisterSnapshot.2.activeSnapshots[n]? ≠ some 0 := by
  by_cases hn : s.globalVersion = n
  · simp [captureAndRegisterSnapshot, hn]
  · simpa [captureAndRegisterSnapshot, hn] using h n

theorem unregister_positive (h : ∀ n : Nat, s.activeSnapshots[n]? ≠ some 0) (n : Nat) :
    (s.unregisterSnapshot snap).activeSnapshots[n]? ≠ some 0 := by
  simp only [unregisterSnapshot]
  by_cases hn : snap = n
  · subst hn
    split <;> simp
    omega
  · split <;> simpa [hn] using h n

namespace Counts

variable {P : Table Nat Nat} {holds holds' : String → Nat → Prop} {readers : List Nat} {t : String}

theorem congr (h : Counts P holds readers) (hholds : ∀ t snap, holds' t snap ↔ holds t snap) :
    Counts P holds' readers := by
  obtain ⟨H, hH, hcount⟩ := h.count
  exact ⟨h.positive, H, fun t snap => (hH t snap).trans (hholds t snap).symm, hcount⟩

theorem take (h : Counts s.activeSnapshots holds readers) (hnew : ¬ holds t s.globalVersion)
    (hholds : ∀ t' snap, holds' t' snap ↔ holds t' snap ∨ (t', snap) = (t, s.globalVersion)) :
    Counts s.captureAndRegisterSnapshot.2.activeSnapshots holds' readers := by
  obtain ⟨H, hH, hcount⟩ := h.count
  refine ⟨capture_positive h.positive,
    fun v => if v = s.globalVersion then insert t (H v) else H v, fun t' v => ?_, fun v => ?_⟩
  · rw [hholds, ← hH, Prod.mk.injEq]
    by_cases hv : v = s.globalVersion <;> simp [hv, or_comm]
  · change s.captureAndRegisterSnapshot.2.pins v = _
    rw [pins_capture, pins, hcount]
    by_cases hv : v = s.globalVersion
    · subst hv
      have hnot : t ∉ H s.globalVersion := fun hmem => hnew ((hH _ _).1 hmem)
      simp only [if_true, Finset.card_insert_of_notMem hnot]
      omega
    · simp [hv]

theorem release (h : Counts s.activeSnapshots holds readers) (hold : holds t snap)
    (hholds : ∀ t' n, holds' t' n ↔ holds t' n ∧ (t', n) ≠ (t, snap)) :
    Counts (s.unregisterSnapshot snap).activeSnapshots holds' readers := by
  obtain ⟨H, hH, hcount⟩ := h.count
  refine ⟨unregister_positive h.positive, fun v => if v = snap then (H v).erase t else H v, fun t' v => ?_,
    fun v => ?_⟩
  · rw [hholds, ← hH, ne_eq, Prod.mk.injEq]
    by_cases hv : v = snap <;> simp [hv, and_comm]
  · change (s.unregisterSnapshot snap).pins v = _
    rw [pins_unregister, pins, hcount]
    by_cases hv : v = snap
    · subst hv
      have hmem : t ∈ H v := (hH _ _).2 hold
      have hpos : 0 < (H v).card := Finset.card_pos.2 ⟨t, hmem⟩
      simp only [if_true, Finset.card_erase_of_mem hmem]
      omega
    · simp [hv]

theorem none_of_zero (h : Counts P holds readers) {v : Nat} (hv : (P[v]?).getD 0 = 0) : P[v]? = none := by
  cases hrow : P[v]? with
  | none => rfl
  | some n =>
    have hn : n = 0 := by simpa [hrow] using hv
    exact absurd (hn ▸ hrow) (h.positive v)

end Counts

end Store

def Act.KeepsPins : Act → Prop
  | captureAndRegisterSnapshot | unregisterSnapshot _ => False
  | _ => True

theorem Act.KeepsPins.snapshots_eq {a : Act} (h : a.KeepsPins) (w : World) :
    (w.exec a).2.store.activeSnapshots = w.store.activeSnapshots := by
  cases a <;> try first | exact h.elim | rfl
  case compareAndSetTxnStatus t old new =>
    rcases w.exec_compareAndSet t _ _ with ⟨r, -, -, heq⟩ | ⟨-, heq⟩ <;> rw [heq]
    rfl
  case appendChainEntriesBulk entries =>
    simp only [World.exec, World.onStore, Store.appendChainEntriesBulk]
    split <;> rfl

/-! ## Who holds a pin -/

/-- The row of `t` is open, and was begun at `snap`. -/
def Ledger.OpenAt (L : Ledger) (t : String) (snap : Nat) : Prop :=
  ∃ row, L.row t = some row ∧ ¬ row.status.Terminal ∧ row.snapshotVersion = snap

/-- The pin a call holds for a transaction without an open row: `begin` before it stores the row, and whoever has made
the row terminal before the pin is released. -/
def Phase.holds : Phase → Option (String × Nat)
  | captured t row => some (t, row.snapshotVersion)
  | finishing t snap | aborting t snap _ => some (t, snap)
  | _ => none

def Holder (L : Ledger) (γ : Phases Act Call Phase) (t : String) (snap : Nat) : Prop :=
  L.OpenAt t snap ∨ ∃ i ph, γ i = some ph ∧ ph.phase.holds = some (t, snap)

/-- The registry counts the holders and the live readers, and nothing else. -/
structure Pinned (readers : List Nat) (w : World) (γ : Phases Act Call Phase) : Prop where
  counts : Store.Counts w.store.activeSnapshots (Holder w.store.ledger γ) readers
  alone : ∀ i j a b t m n, γ i = some a → γ j = some b → a.phase.holds = some (t, m) →
    b.phase.holds = some (t, n) → i = j

namespace Ledger

variable {L : Ledger} {t t₀ : String} {snap : Nat} {r r' : TxnStateRecord}

theorem openAt_setRow (hr : L.row t₀ = some r) (hopen : ¬ r.status.Terminal) (hopen' : ¬ r'.status.Terminal)
    (hsnap : r'.snapshotVersion = r.snapshotVersion) : (L.setRow t₀ r').OpenAt t snap ↔ L.OpenAt t snap := by
  by_cases ht : t = t₀
  · subst ht
    simp [OpenAt, hr, hopen, hopen', hsnap]
  · simp [OpenAt, ht]

theorem openAt_setRow_terminal (hterm : r'.status.Terminal) :
    (L.setRow t₀ r').OpenAt t snap ↔ L.OpenAt t snap ∧ t ≠ t₀ := by
  by_cases ht : t = t₀
  · subst ht
    simp [OpenAt, hterm]
  · simp [OpenAt, ht]

theorem openAt_setRow_new (hr : L.row t₀ = none) (hopen : ¬ r'.status.Terminal) :
    (L.setRow t₀ r').OpenAt t snap ↔ L.OpenAt t snap ∨ (t = t₀ ∧ r'.snapshotVersion = snap) := by
  by_cases ht : t = t₀
  · subst ht
    simp [OpenAt, hr, hopen]
  · simp [OpenAt, ht]

theorem openAt_unique {m n : Nat} (hm : L.OpenAt t m) (hn : L.OpenAt t n) : m = n := by
  obtain ⟨r, hr, -, rfl⟩ := hm
  obtain ⟨r', hr', -, rfl⟩ := hn
  rw [Option.some.inj (hr.symm.trans hr')]

end Ledger

/-! ## What a move does to the holders -/

theorem Move.holds_eq {g : Phase} {e : Act} {A : e.Res → Prop} {N : e.Res → Phase} (hm : Move g e A N)
    (hrows : e.KeepsRows) (hpins : e.KeepsPins) {r : e.Res} (hr : A r) : (N r).holds = g.holds := by
  have hactive : ∀ {k : TxnStateRecord → Phase} {other : Phase} {r : Option TxnStateRecord},
      (∀ row, (k row).holds = none) → other.holds = none → (Phase.onActive k other r).holds = none := by
    intro k other r hk ho
    cases r with
    | none => exact ho
    | some row =>
      simp only [Phase.onActive]
      split
      · exact hk row
      · exact ho
  cases hm <;> try first | rfl | exact hrows.elim | exact hpins.elim
  case stageRequire | readRequire | beatRequire | commitLook | abortLook | sweepLook =>
    exact hactive (fun _ => rfl) rfl
  case load t =>
    cases r with
    | none => cases hr
    | some row => rfl
  case check =>
    simp only
    split <;> rfl

namespace Inv

open Ledger

variable {gc : Prop} {w : World} {γ : Phases Act Call Phase} {i : Nat} {c : Call} {d : List Act} {g : Phase}
  {t : String} {snap : Nat}

theorem not_open_of_holds (h : Inv gc w γ) {ph : Phased Act Call Phase} (hi : γ i = some ph)
    (hholds : ph.phase.holds = some (t, snap)) {n : Nat} : ¬ w.store.ledger.OpenAt t n := by
  have hok := h.phases i ph hi
  rintro ⟨row, hrow, hopen, -⟩
  cases hg : ph.phase <;> rw [hg] at hholds hok <;> try (cases hholds; done)
  all_goals cases hholds
  case captured.refl => rw [hok.1] at hrow; cases hrow
  case finishing.refl =>
    obtain ⟨r, hr, hst, -⟩ := hok
    cases hr.symm.trans hrow
    exact hopen (.inl hst)
  case aborting.refl =>
    obtain ⟨r, hr, hst, -⟩ := hok
    cases hr.symm.trans hrow
    exact hopen (.inr hst)

theorem pin_passed {e : Act} {A : e.Res → Prop} {N : e.Res → Phase} (h : Inv gc w γ) (hi : γ i = some ⟨c, d, g⟩)
    (hm : Move g e A N) (hcond : Steady gc w c e) (hpins : e.KeepsPins) :
    ((w.exec e).2.store.ledger.OpenAt t snap ∨ (N (w.exec e).1).holds = some (t, snap)) ↔
      (w.store.ledger.OpenAt t snap ∨ g.holds = some (t, snap)) := by
  have hok := h.phases i _ hi
  have hfits := h.fits i _ hi
  have hA := (h.act hi hm hcond).1
  have hkeeps : e.KeepsRows →
      (((w.exec e).2.store.ledger.OpenAt t snap ∨ (N (w.exec e).1).holds = some (t, snap)) ↔
        (w.store.ledger.OpenAt t snap ∨ g.holds = some (t, snap))) := by
    intro hk
    rw [hm.holds_eq hk hpins hA, OpenAt, hk.row_eq]
    rfl
  -- an open row replaced by an open one
  have hstay : ∀ {t₀ r r'}, w.store.ledger.row t₀ = some r → ¬ r.status.Terminal → ¬ r'.status.Terminal →
      r'.snapshotVersion = r.snapshotVersion →
      (((w.store.putTxnState t₀ r').ledger.OpenAt t snap ∨ none = some (t, snap)) ↔
        (w.store.ledger.OpenAt t snap ∨ none = some (t, snap))) := by
    intro t₀ r r' hr hopen hopen' hsnap
    rw [Store.ledger_putTxnState, openAt_setRow hr hopen hopen' hsnap]
  -- an open row made terminal by a call that now holds its pin
  have hend : ∀ {t₀ r r' n}, w.store.ledger.row t₀ = some r → ¬ r.status.Terminal → r'.status.Terminal →
      n = r.snapshotVersion →
      (((w.store.putTxnState t₀ r').ledger.OpenAt t snap ∨ some (t₀, n) = some (t, snap)) ↔
        (w.store.ledger.OpenAt t snap ∨ none = some (t, snap))) := by
    intro t₀ r r' n hr hopen hterm hn
    rw [Store.ledger_putTxnState, openAt_setRow_terminal hterm]
    have hopen₀ : w.store.ledger.OpenAt t₀ n := ⟨r, hr, hopen, hn.symm⟩
    constructor
    · rintro (⟨hopenAt, -⟩ | heq)
      · exact .inl hopenAt
      · cases heq
        exact .inl hopen₀
    · rintro (hopenAt | heq)
      · by_cases ht : t = t₀
        · subst ht
          rw [openAt_unique hopenAt hopen₀]
          exact .inr rfl
        · exact .inl ⟨hopenAt, ht⟩
      · cases heq
  -- a row written back, as it was read
  have hback : ∀ {t₀ txn r'}, c.writesBack = true → w.store.ledger.ReadActive t₀ txn → r'.status = txn.status →
      r'.snapshotVersion = txn.snapshotVersion → WriteBackActive w c (.putTxnState t₀ r') →
      (((w.store.putTxnState t₀ r').ledger.OpenAt t snap ∨ none = some (t, snap)) ↔
        (w.store.ledger.OpenAt t snap ∨ none = some (t, snap))) := by
    intro t₀ txn r' hb hread hst hsnap hactive
    obtain ⟨row, hrow, hrst⟩ := hactive hb t₀ r' rfl
    obtain ⟨r₀, hr₀, hsnap₀⟩ := hread.at'
    cases hrow.symm.trans hr₀
    exact hstay hrow (by simp [hrst, TxnStatus.Terminal]) (by simp [hst, hread.status, TxnStatus.Terminal])
      (hsnap.trans hsnap₀.symm)
  -- a claim by compare-and-set that ends the transaction
  have hclaim : ∀ {t₀} {row : TxnStateRecord} {sweep : Option Bool} {other : Phase}, w.store.ledger.At t₀ row.snapshotVersion →
      other.holds = none →
      (((w.exec (.compareAndSetTxnStatus t₀ .active .aborted)).2.store.ledger.OpenAt t snap ∨
          (if (w.exec (.compareAndSetTxnStatus t₀ .active .aborted)).1 = true then
            Phase.aborting t₀ row.snapshotVersion sweep else other).holds = some (t, snap)) ↔
        (w.store.ledger.OpenAt t snap ∨ none = some (t, snap))) := by
    rintro t₀ row sweep other ⟨r₀, hr₀, hsnap₀⟩ hother
    rcases w.exec_compareAndSet t₀ _ _ with ⟨r, hr, hst, heq⟩ | ⟨-, heq⟩ <;> rw [heq]
    · cases hr₀.symm.trans hr
      exact hend hr (by simp [hst, TxnStatus.Terminal]) (.inr rfl) hsnap₀.symm
    · simp only [Bool.false_eq_true, if_false, hother]
  cases hm <;> try first | exact hkeeps trivial | exact hpins.elim
  case publish ha | tidyReleased ha | tidyAborting ha => exact hkeeps (by cases ha <;> trivial)
  case putRow t₀ row =>
    obtain ⟨hnone, -, idem, now, hnew⟩ := hok
    have hopen : ¬ row.status.Terminal := by rw [hnew]; simp [TxnStateRecord.newActive, TxnStatus.Terminal]
    change ((w.store.putTxnState t₀ row).ledger.OpenAt t snap ∨ none = some (t, snap)) ↔
      (w.store.ledger.OpenAt t snap ∨ some (t₀, row.snapshotVersion) = some (t, snap))
    rw [Store.ledger_putTxnState, openAt_setRow_new hnone hopen]
    simp [eq_comm]
  case stageNote | readNote | beatNote => exact hback hfits hok rfl rfl hcond.1
  case commitClaim t₀ =>
    rcases w.exec_compareAndSet t₀ _ _ with ⟨r, hr, hst, heq⟩ | ⟨-, heq⟩ <;> rw [heq]
    · exact hstay hr (by simp [hst, TxnStatus.Terminal]) (by simp [TxnStatus.Terminal]) rfl
    · exact Iff.rfl
  case abortClaim | sweepClaim => exact hclaim hok rfl
  case storeAborted t₀ row => exact hend hok.1 (by simp [hok.2.1, TxnStatus.Terminal]) (.inr rfl) rfl
  case storeCommitted t₀ row v => exact hend hok.1 (by simp [hok.2.1, TxnStatus.Terminal]) (.inl rfl) rfl
  case storeAlloc t₀ row v =>
    exact hstay hok.1.row_eq (by simp [hok.1.status, TxnStatus.Terminal])
      (by simp [TxnStateRecord.withAlloc, hok.1.status, TxnStatus.Terminal]) rfl

end Inv

namespace Pinned

open Ledger

variable {gc : Prop} {readers : List Nat} {w w' : World} {γ γ' : Phases Act Call Phase} {i : Nat} {c : Call}
  {d : List Act} {g g' : Phase} {t : String} {snap : Nat}

/-- Another call that holds a pin of `t`. -/
def Others (γ : Phases Act Call Phase) (i : Nat) (t : String) (snap : Nat) : Prop :=
  ∃ j ph, j ≠ i ∧ γ j = some ph ∧ ph.phase.holds = some (t, snap)

theorem holder_iff {L : Ledger} (hi : γ i = some ⟨c, d, g⟩) :
    Holder L γ t snap ↔ (L.OpenAt t snap ∨ g.holds = some (t, snap)) ∨ Others γ i t snap := by
  rw [Holder, or_assoc]
  refine or_congr_right ⟨?_, ?_⟩
  · rintro ⟨j, ph, hj, hholds⟩
    by_cases hji : j = i
    · subst hji
      cases hi.symm.trans hj
      exact .inl hholds
    · exact .inr ⟨j, ph, hji, hj, hholds⟩
  · rintro (hholds | ⟨j, ph, -, hj, hholds⟩)
    · exact ⟨i, _, hi, hholds⟩
    · exact ⟨j, ph, hj, hholds⟩

theorem others_update {x : Option (Phased Act Call Phase)} :
    Others (Function.update γ i x) i t snap ↔ Others γ i t snap := by
  refine exists₂_congr fun j ph => and_congr_right fun hji => ?_
  rw [Function.update_of_ne hji]

theorem holder_update_iff {L : Ledger} {d' : List Act} :
    Holder L (Function.update γ i (some ⟨c, d', g'⟩)) t snap ↔
      (L.OpenAt t snap ∨ g'.holds = some (t, snap)) ∨ Others γ i t snap := by
  have hi : Function.update γ i (some ⟨c, d', g'⟩) i = some ⟨c, d', g'⟩ := by simp
  rw [holder_iff hi, others_update]

theorem alone_update {d' : List Act} (h : Pinned readers w γ)
    (hfresh : ∀ t m n, g'.holds = some (t, m) → ¬ Others γ i t n) :
    ∀ j k a b t m n, Function.update γ i (some ⟨c, d', g'⟩) j = some a →
      Function.update γ i (some ⟨c, d', g'⟩) k = some b → a.phase.holds = some (t, m) →
      b.phase.holds = some (t, n) → j = k := by
  intro j k a b t m n hj hk ha hb
  by_cases hji : j = i
  · subst hji
    obtain rfl : ⟨c, d', g'⟩ = a := by simpa using hj
    by_cases hki : k = j
    · exact hki.symm
    · rw [Function.update_of_ne hki] at hk
      exact absurd ⟨k, b, hki, hk, hb⟩ (hfresh t m n ha)
  · rw [Function.update_of_ne hji] at hj
    by_cases hki : k = i
    · subst hki
      obtain rfl : ⟨c, d', g'⟩ = b := by simpa using hk
      exact absurd ⟨j, a, hji, hj, ha⟩ (hfresh t n m hb)
    · rw [Function.update_of_ne hki] at hk
      exact h.alone j k a b t m n hj hk ha hb

theorem not_others (h : Pinned readers w γ) (hinv : Inv gc w γ) (hi : γ i = some ⟨c, d, g⟩) {m n : Nat}
    (hown : w.store.ledger.OpenAt t m ∨ g.holds = some (t, m)) : ¬ Others γ i t n := by
  rintro ⟨j, ph, hji, hj, hholds⟩
  rcases hown with hopen | hown
  · exact hinv.not_open_of_holds hj hholds hopen
  · exact hji (h.alone j i ph _ t n m hj hi hholds hown)

theorem keep (h : Pinned readers w γ) (hpins : w'.store.activeSnapshots = w.store.activeSnapshots)
    (hholder : ∀ t snap, Holder w'.store.ledger γ' t snap ↔ Holder w.store.ledger γ t snap)
    (halone : ∀ i j a b t m n, γ' i = some a → γ' j = some b → a.phase.holds = some (t, m) →
      b.phase.holds = some (t, n) → i = j) : Pinned readers w' γ' :=
  ⟨hpins ▸ h.counts.congr hholder, halone⟩

theorem act {e : Act} {A : e.Res → Prop} {N : e.Res → Phase} (h : Pinned readers w γ) (hinv : Inv gc w γ)
    (hi : γ i = some ⟨c, d, g⟩) (hm : Move g e A N) (hcond : Steady gc w c e) :
    Pinned readers (w.exec e).2 (Function.update γ i (some ⟨c, e :: d, N (w.exec e).1⟩)) := by
  have hpassed : e.KeepsPins →
      Pinned readers (w.exec e).2 (Function.update γ i (some ⟨c, e :: d, N (w.exec e).1⟩)) := by
    intro hk
    refine h.keep (hk.snapshots_eq w) (fun t snap => ?_) (h.alone_update fun t m n hholds => ?_)
    · rw [holder_update_iff, holder_iff hi, hinv.pin_passed hi hm hcond hk]
    · exact h.not_others hinv hi ((hinv.pin_passed hi hm hcond hk).1 (.inr hholds))
  -- the call releases the pin it holds
  have hreleased : ∀ {t snap} {g' : Phase}, g.holds = some (t, snap) → g'.holds = none →
      Pinned readers (w.exec (.unregisterSnapshot snap)).2
        (Function.update γ i (some ⟨c, .unregisterSnapshot snap :: d, g'⟩)) := by
    intro t snap g' hg hg'
    have hledger : (w.exec (.unregisterSnapshot snap)).2.store.ledger = w.store.ledger :=
      Act.Silent.ledger (a := .unregisterSnapshot snap) trivial w
    refine ⟨h.counts.release ((holder_iff hi).2 (.inl (.inr hg))) fun t' n => ?_,
      h.alone_update fun t' m n hholds => by rw [hg'] at hholds; cases hholds⟩
    rw [hledger, holder_update_iff, holder_iff hi, hg, hg']
    have hnot : ∀ n, ¬ w.store.ledger.OpenAt t n := fun n => hinv.not_open_of_holds hi hg
    have hothers : ∀ n, ¬ Others γ i t n := fun n => h.not_others hinv hi (.inr hg)
    simp only [reduceCtorEq, or_false, Option.some.injEq, ne_eq, Prod.mk.injEq]
    constructor
    · intro hholder
      refine ⟨hholder.imp_left .inl, ?_⟩
      rintro ⟨rfl, rfl⟩
      exact hholder.elim (hnot _) (hothers _)
    · rintro ⟨(hopen | ⟨rfl, rfl⟩) | hother, hne⟩
      · exact .inl hopen
      · exact absurd ⟨rfl, rfl⟩ hne
      · exact .inr hother
  cases hm <;> try exact hpassed trivial
  case publish ha | tidyReleased ha | tidyAborting ha => exact hpassed (by cases ha <;> trivial)
  case finish => exact hreleased rfl rfl
  case release t snap sweep => exact hreleased rfl (by cases sweep <;> rfl)
  case capture t idem now =>
    have hrow : w.store.ledger.row t = none := hinv.phases i _ hi
    have hbegins : c.begins = some t := hinv.fits i _ hi
    have hnot : ∀ n, ¬ w.store.ledger.OpenAt t n := by
      rintro n ⟨row, hr, -⟩
      rw [hrow] at hr
      cases hr
    have hothers : ∀ n, ¬ Others γ i t n := by
      rintro n ⟨j, ph, hji, hj, hholds⟩
      have hok := hinv.phases j ph hj
      have hfits := hinv.fits j ph hj
      cases hg : ph.phase <;> rw [hg] at hholds hok hfits <;> try (cases hholds; done)
      all_goals cases hholds
      case captured.refl => exact hji (hinv.begins j i ph _ t hj hi hfits hbegins)
      case finishing.refl =>
        obtain ⟨r, hr, -⟩ := hok
        rw [hrow] at hr
        cases hr
      case aborting.refl =>
        obtain ⟨r, hr, -⟩ := hok
        rw [hrow] at hr
        cases hr
    refine ⟨h.counts.take (t := t) ?_ fun t' n => ?_, h.alone_update fun t' m n hholds => ?_⟩
    · rw [holder_iff hi]
      rintro ((hopen | hholds) | hother)
      · exact hnot _ hopen
      · cases hholds
      · exact hothers _ hother
    · rw [holder_update_iff, holder_iff hi]
      change ((w.store.ledger.OpenAt t' n ∨ some (t, w.store.globalVersion) = some (t', n)) ∨ Others γ i t' n) ↔
        ((w.store.ledger.OpenAt t' n ∨ none = some (t', n)) ∨ Others γ i t' n) ∨ (t', n) = (t, w.store.globalVersion)
      simp only [reduceCtorEq, or_false, Option.some.injEq, eq_comm (a := (t', n))]
      tauto
    · cases hholds
      exact hothers n

theorem spawn (h : Pinned readers w γ) (hi : γ i = none) :
    Pinned readers w (Function.update γ i (some ⟨c, [], c.start⟩)) := by
  have hstart : ∀ x, c.start.holds ≠ some x := by cases c <;> simp [Call.start, Phase.holds]
  refine h.keep rfl (fun t snap => ?_) (h.alone_update fun t m n hholds => absurd hholds (hstart _))
  rw [holder_update_iff, Holder, or_assoc]
  refine or_congr_right ⟨?_, ?_⟩
  · rintro (hholds | ⟨j, ph, -, hj, hholds⟩)
    · exact absurd hholds (hstart _)
    · exact ⟨j, ph, hj, hholds⟩
  · rintro ⟨j, ph, hj, hholds⟩
    refine .inr ⟨j, ph, ?_, hj, hholds⟩
    rintro rfl
    rw [hi] at hj
    cases hj

theorem finish (h : Pinned readers w γ) {ph : Phased Act Call Phase} (hi : γ i = some ph) (hq : ph.phase.Quiet) :
    Pinned readers w (Function.update γ i none) := by
  have hnone : ∀ x, ph.phase.holds ≠ some x := by
    cases hg : ph.phase <;> rw [hg] at hq <;> first | exact hq.elim | simp [Phase.holds]
  have hupdate : ∀ {j : Nat} {a : Phased Act Call Phase} {x : String × Nat}, a.phase.holds = some x →
      (Function.update γ i none j = some a ↔ γ j = some a) := by
    intro j a x hholds
    by_cases hji : j = i
    · subst hji
      rw [Function.update_self, hi, Option.some.injEq]
      refine iff_of_false nofun ?_
      rintro rfl
      exact hnone x hholds
    · rw [Function.update_of_ne hji]
  refine h.keep rfl (fun t snap => or_congr_right ?_) fun j k a b t m n hj hk ha hb => ?_
  · exact exists₂_congr fun j a => and_congr_left fun hholds => hupdate hholds
  · exact h.alone j k a b t m n ((hupdate ha).1 hj) ((hupdate hb).1 hk) ha hb

theorem acquire (h : Pinned readers w γ) (hstore : w'.store = w.store.captureAndRegisterSnapshot.2) :
    Pinned (w.store.globalVersion :: readers) w' γ := by
  obtain ⟨H, hH, hcount⟩ := h.counts.count
  have hledger : w'.store.ledger = w.store.ledger := by rw [hstore]; rfl
  refine ⟨⟨hstore ▸ Store.capture_positive h.counts.positive, H, fun t snap => hledger ▸ hH t snap, fun v => ?_⟩,
    h.alone⟩
  change w'.store.pins v = _
  rw [hstore, Store.pins_capture, Store.pins, hcount, List.count_cons]
  simp only [beq_iff_eq, eq_comm (a := v)]
  omega

theorem dropReader (h : Pinned readers w γ) (hmem : snap ∈ readers)
    (hstore : w'.store = w.store.unregisterSnapshot snap) : Pinned (readers.erase snap) w' γ := by
  obtain ⟨H, hH, hcount⟩ := h.counts.count
  have hledger : w'.store.ledger = w.store.ledger := by
    rw [hstore]
    exact Act.Silent.ledger (a := .unregisterSnapshot snap) trivial w
  refine ⟨⟨hstore ▸ Store.unregister_positive h.counts.positive, H, fun t n => hledger ▸ hH t n, fun v => ?_⟩,
    h.alone⟩
  change w'.store.pins v = _
  rw [hstore, Store.pins_unregister, Store.pins, hcount]
  by_cases hv : v = snap
  · subst hv
    have hpos : 0 < readers.count v := List.count_pos_iff.2 hmem
    rw [List.count_erase_self, if_pos rfl]
    omega
  · rw [List.count_erase_of_ne hv, if_neg hv]
    omega

theorem idle : Pinned [] {} fun _ => none :=
  ⟨⟨by simp, fun _ => ∅, by simp [Holder, OpenAt, Store.ledger], by simp⟩, by simp⟩

end Pinned

/-! ## Counting -/

def Store.openTxns (s : Store) (snap : Nat) : List String :=
  (s.txnState.toList.filter fun x => x.2.snapshotVersion = snap && !decide x.2.status.Terminal).map (·.1)

theorem Store.mem_openTxns {s : Store} {t : String} {snap : Nat} : t ∈ s.openTxns snap ↔ s.ledger.OpenAt t snap := by
  simp only [openTxns, List.mem_map, List.mem_filter, Bool.and_eq_true, decide_eq_true_eq, Bool.not_eq_true',
    decide_eq_false_iff_not, Ledger.OpenAt, Prod.exists, exists_and_right, exists_eq_right]
  exact exists_congr fun row => by rw [Table.mem_toList, and_comm (a := row.snapshotVersion = snap)]; rfl

theorem Store.nodup_openTxns (s : Store) (snap : Nat) : (s.openTxns snap).Nodup :=
  Table.nodup_keys.sublist (List.filter_sublist.map _)

theorem Pinned.count_eq {readers : List Nat} {w : World} (h : Pinned readers w fun _ => none) (snap : Nat) :
    w.store.pins snap = (w.store.openTxns snap).length + readers.count snap := by
  obtain ⟨H, hH, hcount⟩ := h.counts.count
  have hset : H snap = (w.store.openTxns snap).toFinset := by
    ext t
    rw [hH, List.mem_toFinset, Store.mem_openTxns]
    simp [Holder]
  rw [Store.pins, hcount, hset, List.toFinset_card_of_nodup (w.store.nodup_openTxns snap)]

end Xtable

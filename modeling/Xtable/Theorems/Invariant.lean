import Xtable.Theorems.Effects

/-! `Inv` holds at every moment of every interleaving in which the calls that write a whole row back find it still
    `Active`. The moves are grouped by their effect on the ledger. -/

namespace Xtable

open Pool (Phases Phased)

variable {b : Table String SiTxnLocks} {r : TxnStateRecord} {t : String}

/-! ## Effects of the actions -/

/-- Actions that neither rows, WAL, version counter nor chains depend on. -/
def Act.Silent : Act → Prop
  | putTxnState _ _ | deleteTxnState _ | compareAndSetTxnStatus _ _ _ | appendWal _ | truncateWal _
  | nextGlobalVersion | appendChainEntriesBulk _ | gcChainsAtActiveSnapshot => False
  | _ => True

def Act.registers : Act → Option String
  | lockBeginTxn t _ => some t
  | _ => none

theorem Act.Silent.ledger {a : Act} (h : a.Silent) (w : World) : (w.exec a).2.store.ledger = w.store.ledger := by
  cases a <;> try first | exact h.elim | rfl
  case unregisterSnapshot snap =>
    simp only [World.exec, World.setStore, Store.unregisterSnapshot]
    split <;> rfl

theorem Act.Silent.walBound {a : Act} (h : a.Silent) {w : World} (hw : w.store.WalBound) :
    (w.exec a).2.store.WalBound := by
  cases a <;> try first | exact h.elim | exact hw
  case unregisterSnapshot snap =>
    simp only [World.exec, World.setStore, Store.unregisterSnapshot]
    split <;> exact hw

theorem World.exec_compareAndSet (w : World) (t : String) (old new : TxnStatus) :
    (∃ r, w.store.txnState[t]? = some r ∧ r.status = old ∧
      w.exec (.compareAndSetTxnStatus t old new) =
        (true, { w with store := w.store.putTxnState t { r with status := new } })) ∨
    ((∀ r, w.store.txnState[t]? = some r → r.status ≠ old) ∧
      w.exec (.compareAndSetTxnStatus t old new) = (false, w)) := by
  simp only [exec, onStore]
  rcases Store.compareAndSet_eq (s := w.store) (t := t) with ⟨r, hr, hst, heq⟩ | ⟨hne, heq⟩ <;> rw [heq]
  · exact .inl ⟨r, hr, hst, rfl⟩
  · exact .inr ⟨hne, rfl⟩

namespace SiLockManager

variable {m : SiLockManager} {t t' key : String} {v : Nat}

theorem addInEdge_none {reader : String} {e : SIEdge} (h : b[t]? = none) : (addInEdge b reader e)[t]? = none := by
  unfold addInEdge
  split
  case h_1 locks hr =>
    have hne : reader ≠ t := by
      rintro rfl
      rw [h] at hr
      cases hr
    simp [hne, h]
  case h_2 => exact h

theorem mirrorEdge_none {edge : String × String} (h : b[t]? = none) : (mirrorEdge t' v b edge)[t]? = none := by
  unfold mirrorEdge
  split
  case h_1 peer hr =>
    have hne : edge.1 ≠ t := by
      rintro rfl
      rw [h] at hr
      cases hr
    split
    · exact h
    · simp [hne, h]
  case h_2 => exact h

theorem foldl_none {α : Type} {f : Table String SiTxnLocks → α → Table String SiTxnLocks}
    (hf : ∀ b x, b[t]? = none → (f b x)[t]? = none) (l : List α) (h : b[t]? = none) : (l.foldl f b)[t]? = none := by
  induction l generalizing b with
  | nil => exact h
  | cons x rest ih => exact ih (hf b x h)

theorem update_none {f : SiTxnLocks → SiTxnLocks} (h : b[t]? = none) : (match b[t']? with
      | some entry => b.insert t' (f entry)
      | none => b)[t]? = none := by
  split
  case h_1 entry hr =>
    have hne : t' ≠ t := by
      rintro rfl
      rw [h] at hr
      cases hr
    simp [hne, h]
  case h_2 => exact h

end SiLockManager

theorem World.exec_unknown {w : World} {a : Act} (h : w.locks.byTxn[t]? = none)
    (ha : ∀ snap, a ≠ .lockBeginTxn t snap) : (w.exec a).2.locks.byTxn[t]? = none := by
  cases a <;> try exact h
  case lockBeginTxn t' snap =>
    have hne : t' ≠ t := by
      rintro rfl
      exact ha snap rfl
    simp only [exec, SiLockManager.beginTxn]
    split
    · exact h
    · simp [hne, h]
  case registerRead t' key v etag => exact SiLockManager.update_none h
  case registerWrite t' key v =>
    exact SiLockManager.foldl_none (fun _ _ => SiLockManager.addInEdge_none) _ (SiLockManager.update_none h)
  case markCommitted t' v =>
    exact SiLockManager.foldl_none (fun _ _ => SiLockManager.mirrorEdge_none) _
      (SiLockManager.update_none (f := fun entry => { entry with status := .committed }) h)
  case markAborted t' => simp [exec, setLocks, SiLockManager.markAborted, h]

theorem Move.fits {g : Phase} {e : Act} {A : e.Res → Prop} {N : e.Res → Phase} (h : Move g e A N) {c : Call}
    (hg : g.Fits c) (r : e.Res) : (N r).Fits c := by
  have hactive : ∀ {k : TxnStateRecord → Phase} {other : Phase}, (∀ row, (k row).Fits c) → other.Fits c →
      ∀ r, (Phase.onActive k other r).Fits c := by
    rintro k other hk ho (_ | row)
    · exact ho
    · simp only [Phase.onActive]
      split
      · exact hk row
      · exact ho
  cases h <;> try first | exact hg | trivial
  case stageRequire | readRequire | beatRequire | commitLook =>
    refine hactive (fun _ => ?_) ?_ r
    · exact hg
    · trivial
  case commitClaim => cases r <;> exact hg
  case load =>
    cases r
    · trivial
    · exact hg
  case check =>
    simp only
    split <;> exact hg
  case abortLook | sweepLook => refine hactive (fun _ => ?_) ?_ r <;> trivial
  case abortClaim | sweepClaim => cases r <;> trivial
  case release => split <;> trivial

/-! ## The invariant -/

/-- The life-cycle invariant over the process state and the phases of the calls in flight. -/
structure Inv (gc : Prop) (w : World) (γ : Phases Act Call Phase) : Prop where
  wal : w.store.WalBound
  sound : w.store.ledger.Sound gc
  committing : ∀ t row, w.store.ledger.row t = some row → row.status = .committing →
    w.store.ledger.Stuck gc t row ∨ ∃ i ph, γ i = some ph ∧ ph.phase.owns = some t
  phases : ∀ i ph, γ i = some ph → w.store.ledger.PhaseOk gc ph.phase
  fits : ∀ i ph, γ i = some ph → ph.phase.Fits ph.call
  unregistered : ∀ i ph t, γ i = some ph → ph.phase.unregistered = some t → w.locks.byTxn[t]? = none
  exclusive : ∀ i j a b, γ i = some a → γ j = some b → a.call.exclusive → b.call.exclusive → i = j
  begins : ∀ i j a b t, γ i = some a → γ j = some b → a.call.begins = some t → b.call.begins = some t → i = j

theorem Inv.quiet {gc : Prop} {w : World} (hwal : w.store.WalBound) (hsound : w.store.ledger.Sound gc)
    (hstuck : ∀ t row, w.store.ledger.row t = some row → row.status = .committing →
      w.store.ledger.Stuck gc t row) : Inv gc w fun _ => none :=
  ⟨hwal, hsound, fun t row hrow hst => .inl (hstuck t row hrow hst), by simp, by simp, by simp, by simp, by simp⟩

theorem Inv.of_eq {gc : Prop} {w w' : World} {γ : Phases Act Call Phase} (h : Inv gc w γ) (hwal : w'.store.WalBound)
    (hledger : w'.store.ledger = w.store.ledger) (hlocks : w'.locks = w.locks) : Inv gc w' γ where
  wal := hwal
  sound := hledger ▸ h.sound
  committing := hledger ▸ h.committing
  phases := hledger ▸ h.phases
  fits := h.fits
  unregistered := hlocks ▸ h.unregistered
  exclusive := h.exclusive
  begins := h.begins

theorem Store.sound_empty {gc : Prop} : ({} : Store).ledger.Sound gc := by
  have hrow : ∀ t, ({} : Store).ledger.row t = none := by simp [Store.ledger]
  have hchain : ∀ k, ({} : Store).ledger.chain k = [] := by simp [Store.ledger, Store.readChain, VersionChain.new]
  have hwal : ({} : Store).iterWal = [] := rfl
  refine ⟨by simp [hchain], by simp [hchain], by simp [hrow], fun t _ => ?_, by simp [hrow]⟩
  simp [Store.ledger, hwal, Recovery.replay]

theorem World.inv_empty (gc : Prop) : Inv gc {} fun _ => none := by
  refine .quiet ?_ Store.sound_empty ?_
  · intro n r hn
    simp at hn
  · intro t row hrow
    simp [Store.ledger] at hrow

/-- A call that writes a row back finds it still `Active`. -/
def WriteBackActive (w : World) (c : Call) (e : Act) : Prop :=
  c.writesBack = true → ∀ t r, e = .putTxnState t r →
    ∃ row, w.store.txnState[t]? = some row ∧ row.status = .active

/-- The condition on each action: write-backs find the row `Active`, and `gc` says whether chains are collected. -/
def Steady (gc : Prop) (w : World) (c : Call) (e : Act) : Prop :=
  WriteBackActive w c e ∧ (e = .gcChainsAtActiveSnapshot → gc)

theorem Phase.Quiet.owns {g : Phase} (h : g.Quiet) : g.owns = none := by
  cases g <;> first | rfl | exact h.elim

theorem Phase.Fits.exclusive {g : Phase} {c : Call} (h : g.Fits c) (hown : g.owns = some t) : c.exclusive = true := by
  cases g <;> try (cases hown; done)
  all_goals
    obtain ⟨aged, rfl⟩ := h
    rfl

theorem Phase.Fits.begins {g : Phase} {c : Call} (h : g.Fits c) (hun : g.unregistered = some t) :
    c.begins = some t := by
  cases g <;> try (cases hun; done)
  all_goals
    cases hun
    exact h

theorem Phase.unregistered_of_drawn {g : Phase} (h : g.drawn = some t) : g.unregistered = some t := by
  cases g <;> first | exact h | cases h

namespace Inv

open Ledger

variable {gc : Prop} {w w' : World} {γ : Phases Act Call Phase} {i : Nat} {c : Call} {d : List Act}
  {g g' : Phase} {e : Act} {t : String}

section

variable (h : Inv gc w γ) (hi : γ i = some ⟨c, d, g⟩)

include h hi

theorem update (hwal : w'.store.WalBound) (hsound : w'.store.ledger.Sound gc)
    (hcommitting : ∀ t row, w'.store.ledger.row t = some row → row.status = .committing →
      g'.owns = some t ∨ w'.store.ledger.Stuck gc t row ∨
        ∃ j ph, j ≠ i ∧ γ j = some ph ∧ ph.phase.owns = some t)
    (hothers : ∀ j ph, j ≠ i → γ j = some ph → w'.store.ledger.PhaseOk gc ph.phase)
    (hlocks : ∀ t, w.locks.byTxn[t]? = none → c.begins ≠ some t → w'.locks.byTxn[t]? = none)
    (hphase : w'.store.ledger.PhaseOk gc g') (hfits : g'.Fits c)
    (hunreg : ∀ t, g'.unregistered = some t → w'.locks.byTxn[t]? = none) :
    Inv gc w' (Function.update γ i (some ⟨c, e :: d, g'⟩)) := by
  refine ⟨hwal, hsound, ?_, ?_, ?_, ?_, ?_, ?_⟩
  · intro t row hrow hst
    rcases hcommitting t row hrow hst with hown | hstuck | ⟨j, ph, hji, hj, hown⟩
    · exact .inr ⟨i, ⟨c, e :: d, g'⟩, by simp, hown⟩
    · exact .inl hstuck
    · exact .inr ⟨j, ph, by simpa [hji] using hj, hown⟩
  · intro j ph hj
    rcases Pool.update_some_inv hj with ⟨rfl, rfl⟩ | ⟨hji, hj⟩
    · exact hphase
    · exact hothers j ph hji hj
  · intro j ph hj
    rcases Pool.update_some_inv hj with ⟨rfl, rfl⟩ | ⟨-, hj⟩
    · exact hfits
    · exact h.fits j ph hj
  · intro j ph t hj hun
    rcases Pool.update_some_inv hj with ⟨rfl, rfl⟩ | ⟨hji, hj⟩
    · exact hunreg t hun
    · refine hlocks t (h.unregistered j ph t hj hun) fun hb => hji ?_
      exact h.begins j i ph _ t hj hi ((h.fits j ph hj).begins hun) hb
  · intro j k a b hj hk ha hb
    obtain ⟨a₀, hj₀, ha₀⟩ := Pool.update_some_call hi hj rfl
    obtain ⟨b₀, hk₀, hb₀⟩ := Pool.update_some_call hi hk rfl
    exact h.exclusive j k a₀ b₀ hj₀ hk₀ (ha₀ ▸ ha) (hb₀ ▸ hb)
  · intro j k a b t hj hk ha hb
    obtain ⟨a₀, hj₀, ha₀⟩ := Pool.update_some_call hi hj rfl
    obtain ⟨b₀, hk₀, hb₀⟩ := Pool.update_some_call hi hk rfl
    exact h.begins j k a₀ b₀ t hj₀ hk₀ (ha₀ ▸ ha) (hb₀ ▸ hb)

theorem calm (hwal : w'.store.WalBound)
    (hsound : w'.store.ledger.Sound gc) (hcalm : Calm gc w.store.ledger w'.store.ledger)
    (hown : g.owns = none)
    (habsent : ∀ t, w.store.ledger.row t = none → c.begins ≠ some t → w'.store.ledger.row t = none)
    (hcommitting : ∀ t row, w'.store.ledger.row t = some row → row.status = .committing →
      g'.owns = some t ∨ w.store.ledger.row t = some row)
    (hlocks : ∀ t, w.locks.byTxn[t]? = none → c.begins ≠ some t → w'.locks.byTxn[t]? = none)
    (hphase : w'.store.ledger.PhaseOk gc g') (hfits : g'.Fits c)
    (hunreg : ∀ t, g'.unregistered = some t → w'.locks.byTxn[t]? = none) :
    Inv gc w' (Function.update γ i (some ⟨c, e :: d, g'⟩)) := by
  refine h.update hi hwal hsound ?_ ?_ hlocks hphase hfits hunreg
  · intro t row hrow hst
    rcases hcommitting t row hrow hst with hnew | hold
    · exact .inl hnew
    rcases h.committing t row hold hst with hstuck | ⟨j, ph, hj, hph⟩
    · exact .inr (.inl (hcalm.stuck h.sound hold hst hstuck))
    · refine .inr (.inr ⟨j, ph, ?_, hj, hph⟩)
      rintro rfl
      cases hi.symm.trans hj
      rw [hown] at hph
      cases hph
  · intro j ph hji hj
    have hok := h.phases j ph hj
    cases howns : ph.phase.owns with
    | some t => exact hok.calm hcalm h.sound howns
    | none =>
      cases hdrawn : ph.phase.drawn with
      | none => exact hok.rely hcalm.toRely howns hdrawn
      | some t =>
        have hbegins := (h.fits j ph hj).begins (Phase.unregistered_of_drawn hdrawn)
        have hne : c.begins ≠ some t := fun hb => hji (h.begins j i ph _ t hj hi hbegins hb)
        exact hok.absent hdrawn (habsent t (hok.row_of_drawn hdrawn) hne) hcalm.version

theorem owner (hwal : w'.store.WalBound)
    (hsound : w'.store.ledger.Sound gc) (hframe : Frame gc t w.store.ledger w'.store.ledger)
    (hrely : Rely w.store.ledger w'.store.ledger) (hown : g.owns = some t)
    (hcommitting : ∀ row, w'.store.ledger.row t = some row → row.status = .committing →
      g'.owns = some t)
    (hlocks : ∀ t, w.locks.byTxn[t]? = none → c.begins ≠ some t → w'.locks.byTxn[t]? = none)
    (hphase : w'.store.ledger.PhaseOk gc g') (hfits : g'.Fits c)
    (hunreg : ∀ t, g'.unregistered = some t → w'.locks.byTxn[t]? = none) :
    Inv gc w' (Function.update γ i (some ⟨c, e :: d, g'⟩)) := by
  have hexcl : c.exclusive = true := (h.fits i _ hi).exclusive hown
  have hrow : w.store.ledger.row t ≠ none := (h.phases i _ hi).row_of_owns hown
  refine h.update hi hwal hsound ?_ ?_ hlocks hphase hfits hunreg
  · intro t' row hrow' hst
    by_cases ht : t' = t
    · subst ht
      exact .inl (hcommitting row hrow' hst)
    rw [hframe.row t' ht] at hrow'
    rcases h.committing t' row hrow' hst with hstuck | ⟨j, ph, hj, hph⟩
    · exact .inr (.inl (hframe.stuck ht hrow' hst hstuck))
    · refine .inr (.inr ⟨j, ph, ?_, hj, hph⟩)
      rintro rfl
      cases hi.symm.trans hj
      exact ht (Option.some.inj (hph.symm.trans hown))
  · intro j ph hji hj
    have hok := h.phases j ph hj
    have howns : ph.phase.owns = none := by
      cases howns : ph.phase.owns with
      | none => rfl
      | some t' => exact absurd (h.exclusive j i ph _ hj hi ((h.fits j ph hj).exclusive howns) hexcl) hji
    cases hdrawn : ph.phase.drawn with
    | none => exact hok.rely hrely howns hdrawn
    | some t' =>
      have hnone := hok.row_of_drawn hdrawn
      have ht : t' ≠ t := by
        rintro rfl
        exact hrow hnone
      exact hok.absent hdrawn ((hframe.row t' ht).trans hnone) hrely.version

/-! ### By effect on the ledger -/

theorem silent (he : e.Silent) (howns : g'.owns = g.owns) (hphase : w.store.ledger.PhaseOk gc g') (hfits : g'.Fits c)
    (hlock : ∀ t snap, e = .lockBeginTxn t snap → c.begins = some t ∧ g'.unregistered = none)
    (hunreg : ∀ t, g'.unregistered = some t → g.unregistered = some t) :
    Inv gc (w.exec e).2 (Function.update γ i (some ⟨c, e :: d, g'⟩)) := by
  have hL := he.ledger w
  have hlocks : ∀ t, w.locks.byTxn[t]? = none → c.begins ≠ some t → (w.exec e).2.locks.byTxn[t]? = none :=
    fun t hnone hb => World.exec_unknown hnone fun snap heq => hb (hlock t snap heq).1
  have hun : ∀ t, g'.unregistered = some t → (w.exec e).2.locks.byTxn[t]? = none := by
    intro t hg'
    refine World.exec_unknown (h.unregistered i _ t hi (hunreg t hg')) fun snap heq => ?_
    rw [(hlock t snap heq).2] at hg'
    cases hg'
  cases hown : g.owns with
  | none =>
    refine h.calm hi (he.walBound h.wal) (hL ▸ h.sound) ?_ hown ?_ ?_ hlocks (hL ▸ hphase) hfits hun
    · rw [hL]
      exact .refl _
    · rw [hL]
      exact fun _ hr _ => hr
    · rw [hL]
      exact fun _ _ hr _ => .inr hr
  | some t =>
    refine h.owner hi (he.walBound h.wal) (hL ▸ h.sound) ?_ ?_ hown (fun _ _ _ => howns.trans hown) hlocks
      (hL ▸ hphase) hfits hun
    · rw [hL]
      exact ⟨fun _ _ => rfl, fun _ _ => rfl, fun _ _ hc => hc, fun _ _ _ _ _ hl => hl⟩
    · rw [hL]
      exact .refl _

theorem unheard (he : e.Silent) (howns : g'.owns = g.owns)
    (hphase : w.store.ledger.PhaseOk gc g') (hfits : g'.Fits c) (hlock : e.registers = none)
    (hunreg : g'.unregistered = none) : Inv gc (w.exec e).2 (Function.update γ i (some ⟨c, e :: d, g'⟩)) := by
  refine h.silent hi he howns hphase hfits ?_ fun t ht => ?_
  · rintro t snap rfl
    cases hlock
  · rw [hunreg] at ht
    cases ht

theorem log_calm {rec : WalRecord} (hown : g.owns = none)
    (hid : rec.txnId = some t) (hr : w.store.ledger.row t = some r)
    (hopen : r.status = .active → (w.store.ledger.log rec).Open t)
    (hcalm : Calm gc w.store.ledger (w.store.ledger.log rec)) (hphase : w.store.ledger.PhaseOk gc g')
    (hown' : g'.owns = none) (hdrawn : g'.drawn = none) (hfits : g'.Fits c) (hunreg : g'.unregistered = none) :
    Inv gc (w.exec (.appendWal rec)).2 (Function.update γ i (some ⟨c, .appendWal rec :: d, g'⟩)) := by
  have hL : (w.exec (.appendWal rec)).2.store.ledger = w.store.ledger.log rec :=
    Store.ledger_appendWal h.wal rec
  have hwal : (w.exec (.appendWal rec)).2.store.WalBound := Store.walBound_appendWal h.wal rec
  refine h.calm hi hwal ?_ (hL ▸ hcalm) hown ?_ ?_ (fun _ hn _ => hn) ?_ hfits (by simp [hunreg])
  · rw [hL]
    exact h.sound.log hid hr hopen
  · rw [hL, log_row]
    exact fun _ hn _ => hn
  · rw [hL, log_row]
    exact fun _ _ hn _ => .inr hn
  · rw [hL]
    exact hphase.rely hcalm.toRely hown' hdrawn

theorem log_owner {rec : WalRecord} (hown : g.owns = some t)
    (hid : rec.txnId = some t) (hr : w.store.ledger.row t = some r) (hst : r.status = .committing)
    (hown' : g'.owns = some t) (hphase : (w.store.ledger.log rec).PhaseOk gc g') (hfits : g'.Fits c)
    (hunreg : g'.unregistered = none) :
    Inv gc (w.exec (.appendWal rec)).2 (Function.update γ i (some ⟨c, .appendWal rec :: d, g'⟩)) := by
  have hL : (w.exec (.appendWal rec)).2.store.ledger = w.store.ledger.log rec :=
    Store.ledger_appendWal h.wal rec
  have hwal : (w.exec (.appendWal rec)).2.store.WalBound := Store.walBound_appendWal h.wal rec
  refine h.owner hi hwal ?_ (hL ▸ .log hid) (hL ▸ .log) hown (fun _ _ _ => hown') (fun _ hn _ => hn)
    (hL ▸ hphase) hfits (by simp [hunreg])
  rw [hL]
  exact h.sound.log hid hr (by simp [hst])

theorem setRow_calm {r₀ : TxnStateRecord} (hown : g.owns = none)
    (hL : w'.store.ledger = w.store.ledger.setRow t r) (hwal : w'.store.WalBound) (hlocks : w'.locks = w.locks)
    (hr₀ : w.store.ledger.row t = some r₀) (hactive : r₀.status = .active)
    (hsnap : r.snapshotVersion = r₀.snapshotVersion) (hnil : r.allocVersions = []) (hnodup : r.writeKeys.Nodup)
    (hst : r.status ≠ .committed) (hcommitting : r.status = .committing → g'.owns = some t)
    (hphase : (w.store.ledger.setRow t r).PhaseOk gc g') (hfits : g'.Fits c) (hunreg : g'.unregistered = none) :
    Inv gc w' (Function.update γ i (some ⟨c, e :: d, g'⟩)) := by
  have hok := h.sound.rows t r₀ hr₀
  obtain ⟨-, hopen, hclear⟩ := hok.active hactive
  have hrow : w.store.ledger.RowOk gc t r :=
    ⟨hsnap ▸ hok.snapshot, hnodup, fun _ => ⟨hnil, hopen, hclear⟩, fun hc => absurd hc hst, fun _ => hclear⟩
  refine h.calm hi hwal ?_ (hL ▸ .setRow hr₀ hactive hsnap hnil) hown ?_ ?_ (fun _ hn _ => hlocks ▸ hn)
    (hL ▸ hphase) hfits (by simp [hunreg])
  · rw [hL]
    exact h.sound.setRow_clear hrow hclear hnil
  · intro t' hnone _
    rw [hL]
    have hne : t' ≠ t := by
      rintro rfl
      simp [hr₀] at hnone
    simpa [hne] using hnone
  · intro t' row hrow' hst'
    rw [hL] at hrow'
    rcases setRow_row_inv hrow' with ⟨rfl, rfl⟩ | ⟨-, hrow'⟩
    · exact .inl (hcommitting hst')
    · exact .inr hrow'

theorem setRow_owner {r₀ : TxnStateRecord} (hown : g.owns = some t)
    (hr₀ : w.store.ledger.row t = some r₀) (hst : r₀.status = .committing)
    (hsnap : r.snapshotVersion = r₀.snapshotVersion) (hsound : (w.store.ledger.setRow t r).Sound gc)
    (hcommitting : r.status = .committing → g'.owns = some t) (hphase : (w.store.ledger.setRow t r).PhaseOk gc g')
    (hfits : g'.Fits c) (hunreg : g'.unregistered = none) :
    Inv gc (w.exec (.putTxnState t r)).2 (Function.update γ i (some ⟨c, .putTxnState t r :: d, g'⟩)) := by
  have hL : (w.exec (.putTxnState t r)).2.store.ledger = w.store.ledger.setRow t r :=
    Store.ledger_putTxnState w.store t r
  refine h.owner hi h.wal (hL ▸ hsound) (hL ▸ .setRow)
    (hL ▸ .setRow hr₀ (by simp [hst, TxnStatus.Terminal]) hsnap) hown ?_ (fun _ hn _ => hn) (hL ▸ hphase)
    hfits (by simp [hunreg])
  intro row hrow hst'
  rw [hL, setRow_row_self, Option.some.injEq] at hrow
  exact hcommitting (hrow ▸ hst')

end

end Inv

end Xtable

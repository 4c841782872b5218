import Xtable.Theorems.Interleaving
import Xtable.Theorems.Restart

/-! Runs of whole coordinator operations, with crashes inside an operation and restarts. A call that runs alone
    finds the row it writes back as it has read it, so the life-cycle invariant needs no condition. -/

namespace Xtable

open Pool (Phases Phased)

/-- One call in flight, and nothing else. -/
def solo (c : Call) (d : List Act) (g : Phase) : Phases Act Call Phase :=
  Function.update (fun _ => none) 0 (some ⟨c, d, g⟩)

/-- The row that a call has read is still the stored one. -/
def Phase.Fresh (L : Ledger) : Phase → Prop
  | staging t _ txn | staged t _ txn | reading t _ txn | beating t txn => L.row t = some txn
  | _ => True

/-- Phases of a sweep that collects the chains in the end. -/
def Phase.Collects : Phase → Prop
  | sweeping b => b = true
  | abortSeen _ _ sweep | aborting _ _ sweep => sweep = some true
  | _ => False

/-- The life-cycle invariant while one call runs alone. -/
structure Solo (gc : Prop) (c : Call) (w : World) (g : Phase) : Prop where
  inv : ∃ d, Inv gc w (solo c d g)
  fresh : g.Fresh w.store.ledger
  collects : g.Collects → gc

theorem Solo.steady {gc : Prop} {c : Call} {w : World} {g : Phase} (h : Solo gc c w g) {e : Act} {A : e.Res → Prop}
    {N : e.Res → Phase} (hm : Move g e A N) : Steady gc w c e := by
  obtain ⟨d, hinv⟩ := h.inv
  have hi : solo c d g 0 = some ⟨c, d, g⟩ := by simp [solo]
  have hfits := hinv.fits 0 _ hi
  have hok := hinv.phases 0 _ hi
  have hfresh := h.fresh
  refine ⟨?_, ?_⟩
  · rintro hback t r rfl
    cases hm
    case stageNote | readNote | beatNote => exact ⟨_, hfresh, hok.status⟩
    case putRow =>
      cases c <;> first | (cases hback; done) | cases hfits
    case storeAborted | storeAlloc | storeCommitted =>
      obtain ⟨aged, rfl⟩ := hfits
      cases hback
    case publish ha | tidyReleased ha | tidyAborting ha => cases ha
  · rintro rfl
    cases hm
    case collect => exact h.collects rfl
    case publish ha | tidyReleased ha | tidyAborting ha => cases ha

theorem Phase.onActive_fresh {L : Ledger} {k : TxnStateRecord → Phase} {other : Phase} {r : Option TxnStateRecord}
    (hk : ∀ row, r = some row → (k row).Fresh L) (ho : other.Fresh L) : (Phase.onActive k other r).Fresh L := by
  cases r with
  | none => exact ho
  | some row =>
    simp only [Phase.onActive]
    split
    · exact hk row rfl
    · exact ho

theorem Move.fresh {w : World} {g : Phase} {e : Act} {A : e.Res → Prop} {N : e.Res → Phase} (hm : Move g e A N)
    (hfresh : g.Fresh w.store.ledger) : (N (w.exec e).1).Fresh (w.exec e).2.store.ledger := by
  cases hm <;> try first | trivial | exact hfresh
  case stageRequire | readRequire | beatRequire =>
    exact Phase.onActive_fresh (fun row hrow => hrow) trivial
  case commitLook | abortLook | sweepLook =>
    exact Phase.onActive_fresh (fun _ _ => trivial) trivial
  case commitClaim | abortClaim | sweepClaim =>
    simp only
    split <;> trivial
  case load t =>
    cases h : (w.exec (.getTxnState t)).1 <;> trivial
  case check =>
    simp only
    split <;> trivial
  case release t snap sweep =>
    cases sweep <;> trivial

theorem Move.collects {g : Phase} {e : Act} {A : e.Res → Prop} {N : e.Res → Phase} (hm : Move g e A N)
    (r : e.Res) (hc : (N r).Collects) : g.Collects := by
  have hactive : ∀ {k : TxnStateRecord → Phase} {other : Phase} {r : Option TxnStateRecord} {P : Prop},
      (Phase.onActive k other r).Collects → (∀ row, (k row).Collects → P) → (other.Collects → P) → P := by
    intro k other r P hc hk ho
    cases r with
    | none => exact ho hc
    | some row =>
      simp only [Phase.onActive] at hc
      split at hc
      · exact hk row hc
      · exact ho hc
  cases hm <;> try first | exact hc | exact hc.elim
  case stageRequire | readRequire | beatRequire | commitLook | abortLook =>
    refine hactive hc (fun _ h => ?_) fun h => h.elim
    first | exact h | cases h
  case sweepLook b t => exact hactive hc (fun _ h => Option.some.inj h) fun h => h
  case commitClaim | abortClaim =>
    simp only at hc
    split at hc <;> first | exact hc.elim | cases hc
  case sweepClaim b t row =>
    simp only at hc
    split at hc
    · exact hc
    · exact congrArg some hc
  case load t => cases r <;> exact hc.elim
  case check =>
    simp only at hc
    split at hc <;> exact hc.elim
  case storeAborted => cases hc
  case release t snap sweep =>
    cases sweep with
    | none => exact hc.elim
    | some b => exact congrArg some hc

theorem Solo.act {gc : Prop} {c : Call} {w : World} {g : Phase} {e : Act} {A : e.Res → Prop} {N : e.Res → Phase}
    (h : Solo gc c w g) (hm : Move g e A N) : A (w.exec e).1 ∧ Solo gc c (w.exec e).2 (N (w.exec e).1) := by
  obtain ⟨d, hinv⟩ := h.inv
  have hi : solo c d g 0 = some ⟨c, d, g⟩ := by simp [solo]
  obtain ⟨hA, hinv'⟩ := hinv.act hi hm (h.steady hm)
  refine ⟨hA, ⟨⟨e :: d, ?_⟩, hm.fresh h.fresh, fun hc => h.collects (hm.collects _ hc)⟩⟩
  simpa [solo] using hinv'

/-! ## Whole operations -/

section Op

variable {gc : Prop} {env : Env} {c : Call} {w w' : World}

theorem Inv.solo (h : Inv gc w fun _ => none) (hadm : c.admits w [] = true) (hsweep : c.start.Collects → gc) :
    Solo gc c w c.start := by
  refine ⟨⟨[], h.spawn rfl (by simp) hadm⟩, ?_, hsweep⟩
  cases c <;> trivial

theorem Inv.run_keeps (env : Env) {K : World → Phases Act Call Phase → Prop} (h : Inv gc w fun _ => none)
    (hadm : c.admits w [] = true) (hsweep : c.start.Collects → gc) (hK : K w (Xtable.solo c [] c.start))
    (hact : ∀ {w : World} {d : List Act} {g : Phase} {e : Act} {A : e.Res → Prop} {N : e.Res → Phase},
      Inv gc w (Xtable.solo c d g) → K w (Xtable.solo c d g) → Move g e A N → Steady gc w c e →
      K (w.exec e).2 (Xtable.solo c (e :: d) (N (w.exec e).1))) :
    ∃ d g, g.Quiet ∧ Inv gc (c.run env w).2 (Xtable.solo c d g) ∧ K (c.run env w).2 (Xtable.solo c d g) := by
  have hstart : Solo gc c w c.start := h.solo hadm hsweep
  obtain ⟨g, hq, ⟨d, hinv, hKd⟩, -⟩ := Prog.Obeys.run (m := Move)
    (I := fun w g => (∃ d, Inv gc w (Xtable.solo c d g) ∧ K w (Xtable.solo c d g)) ∧
      g.Fresh w.store.ledger ∧ (g.Collects → gc))
    (fun w g e A N hI hm => by
      obtain ⟨⟨d, hinv, hKd⟩, hfresh, hcollects⟩ := hI
      have hs : Solo gc c w g := ⟨⟨d, hinv⟩, hfresh, hcollects⟩
      obtain ⟨hA, hs'⟩ := hs.act hm
      have hi : Xtable.solo c d g 0 = some ⟨c, d, g⟩ := by simp [Xtable.solo]
      have hinv' := (hinv.act hi hm (hs.steady hm)).2
      refine ⟨hA, ⟨e :: d, ?_, hact hinv hKd hm (hs.steady hm)⟩, hs'.fresh, hs'.collects⟩
      simpa [Xtable.solo] using hinv')
    (Call.body_obeys env c) ⟨⟨[], h.spawn rfl (by simp) hadm, hK⟩, hstart.fresh, hstart.collects⟩
  exact ⟨d, g, hq, hinv, hKd⟩

theorem update_solo {d : List Act} {g : Phase} : Function.update (Xtable.solo c d g) 0 none = fun _ => none := by
  simp [Xtable.solo]

section

variable (env) (h : Inv gc w fun _ => none) (hadm : c.admits w [] = true) (hsweep : c.start.Collects → gc)

include h hadm hsweep

theorem Inv.run : Inv gc (c.run env w).2 fun _ => none := by
  obtain ⟨d, g, hq, hinv, -⟩ := h.run_keeps env (K := fun _ _ => True) hadm hsweep trivial fun _ _ _ _ => trivial
  have hi : Xtable.solo c d g 0 = some ⟨c, d, g⟩ := by simp [Xtable.solo]
  exact update_solo ▸ hinv.finish hi hq

theorem Inv.cut_keeps {K : World → List Act → Phase → Prop} (hK : K w [] c.start)
    (hact : ∀ {w : World} {d : List Act} {g : Phase} {e : Act} {A : e.Res → Prop} {N : e.Res → Phase},
      Solo gc c w g → K w d g → Move g e A N → K (w.exec e).2 (d ++ [e]) (N (w.exec e).1)) (n : Nat) :
    ∃ g, ((c.body env).advance World.exec n w).1.Obeys Move g (fun _ g' => g'.Quiet) ∧
      Solo gc c ((c.body env).advance World.exec n w).2 g ∧
      K ((c.body env).advance World.exec n w).2 ((c.body env).performed World.exec n w) g :=
  Prog.Obeys.advance_performed (m := Move) (I := fun w d g => Solo gc c w g ∧ K w d g)
    (fun _ _ _ _ _ _ hs hm => ⟨(hs.1.act hm).1, (hs.1.act hm).2, hact hs.1 hs.2 hm⟩) n
    (Call.body_obeys env c) ⟨h.solo hadm hsweep, hK⟩

theorem Inv.cut (n : Nat) : ((c.body env).advance World.exec n w).2.store.WalBound ∧
      ((c.body env).advance World.exec n w).2.store.ledger.Halted gc := by
  obtain ⟨g, -, hsolo, -⟩ := h.cut_keeps env (K := fun _ _ _ => True) hadm hsweep trivial (fun _ _ _ => trivial) n
  obtain ⟨d, hinv⟩ := hsolo.inv
  exact ⟨hinv.wal, hinv.halted⟩

end

def Op.callOf : Op → Call
  | call c | crash c _ _ _ => c

theorem Inv.step {op : Op} (h : Inv gc w fun _ => none) (hsweep : op.callOf.start.Collects → gc)
    (hstep : op.step env w = some w') : Inv gc w' fun _ => none := by
  cases op with
  | call c =>
    simp only [Op.step] at hstep
    split at hstep
    case isTrue hadm =>
      cases hstep
      exact h.run env hadm hsweep
    case isFalse => cases hstep
  | crash c n nowMs order =>
    simp only [Op.step] at hstep
    split at hstep
    case isTrue hadm =>
      have hcut := h.cut env hadm hsweep n
      exact (World.restart_spec hcut.1 hcut.2 hstep).inv
    case isFalse => cases hstep

end Op

end Xtable

import Xtable.Theorems.Pins
import Xtable.Theorems.Sequential

/-! Whole operations with readers: between any two of them the registry counts exactly the open transactions and the
    live readers. -/

namespace Xtable

theorem Pinned.run {gc : Prop} {readers : List Nat} {w : World} {c : Call} (env : Env)
    (h : Pinned readers w fun _ => none) (hinv : Inv gc w fun _ => none) (hadm : c.admits w [] = true)
    (hsweep : c.start.Collects → gc) : Pinned readers (c.run env w).2 fun _ => none := by
  have hstart : Pinned readers w (solo c [] c.start) := h.spawn rfl
  obtain ⟨d, g, hq, -, hpin⟩ := hinv.run_keeps env (K := Pinned readers) hadm hsweep hstart
    fun {w d g e A N} hinv hpin hm hcond => by
      have hi : solo c d g 0 = some ⟨c, d, g⟩ := by simp [solo]
      simpa [solo] using hpin.act hinv hi hm hcond
  have hi : solo c d g 0 = some ⟨c, d, g⟩ := by simp [solo]
  exact update_solo ▸ hpin.finish hi hq

theorem Serving.step_pinned {env : Env} {op : ClientOp} {s s' : Serving}
    (h : Inv True s.world (fun _ => none) ∧ Pinned s.readers s.world fun _ => none)
    (hstep : op.step env s = some s') :
    Inv True s'.world (fun _ => none) ∧ Pinned s'.readers s'.world fun _ => none := by
  obtain ⟨hinv, hpin⟩ := h
  cases op with
  | call c =>
    simp only [ClientOp.step] at hstep
    split at hstep
    case isFalse => cases hstep
    case isTrue hadm =>
      cases hstep
      exact ⟨hinv.run env hadm fun _ => trivial, hpin.run env hinv hadm fun _ => trivial⟩
  | acquireSnapshot =>
    cases hstep
    exact ⟨hinv.of_eq hinv.wal rfl rfl, hpin.acquire rfl⟩
  | dropReader snap =>
    simp only [ClientOp.step] at hstep
    split at hstep
    case isFalse => cases hstep
    case isTrue hmem =>
      cases hstep
      have hsilent : (Act.unregisterSnapshot snap).Silent := trivial
      exact ⟨hinv.of_eq (hsilent.walBound hinv.wal) (hsilent.ledger s.world) rfl, hpin.dropReader hmem rfl⟩

/-- In every state reached by whole operations, the registry's row of a version counts the transactions
at that snapshot that are `Active` or `Committing` and the readers at it, and is absent where there are
none. -/
theorem pins_eq_open_add_readers (env : Env) {hist : List (Serving × ClientOp × Serving)} {s : Serving}
    (hrun : Run (ClientOp.step env) {} hist s) (v : Nat) :
    (s.world.store.activeSnapshots[v]?).getD 0 = (s.world.store.openTxns v).length + s.readers.count v ∧
      ((s.world.store.openTxns v).length + s.readers.count v = 0 → s.world.store.activeSnapshots[v]? = none) := by
  obtain ⟨⟨-, hpin⟩, -⟩ := hrun.invariant
    (I := fun s : Serving => Inv True s.world (fun _ => none) ∧ Pinned s.readers s.world fun _ => none)
    (C := fun _ _ => True) ⟨World.inv_empty True, Pinned.idle⟩ (fun u op v h _ hstep => Serving.step_pinned h hstep)
    fun _ _ => trivial
  have hcount := hpin.count_eq v
  exact ⟨hcount, fun hzero => hpin.counts.none_of_zero (hcount.trans hzero)⟩

/-- A reader and an open transaction share a snapshot, after another transaction has committed at it. -/
theorem pins_reader_and_txn : ∃ hist s, Run (ClientOp.step .sample) {} hist s ∧
    s.world.store.openTxns 1 = ["U"] ∧ s.readers = [1] ∧ s.world.store.openTxns 0 = [] ∧
    ((s.world.store.activeSnapshots[1]?).getD 0 = (s.world.store.openTxns 1).length + s.readers.count 1 ∧
      ((s.world.store.openTxns 0).length + s.readers.count 0 = 0 → s.world.store.activeSnapshots[0]? = none)) := by
  obtain ⟨s, hrun, htest⟩ := Run.exists_of_exec (ClientOp.step .sample) {}
    [.call (.begin "T" none 0), .call (.stage "T" "k" [1] none [] false), .call (.commit "T" fun _ => false),
      .acquireSnapshot, .call (.begin "U" none 0)]
    (fun s => s.world.store.openTxns 1 = ["U"] && (s.readers = [1] && s.world.store.openTxns 0 = []))
    (by decide +kernel)
  obtain ⟨hone, hreaders, hzero⟩ :
      s.world.store.openTxns 1 = ["U"] ∧ s.readers = [1] ∧ s.world.store.openTxns 0 = [] := by simpa using htest
  exact ⟨_, s, hrun, hone, hreaders, hzero, (pins_eq_open_add_readers .sample hrun 1).1,
    (pins_eq_open_add_readers .sample hrun 0).2⟩

end Xtable

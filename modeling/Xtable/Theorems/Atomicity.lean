import Xtable.Theorems.Sequential

/-! Commits are all or nothing. Over all runs of whole operations with crashes and restarts, the chains hold nothing
    of an aborted transaction, and of any other one nothing or all. -/

namespace Xtable

theorem Call.start_collects {c : Call} (h : c.start.Collects) : ∃ now timeout, c = .sweep now timeout := by
  cases c <;> first | exact h.elim | skip
  case sweepStale => cases h
  case sweep now timeout => exact ⟨now, timeout, rfl⟩

theorem inv_of_run (gc : Prop) (env : Env) {hist : List (World × Op × World)} {w : World}
    (hrun : Run (Op.step env) {} hist w)
    (hsweep : ∀ x ∈ hist, ∀ now timeout, x.2.1.callOf = .sweep now timeout → gc) :
    Inv gc w (fun _ => none) ∧ ∀ x ∈ hist, Inv gc x.1 (fun _ => none) ∧ Inv gc x.2.2 fun _ => none := by
  refine hrun.invariant (I := fun w => Inv gc w fun _ => none)
    (C := fun _ op => ∀ now timeout, op.callOf = .sweep now timeout → gc) (World.inv_empty gc) ?_ hsweep
  intro u op v hu hcond hstep
  refine hu.step (fun hc => ?_) hstep
  obtain ⟨now, timeout, heq⟩ := Call.start_collects hc
  exact hcond now timeout heq

namespace Ledger

variable {L : Ledger} {t : String} {row : TxnStateRecord}

theorem Landed.entries (hl : L.Landed False t row) (hs : L.Sound False) (hrow : L.row t = some row) :
    ∃ v, (∀ k ∈ row.writeKeys, ∃ e ∈ L.chain k, e.txnId = t) ∧
      ∀ k, ∀ e ∈ L.chain k, e.txnId = t → e.commitVersion = v := by
  obtain ⟨v, ha, hk⟩ := hl
  refine ⟨v, fun k hkey => ?_, ?_⟩
  · rcases hk k hkey with ⟨e, he, het, -⟩ | ⟨hgc, -⟩
    · exact ⟨e, he, het⟩
    · exact hgc.elim
  · rintro k e he rfl
    obtain ⟨r, hr, -, hmem⟩ := hs.owned k e he
    cases hrow.symm.trans hr
    exact (ha.mem hmem).2

end Ledger

/-- In every state reached by whole operations and crashes, without chain collection, an aborted
transaction has no chain entries, and any other has none, or one for each key it writes, all at one
version. -/
theorem chains_all_or_nothing (env : Env) {hist : List (World × Op × World)} {w : World}
    (hrun : Run (Op.step env) {} hist w)
    (hgc : ∀ x ∈ hist, ∀ now timeout, x.2.1.callOf ≠ .sweep now timeout)
    (t : String) (row : TxnStateRecord) (hrow : w.store.getTxnState t = some row) :
    (row.status = .aborted → ∀ k, ∀ e ∈ (w.store.readChain k).entries, e.txnId ≠ t) ∧
    (row.status ≠ .aborted →
      (∀ k, ∀ e ∈ (w.store.readChain k).entries, e.txnId ≠ t) ∨
      ∃ v, (∀ k ∈ row.writeKeys, ∃ e ∈ (w.store.readChain k).entries, e.txnId = t) ∧
        ∀ k, ∀ e ∈ (w.store.readChain k).entries, e.txnId = t → e.commitVersion = v) := by
  obtain ⟨hinv, -⟩ := inv_of_run False env hrun fun x hx now timeout heq => hgc x hx now timeout heq
  have hok := hinv.sound.rows t row hrow
  refine ⟨hok.aborted, fun hst => ?_⟩
  cases hstatus : row.status with
  | aborted => exact absurd hstatus hst
  | active => exact .inl (hok.active hstatus).2.2
  | committed => exact .inr ((hok.committed hstatus).entries hinv.sound hrow)
  | committing =>
    rcases hinv.committing t row hrow hstatus with (⟨-, hclear, -⟩ | ⟨-, hl⟩) | ⟨i, ph, hi, -⟩
    · exact .inl hclear
    · exact .inr (hl.entries hinv.sound hrow)
    · cases hi

/-- A commit of two keys cut right after its chain append, then recovered. -/
theorem chains_all_or_nothing_after_crash : ∃ hist w, Run (Op.step .sample) {} hist w ∧
    ∃ row, w.store.getTxnState "T" = some row ∧ row.status = .committed ∧ row.writeKeys = ["a", "b"] ∧
      ((∀ k, ∀ e ∈ (w.store.readChain k).entries, e.txnId ≠ "T") ∨
        ∃ v, (∀ k ∈ row.writeKeys, ∃ e ∈ (w.store.readChain k).entries, e.txnId = "T") ∧
          ∀ k, ∀ e ∈ (w.store.readChain k).entries, e.txnId = "T" → e.commitVersion = v) := by
  obtain ⟨w, hrun, htest⟩ := Run.exists_of_exec (Op.step .sample) {}
    [.call (.begin "T" none 0), .call (.stage "T" "a" [1] none [] false), .call (.stage "T" "b" [2] none [] false),
      .crash (.commit "T" fun _ => false) 11 9 ["T"]]
    (fun w => (w.store.getTxnState "T").any fun row => row.status = .committed && row.writeKeys = ["a", "b"])
    (by decide +kernel)
  obtain ⟨row, hrow, htest⟩ := (Option.any_eq_true ..).1 htest
  obtain ⟨hst, hkeys⟩ : row.status = .committed ∧ row.writeKeys = ["a", "b"] := by simpa using htest
  refine ⟨_, w, hrun, row, hrow, hst, hkeys, ?_⟩
  refine (chains_all_or_nothing .sample hrun (fun x hx now timeout heq => ?_) "T" row hrow).2 (by simp [hst])
  have hlabel := label_mem_of_mem_history hx
  simp only [List.mem_cons, List.not_mem_nil, or_false] at hlabel
  rcases hlabel with h | h | h | h <;> simp [h, Op.callOf] at heq

end Xtable

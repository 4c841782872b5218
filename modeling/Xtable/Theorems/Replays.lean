import Xtable.Theorems.Catalog
import Xtable.Theorems.FirstCommitter

/-! A transaction that is settled keeps its row, so a retried commit answers what the first one did, and no call on
    the transaction changes anything. -/

namespace Xtable

variable {env : Env} {w w' : World} {t : String} {row : TxnStateRecord} {c : Call}

theorem Call.run_of_step (h : c.step env w = some w') : (c.run env w).2 = w' := by
  unfold Call.step at h
  split at h
  · exact Option.some.inj h
  · cases h

theorem CallEffect.settled (h : CallEffect env w c w') (hrow : w.store.getTxnState t = some row)
    (hst : row.status ≠ .active) : w'.store.getTxnState t = some row := by
  -- a call of an active transaction is not one of `t`
  have hother : ∀ {t' row'}, w.store.getTxnState t' = some row' → row'.status = .active → t' ≠ t := by
    rintro t' row' hrow' hst' rfl
    cases hrow.symm.trans hrow'
    exact hst hst'
  have hswept : ∀ now timeout, (w.sweptStale now timeout).store.getTxnState t = some row := by
    intro now timeout
    rcases (rows_sweptStale w now timeout).2 t with hsame | ⟨row₁, -, hrow₁, hst₁, -, -⟩
    · exact hsame.trans hrow
    · exact absurd rfl (hother hrow₁ hst₁)
  cases h with
  | unchanged => exact hrow
  | begin hnone =>
    refine (txnState_begun ..).trans ((if_neg ?_).trans hrow)
    rintro rfl
    rw [hrow] at hnone
    cases hnone
  | stage hrow' hst' => exact (txnState_staged hrow' t).trans ((if_neg (hother hrow' hst')).trans hrow)
  | read hrow' hst' => exact (txnState_noteRead hrow' t).trans ((if_neg (hother hrow' hst')).trans hrow)
  | heartbeat hrow' hst' => exact (Table.get_insert ..).trans ((if_neg (hother hrow' hst')).trans hrow)
  | commit h =>
    rcases h.rows with ⟨rfl, -⟩ | ⟨row₁, row', hrow₁, hst₁, -, hrows⟩
    · exact hrow
    · exact (hrows t).trans ((if_neg (hother hrow₁ hst₁)).trans hrow)
  | abort hrow' hst' => exact (txnState_discarded ..).trans ((if_neg (hother hrow' hst')).trans hrow)
  | sweepStale | sweep => exact hswept _ _

section Run

variable {hist : List (World × Call × World)}

theorem inv_of_calls (hrun : Run (Call.step env) {} hist w) :
    Inv True w (fun _ => none) ∧ ∀ x ∈ hist, Inv True x.1 (fun _ => none) ∧ Inv True x.2.2 fun _ => none :=
  hrun.invariant (I := fun w => Inv True w fun _ => none) (C := fun _ _ => True) (World.inv_empty True)
    (fun _ _ _ hu _ hstep => hu.call_step hstep) fun _ _ => trivial

theorem settled_of_run (hrun : Run (Call.step env) {} hist w) {x : World × Call × World} (hx : x ∈ hist)
    (hrow : x.2.2.store.getTxnState t = some row) (hst : row.status ≠ .active) : w.store.getTxnState t = some row := by
  obtain ⟨-, after, -, -, hafter⟩ := hrun.split_of_mem hx
  refine (hafter.invariant (I := fun u => Inv True u (fun _ => none) ∧ u.store.getTxnState t = some row)
    (C := fun _ _ => True) ⟨((inv_of_calls hrun).2 x hx).2, hrow⟩ ?_ fun _ _ => trivial).1.2
  rintro u c' v ⟨hinv, hkept⟩ - hstep
  exact ⟨hinv.call_step hstep, (CallEffect.of_step hinv hstep).settled hkept hst⟩

theorem Commits.reports {aged : String → Bool} {v : Nat} (h : Commits env aged t w (.ok v) w') :
    ∃ row, w'.store.getTxnState t = some row ∧ row.status = .committed ∧ row.lastVersion = v := by
  cases h with
  | settled hrow hst hr =>
    rename_i row
    unfold TxnStateRecord.replayed at hr
    cases hstatus : row.status with
    | committed => exact ⟨row, hrow, hstatus, by simpa [hstatus] using hr.symm⟩
    | active | committing | aborted => simp [hstatus] at hr
  | published hrow hst hbodies hpeer hkey =>
    rename_i row bodies
    obtain ⟨-, hrow'⟩ := Commits.row_of_ok (.published hrow hst hbodies hpeer hkey) hrow hst
    refine ⟨_, hrow', rfl, ?_⟩
    by_cases hkeys : row.writeKeys = []
    · simp [TxnStateRecord.lastVersion, TxnStateRecord.withAlloc, World.nextVersion, hkeys]
    · have hlen : row.writeKeys.length ≠ 0 := by simpa using hkeys
      simp [TxnStateRecord.lastVersion, TxnStateRecord.withAlloc, Function.comp_def, List.max?_replicate, hlen]

end Run

/-! ## Calls on a settled transaction -/

section Settled

variable (hrow : w.store.getTxnState t = some row)
include hrow

theorem inactive_of_row (hst : row.status ≠ .active) : ∀ row', w.store.getTxnState t = some row' → row'.status ≠ .active := by
  intro row' hrow'
  cases hrow.symm.trans hrow'
  exact hst

theorem stage_settled (hst : row.status ≠ .active) (key : String) (body : Bytes) (contentType : Option String)
    (userMeta : List (String × String)) (deleted : Bool) :
    ∃ x, (Call.stage t key body contentType userMeta deleted).run env w = (.error x, w) := by
  rcases stage_alone env w t key body contentType userMeta deleted with ⟨x, hx⟩ | ⟨row', hrow', hst', -⟩
  · exact ⟨x, Prog.run_bind_error World.exec hx⟩
  · exact absurd hst' (inactive_of_row hrow hst row' hrow')

theorem heartbeat_settled (hst : row.status ≠ .active) (now : Int) :
    ∃ x, (Call.heartbeat t now).run env w = (.error x, w) := by
  rcases heartbeat_alone w t now with ⟨x, hx⟩ | ⟨row', hrow', hst', -⟩
  · exact ⟨x, Prog.run_bind_error World.exec hx⟩
  · exact absurd hst' (inactive_of_row hrow hst row' hrow')

theorem abort_committed (hst : row.status = .committed) : (Call.abort t).run env w =
    (.error (TxnError.invalidState "txn already committed").into, w) := by
  have hexec : w.exec (.getTxnState t) = (some row, w) := by rw [← hrow]; rfl
  simp [Call.run, Call.body, Coordinator.abort, Prog.perform, hexec, hst]

theorem abort_aborted (hst : row.status = .aborted) : (Call.abort t).run env w = (.ok .done, w) := by
  have hexec : w.exec (.getTxnState t) = (some row, w) := by rw [← hrow]; rfl
  simp [Call.run, Call.body, Coordinator.abort, Prog.perform, hexec, hst]

theorem commit_aborted (hst : row.status = .aborted) (aged : String → Bool) : (Call.commit t aged).run env w =
    (.error (TxnError.aborted "txn already aborted").into, w) := by
  have hexec : w.exec (.getTxnState t) = (some row, w) := by rw [← hrow]; rfl
  simp [Call.run, Call.body, Coordinator.commit, Coordinator.claim, Coordinator.replay, Prog.perform, hexec, hst]

end Settled

/-- Once a commit has answered a version, a retry answers the same one and every other call on the
transaction fails; once a transaction is aborted, an abort succeeds and a commit fails. None of these
calls changes the state. -/
theorem commit_abort_idempotent (env : Env) {hist : List (World × Call × World)} {w : World}
    (hrun : Run (Call.step env) {} hist w) (t : String) :
    (∀ x ∈ hist, ∀ aged v, x.2.1 = .commit t aged → ((Call.commit t aged).run env x.1).1 = .ok (.committed v) →
      (∀ aged', (Call.commit t aged').run env w = (.ok (.committed v), w)) ∧
      (∃ e, (Call.abort t).run env w = (.error e, w)) ∧
      (∀ key body contentType userMeta deleted, ∃ e,
        (Call.stage t key body contentType userMeta deleted).run env w = (.error e, w)) ∧
      ∀ now, ∃ e, (Call.heartbeat t now).run env w = (.error e, w)) ∧
    ∀ x ∈ hist, ∀ row, x.2.2.store.getTxnState t = some row → row.status = .aborted →
      (Call.abort t).run env w = (.ok .done, w) ∧
      ∀ aged, ∃ e, (Call.commit t aged).run env w = (.error e, w) := by
  refine ⟨fun x hx aged v hcall hreply => ?_, fun x hx row hrow hst => ?_⟩
  · obtain ⟨w₀, call, w₁⟩ := x
    obtain rfl : call = .commit t aged := hcall
    have hends := Commits.of_inv env aged ((inv_of_calls hrun).2 _ hx).1 t
    have hafter : ((Call.commit t aged).run env w₀).2 = w₁ := Call.run_of_step (hrun.step_of_mem _ hx)
    rw [Call.run_commit] at hreply hafter
    cases hresult : ((Coordinator.commit (Engine.postCommitHook env) aged t).run World.exec w₀).1 with
    | error e =>
      rw [hresult] at hreply
      cases hreply
    | ok v' =>
      rw [hresult] at hreply hends
      obtain rfl : v' = v := by simpa [Except.map] using hreply
      obtain ⟨row, hrow, hst, rfl⟩ := hends.reports
      have hkept := settled_of_run hrun hx (hafter ▸ hrow) (by simp [hst])
      exact ⟨fun aged' => commit_replays env aged' hkept hst, ⟨_, abort_committed hkept hst⟩,
        stage_settled hkept (by simp [hst]), heartbeat_settled hkept (by simp [hst])⟩
  · have hkept := settled_of_run hrun hx hrow (by simp [hst])
    exact ⟨abort_aborted hkept hst, fun aged => ⟨_, commit_aborted hkept hst aged⟩⟩

/-- One transaction is aborted and another commits; both outcomes are replayed. -/
theorem commit_abort_idempotent_pair : ∃ hist w, Run (Call.step .sample) {} hist w ∧
    (Call.commit "T" fun _ => true).run .sample w = (.ok (.committed 1), w) ∧
    (Call.abort "U").run .sample w = (.ok .done, w) := by
  obtain ⟨u, w, hrun, htest⟩ := Run.exists_step_of_exec (Call.step .sample) {}
    [.begin "T" none 0, .begin "U" none 0, .stage "T" "k" [1] none [] false, .stage "U" "k" [2] none [] false,
      .abort "U"] (.commit "T" fun _ => false)
    (fun u w => ((Call.commit "T" fun _ => false).run .sample u).1.toOption = some (.committed 1) &&
      (w.store.getTxnState "U").any fun row => row.status = .aborted) (by decide +kernel)
  simp only [Bool.and_eq_true, decide_eq_true_eq] at htest
  obtain ⟨hreply, haborted⟩ := htest
  obtain ⟨row, hrow, hst⟩ := (Option.any_eq_true ..).1 haborted
  have hok : ((Call.commit "T" fun _ => false).run .sample u).1 = .ok (.committed 1) := by
    cases h : ((Call.commit "T" fun _ => false).run .sample u).1 <;> rw [h] at hreply <;> cases hreply
    rfl
  have hlast : ∀ hist : List (World × Call × World), (u, Call.commit "T" fun _ => false, w) ∈
      hist ++ [(u, Call.commit "T" fun _ => false, w)] := by simp
  obtain ⟨hcommit, -⟩ := (commit_abort_idempotent .sample hrun "T").1 _ (hlast _) _ _ rfl hok
  obtain ⟨habort, -⟩ := (commit_abort_idempotent .sample hrun "U").2 _ (hlast _) row hrow (of_decide_eq_true hst)
  exact ⟨_, w, hrun, hcommit _, habort⟩

end Xtable

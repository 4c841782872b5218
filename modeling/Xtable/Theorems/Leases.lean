import Xtable.Theorems.Replays

/-! What keeps a transaction alive. A `begin` opens a lease and a heartbeat renews it; its own commit or abort ends
    it, and a sweep does once it is older than the timeout. Nothing else does. -/

namespace Xtable

variable {env : Env} {gc : Prop} {w w' : World} {t : String} {row : TxnStateRecord} {c : Call}

/-- The last sign of life of a transaction, while it is active. -/
def TxnStateRecord.lease (row : TxnStateRecord) : Option Int :=
  if row.status = .active then some row.lastHeartbeatMs else none

def World.lease (w : World) (t : String) : Option Int := (w.store.getTxnState t).bind TxnStateRecord.lease

/-- What a call makes of the lease of `t`. -/
def Call.renew (t : String) (lease : Option Int) : Call → Option Int
  | .begin t' _ now => if t' = t then some now else lease
  | .heartbeat t' now => if t' = t then lease.map fun _ => now else lease
  | .commit t' _ | .abort t' => if t' = t then none else lease
  | .sweepStale now timeout | .sweep now timeout => lease.filter fun beat => now - timeout * 1000 ≤ beat
  | .stage .. | .read .. => lease

/-- A sweep computes its cutoff without an overflow of `i64`. -/
def Call.timely : Call → Bool
  | .sweepStale now timeout | .sweep now timeout => -2 ^ 63 ≤ now - timeout * 1000 ∧ now - timeout * 1000 < 2 ^ 63
  | _ => true

theorem Gc.cutoff_eq {now timeout : Int} (h : -2 ^ 63 ≤ now - timeout * 1000 ∧ now - timeout * 1000 < 2 ^ 63) :
    Gc.cutoff now timeout = now - timeout * 1000 :=
  Int.bmod_eq_of_le (by omega) (by omega)

namespace World

theorem lease_eq_none (h : ∀ row, w.store.getTxnState t = some row → row.status ≠ .active) : w.lease t = none := by
  rw [lease, Option.bind_eq_none_iff]
  exact fun row hrow => if_neg (h row hrow)

theorem lease_set (h : ∀ t', w'.store.getTxnState t' = if t = t' then some row else w.store.getTxnState t') (t' : String) :
    w'.lease t' = if t = t' then row.lease else w.lease t' := by
  rw [lease, h]
  split <;> rfl

theorem lease_kept {row' : TxnStateRecord} (hrow : w.store.getTxnState t = some row) (hlease : row'.lease = row.lease)
    (h : ∀ t', w'.store.getTxnState t' = if t = t' then some row' else w.store.getTxnState t') (t' : String) :
    w'.lease t' = w.lease t' := by
  rw [lease_set h]
  split
  case isTrue ht => rw [hlease, ← ht, lease, hrow, Option.bind_some]
  case isFalse => rfl

theorem lease_expire (w : World) (t t' : String) : (w.expire t).lease t' = if t = t' then none else w.lease t' := by
  unfold expire
  split
  case h_1 row hrow =>
    split
    case isTrue => exact lease_set (txnState_discarded w _) t'
    case isFalse hst =>
      split
      case isTrue ht => simp [lease, ← ht, hrow, TxnStateRecord.lease, hst]
      case isFalse => rfl
  case h_2 hnone =>
    split
    case isTrue ht => simp [lease, ← ht, hnone]
    case isFalse => rfl

theorem lease_foldl_expire (w : World) (ts : List String) (t : String) :
    (ts.foldl expire w).lease t = if t ∈ ts then none else w.lease t := by
  induction ts generalizing w with
  | nil => rfl
  | cons t₀ ts ih =>
    rw [List.foldl_cons, ih, lease_expire]
    by_cases ht : t = t₀ <;> by_cases hts : t ∈ ts <;> simp [ht, hts, eq_comm]

theorem mem_scanStale {cutoff : Int} : t ∈ w.store.scanStale cutoff ↔ ∃ beat ∈ w.lease t, beat < cutoff := by
  simp only [Store.scanStale, List.mem_map, List.mem_filter, Bool.and_eq_true, decide_eq_true_eq, Prod.exists,
    Table.mem_toList, exists_and_right, exists_eq_right, lease, Store.getTxnState]
  cases w.store.txnState[t]? with
  | none => simp
  | some row => by_cases hst : row.status = .active <;> simp [hst, TxnStateRecord.lease]

theorem lease_sweptStale (w : World) {now timeout : Int}
    (h : -2 ^ 63 ≤ now - timeout * 1000 ∧ now - timeout * 1000 < 2 ^ 63) (t : String) :
    (w.sweptStale now timeout).lease t = (w.lease t).filter fun beat => now - timeout * 1000 ≤ beat := by
  rw [sweptStale, lease_foldl_expire]
  simp only [mem_scanStale, Gc.cutoff_eq h]
  cases w.lease t with
  | none => simp
  | some beat => by_cases hbeat : beat < now - timeout * 1000 <;> simp [hbeat, Option.filter, not_le.2, le_of_not_gt]

end World

theorem Call.lease_step (hinv : Inv gc w fun _ => none) (hc : c.timely = true) (hstep : c.step env w = some w') (t : String) :
    w'.lease t = c.renew t (w.lease t) := by
  have he := CallEffect.of_step hinv hstep
  have hrun := Call.run_of_step hstep
  cases c with
  | begin t₀ idem now =>
    unfold Call.step at hstep
    split at hstep
    case isFalse => cases hstep
    case isTrue hadm =>
      obtain ⟨-, hlocks, -⟩ := (Call.admits_iff.1 hadm).2 t₀ rfl
      rw [← hrun, Call.run, Call.body, Call.run_snd, begin_alone idem now hlocks]
      exact World.lease_set txnState_begun t
  | stage =>
    cases he with
    | unchanged => rfl
    | stage hrow =>
      refine World.lease_kept hrow ?_ (txnState_staged hrow) t
      unfold TxnStateRecord.withWriteKey
      split <;> rfl
  | read =>
    cases he with
    | unchanged => rfl
    | read hrow =>
      refine World.lease_kept hrow ?_ (txnState_noteRead hrow) t
      unfold TxnStateRecord.withReadKey
      split <;> rfl
  | heartbeat t₀ now =>
    rw [← hrun, Call.run, Call.body, Call.run_snd, Coordinator.heartbeat, Prog.bind_eq]
    rcases w.active_or t₀ with ⟨row, hrow, hst⟩ | hinactive
    · rw [Prog.run_bind_ok World.exec (requireActive_run hrow hst)]
      rw [Call.renew]
      refine (World.lease_set (txnState_put _ _ _) t).trans ?_
      split
      case isTrue ht => simp [← ht, World.lease, hrow, TxnStateRecord.lease, hst]
      case isFalse => rfl
    · obtain ⟨x, hx⟩ := requireActive_fails hinactive
      rw [Prog.run_bind_error World.exec hx, Call.renew]
      split
      case isTrue ht => simp [← ht, World.lease_eq_none hinactive]
      case isFalse => rfl
  | commit t₀ aged =>
    obtain ⟨hfoot, hended⟩ := (Commits.of_inv env aged hinv t₀).footprint
    rw [← hrun, Call.run_commit, Call.renew]
    split
    case isTrue ht => exact World.lease_eq_none (ht ▸ hended)
    case isFalse ht => exact congrArg (Option.bind · _) (hfoot.rows t ht)
  | abort t₀ =>
    rw [← hrun, Call.run, Call.body, Call.run_snd, Call.renew]
    rcases abort_alone w t₀ with ⟨hinactive, r, hx⟩ | ⟨row, -, -, hx⟩ <;> rw [hx]
    · split
      case isTrue ht => exact World.lease_eq_none (ht ▸ hinactive)
      case isFalse => rfl
    · exact World.lease_set (txnState_discarded w _) t
  | sweepStale now timeout =>
    obtain ⟨n, hn⟩ := sweepStale_alone w now timeout
    rw [← hrun, Call.run, Call.body, Call.run_snd, hn]
    exact World.lease_sweptStale w (of_decide_eq_true hc) t
  | sweep now timeout =>
    obtain ⟨r, hr⟩ := sweep_alone w now timeout
    rw [← hrun, Call.run, Call.body, Call.run_snd, hr]
    exact World.lease_sweptStale w (of_decide_eq_true hc) t

/-- The transactions that are active, each with its last heartbeat, are those whose lease the calls so far leave open, in every
run whose sweeps compute their cutoff without an overflow. -/
theorem active_while_leased (env : Env) {hist : List (World × Call × World)} {w : World}
    (hrun : Run (Call.step env) {} hist w) (hcond : ∀ x ∈ hist, x.2.1.timely = true) (t : String) : w.lease t = (hist.map (·.2.1)).foldl (Call.renew t) none := by
  induction hrun with
  | nil => rfl
  | @snoc hist u v c hrun hl ih =>
    rw [List.map_append, List.foldl_append, ← ih fun x hx => hcond x (List.mem_append_left _ hx),
      Call.lease_step (inv_of_calls hrun).1 (hcond (u, c, v) (by simp)) hl t]
    rfl

/-- At 100 s, with a timeout of 60 s, the transaction that beat at 50 s is kept and the one that never did is swept. -/
theorem active_while_leased_sweep : ∃ hist w, Run (Call.step .sample) {} hist w ∧ w.lease "T" = some 50000 ∧
    w.lease "U" = none := by
  obtain ⟨w, hguarded, -⟩ := Run.exists_of_exec (guarded (fun _ c => c.timely) (Call.step .sample)) {}
    [.begin "T" none 0, .begin "U" none 0, .heartbeat "T" 50000, .sweep 100000 60] (fun _ => true) (by decide +kernel)
  obtain ⟨hrun, hcond⟩ := hguarded.of_guarded
  refine ⟨_, w, hrun, ?_⟩
  rw [active_while_leased .sample hrun hcond, active_while_leased .sample hrun hcond]
  decide +kernel

end Xtable

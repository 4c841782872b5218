import Xtable.Theorems.Invariant

/-! What the WAL says of a transaction that has not begun to settle, it still says after its oldest records have
    been removed. -/

namespace Xtable

/-- The record says that the transaction settles. -/
def WalRecord.settles (t : String) : WalRecord → Bool
  | committing t' _ | committed t' _ | commitResult t' _ _ | aborted t' _ => t' = t
  | _ => false

namespace Recovery

variable {t : String} {log : List (Nat × WalRecord)}

theorem lastStatus_open_iff : ((replay log).lastStatus[t]? = none ∨ (replay log).lastStatus[t]? = some .active) ↔
    ∀ x ∈ log, x.2.settles t = false := by
  induction log using List.reverseRecOn with
  | nil => simp [replay]
  | append_singleton log x ih =>
    rw [Store.replay_append, List.forall_mem_append, List.forall_mem_singleton, ← ih]
    obtain ⟨seq, r⟩ := x
    have hset : ∀ (t' : String) (st : TxnStatus), st ≠ .active →
        ((((replay log).lastStatus.insert t' st)[t]? = none ∨ ((replay log).lastStatus.insert t' st)[t]? = some .active) ↔
          ((replay log).lastStatus[t]? = none ∨ (replay log).lastStatus[t]? = some .active) ∧ decide (t' = t) = false) := by
      intro t' st hst
      by_cases ht : t' = t
      · simp [ht, hst]
      · simp [ht]
    have hkeep : ∀ t' : String, (((if ((replay log).lastStatus[t']?).isSome then replay log
        else { replay log with lastStatus := (replay log).lastStatus.insert t' .active }).lastStatus[t]? = none ∨
        (if ((replay log).lastStatus[t']?).isSome then replay log
        else { replay log with lastStatus := (replay log).lastStatus.insert t' .active }).lastStatus[t]? = some .active) ↔
          ((replay log).lastStatus[t]? = none ∨ (replay log).lastStatus[t]? = some .active) ∧ true) := by
      intro t'
      by_cases hsome : ((replay log).lastStatus[t']?).isSome
      · simp [hsome]
      · by_cases ht : t' = t
        · subst ht
          simp_all
        · simp [hsome, ht]
    cases r with
    | begin t' _ _ | stage t' _ _ => simpa [Replay.note, WalRecord.settles] using hkeep t'
    | committing t' _ | committed t' _ | commitResult t' _ _ | aborted t' _ => exact hset t' _ (by decide)
    | memtableFlushed _ _ _ => simp [Replay.note, WalRecord.settles]

theorem lastStatus_none_iff : (replay log).lastStatus[t]? = none ↔ ∀ x ∈ log, x.2.txnId ≠ some t := by
  induction log using List.reverseRecOn with
  | nil => simp [replay]
  | append_singleton log x ih =>
    rw [Store.replay_append, List.forall_mem_append, List.forall_mem_singleton, ← ih]
    obtain ⟨seq, r⟩ := x
    have hset : ∀ (t' : String) (st : TxnStatus), ((replay log).lastStatus.insert t' st)[t]? = none ↔
        (replay log).lastStatus[t]? = none ∧ some t' ≠ some t := by
      intro t' st
      by_cases ht : t' = t <;> simp [ht]
    cases r with
    | begin t' _ _ | stage t' _ _ =>
      simp only [Replay.note, WalRecord.txnId]
      split
      case isTrue hsome =>
        have hne : (replay log).lastStatus[t]? = none → t' ≠ t := by
          rintro hnone rfl
          simp [hnone] at hsome
        simp only [ne_eq, Option.some.injEq]
        exact ⟨fun h => ⟨h, hne h⟩, fun h => h.1⟩
      case isFalse => exact hset t' _
    | committing t' _ | committed t' _ | commitResult t' _ _ | aborted t' _ => exact hset t' _
    | memtableFlushed _ _ _ => simp [Replay.note, WalRecord.txnId]

end Recovery

theorem Inv.truncated {w w' : World} (h : Inv True w fun _ => none)
    (hidle : ∀ t row, w.store.getTxnState t = some row → row.status ≠ .committing)
    (hrows : w'.store.txnState = w.store.txnState) (hchains : w'.store.versionChains = w.store.versionChains)
    (hversion : w'.store.globalVersion = w.store.globalVersion) (hbound : w'.store.WalBound)
    (hwal : ∀ x ∈ w'.store.iterWal, x ∈ w.store.iterWal ∨ x.2.txnId = none) : Inv True w' fun _ => none := by
  have hrow : w'.store.ledger.row = w.store.ledger.row := by simp only [Store.ledger, hrows]
  have hchain : w'.store.ledger.chain = w.store.ledger.chain := by simp only [Store.ledger, Store.readChain, hchains]
  have hversion' : w'.store.ledger.version = w.store.ledger.version := hversion
  have hopen : ∀ t, w.store.ledger.Open t → w'.store.ledger.Open t := by
    intro t hopen
    refine Recovery.lastStatus_open_iff.2 fun x hx => ?_
    rcases hwal x hx with hold | hnone
    · exact Recovery.lastStatus_open_iff.1 hopen x hold
    · obtain ⟨seq, r⟩ := x
      cases r <;> first | rfl | cases hnone
  have hunlogged : ∀ t, w.store.ledger.last t = none → w'.store.ledger.last t = none := by
    intro t hlast
    refine Recovery.lastStatus_none_iff.2 fun x hx => ?_
    rcases hwal x hx with hold | hnone
    · exact Recovery.lastStatus_none_iff.1 hlast x hold
    · simp [hnone]
  refine Inv.quiet hbound ⟨?_, ?_, fun t row hrow' => ?_, fun t hnone => ?_, ?_⟩ fun t row hrow' hst => ?_
  · rw [hchain]
    exact h.sound.ascending
  · rw [hchain, hrow]
    exact h.sound.owned
  · rw [hrow] at hrow'
    have hok := h.sound.rows t row hrow'
    refine ⟨hversion' ▸ hok.snapshot, hok.nodup, fun hst => ?_, fun hst => ?_, fun hst => ?_⟩
    · obtain ⟨halloc, hlast, hclear⟩ := hok.active hst
      exact ⟨halloc, hopen t hlast, by unfold Ledger.Clear; rw [hchain]; exact hclear⟩
    · obtain ⟨v, ha, hkept⟩ := hok.committed hst
      exact ⟨v, ⟨ha.eq, ha.newer, hversion' ▸ ha.handedOut⟩, by unfold Ledger.Kept; rw [hchain]; exact hkept⟩
    · unfold Ledger.Clear
      rw [hchain]
      exact hok.aborted hst
  · rw [hrow] at hnone
    exact hunlogged t (h.sound.unlogged t hnone)
  · rw [hrow]
    exact h.sound.apart
  · rw [hrow] at hrow'
    exact absurd hst (hidle t row hrow')

end Xtable

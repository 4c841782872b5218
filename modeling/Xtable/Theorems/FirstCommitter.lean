import Xtable.Theorems.Alone
import Xtable.Theorems.Atomicity
import Xtable.Theorems.Resolution

/-! The first committer wins. Two transactions that have both committed a write to a key did not overlap, and every
    commit that writes gets a version above all versions committed before it. -/

namespace Xtable

variable {gc : Prop} {env : Env} {w : World} {t : String} {row : TxnStateRecord}

namespace Ledger

variable {L : Ledger} {t₁ t₂ : String} {r₁ r₂ : TxnStateRecord}

theorem Sound.committed_version (h : L.Sound gc) (hrow : L.row t = some row) (hst : row.status = .committed)
    {k : String} (hk : k ∈ row.writeKeys) : (k, row.lastVersion) ∈ row.allocVersions := by
  obtain ⟨v, ha, -⟩ := (h.rows t row hrow).committed hst
  rw [ha.lastVersion (List.ne_nil_of_mem hk), ha.eq]
  exact List.mem_map.2 ⟨k, (List.mem_insertionSort _).2 hk, rfl⟩

theorem Sound.lastVersion_le (h : L.Sound gc) (hrow : L.row t = some row) (hst : row.status = .committed) :
    row.lastVersion ≤ L.version := by
  have hok := h.rows t row hrow
  obtain ⟨v, ha, -⟩ := hok.committed hst
  by_cases hkeys : row.writeKeys = []
  · have hnil : row.allocVersions = [] := by simp [ha.eq, hkeys]
    simpa [TxnStateRecord.lastVersion, hnil] using hok.snapshot
  · rw [ha.lastVersion hkeys]
    exact ha.handedOut hkeys

theorem Sound.committed_apart (h : L.Sound gc) (hne : t₁ ≠ t₂) (hrow₁ : L.row t₁ = some r₁) (hrow₂ : L.row t₂ = some r₂)
    (hst₁ : r₁.status = .committed) (hst₂ : r₂.status = .committed) {k₁ k₂ : String} (hk₁ : k₁ ∈ r₁.writeKeys)
    (hk₂ : k₂ ∈ r₂.writeKeys) : r₁.lastVersion ≠ r₂.lastVersion ∧
      (k₁ = k₂ → r₁.lastVersion ≤ r₂.snapshotVersion ∨ r₂.lastVersion ≤ r₁.snapshotVersion) :=
  h.apart t₁ t₂ r₁ r₂ hne hrow₁ hrow₂ (by simp [hst₁]) (by simp [hst₂]) _ (h.committed_version hrow₁ hst₁ hk₁) _
    (h.committed_version hrow₂ hst₂ hk₂)

end Ledger

theorem Commits.row_of_ok {aged : String → Bool} {v : Nat} {w' : World} (h : Commits env aged t w (.ok v) w')
    (hrow : w.store.getTxnState t = some row) (hst : row.status = .active) : v = w.nextVersion row ∧
      w'.store.getTxnState t = some { row.withAlloc v with status := .committed } := by
  cases h with
  | settled hrow' hst' =>
    cases hrow.symm.trans hrow'
    exact absurd hst hst'
  | published hrow' =>
    cases hrow.symm.trans hrow'
    exact ⟨rfl, (txnState_committed w t).trans (if_pos rfl)⟩

/-- Writers of one key have not overlapped, and the version of a commit that writes is above its snapshot
and above every version committed before it. -/
theorem first_committer_wins (env : Env) {hist : List (World × Op × World)} {w : World}
    (hrun : Run (Op.step env) {} hist w) :
    (∀ t₁ t₂ r₁ r₂ k, t₁ ≠ t₂ → w.store.getTxnState t₁ = some r₁ → w.store.getTxnState t₂ = some r₂ →
      r₁.status = .committed → r₂.status = .committed → k ∈ r₁.writeKeys → k ∈ r₂.writeKeys →
      r₁.lastVersion ≤ r₂.snapshotVersion ∨ r₂.lastVersion ≤ r₁.snapshotVersion) ∧
    (∀ t₁ t₂ r₁ r₂, t₁ ≠ t₂ → w.store.getTxnState t₁ = some r₁ → w.store.getTxnState t₂ = some r₂ →
      r₁.status = .committed → r₂.status = .committed → r₁.writeKeys ≠ [] → r₂.writeKeys ≠ [] →
      r₁.lastVersion ≠ r₂.lastVersion) ∧
    ∀ x ∈ hist, ∀ t aged row v, x.2.1 = .call (.commit t aged) → x.1.store.getTxnState t = some row →
      row.status = .active → row.writeKeys ≠ [] → ((Call.commit t aged).run env x.1).1 = .ok (.committed v) →
      row.snapshotVersion < v ∧
      (∀ t' r', x.1.store.getTxnState t' = some r' → r'.status = .committed → r'.lastVersion < v) ∧
      ∃ row', x.2.2.store.getTxnState t = some row' ∧ row'.status = .committed ∧ row'.lastVersion = v ∧
        row'.snapshotVersion = row.snapshotVersion ∧ row'.writeKeys = row.writeKeys := by
  obtain ⟨hinv, hinvs⟩ := inv_of_run True env hrun fun _ _ _ _ _ => trivial
  refine ⟨?_, ?_, ?_⟩
  · intro t₁ t₂ r₁ r₂ k hne hrow₁ hrow₂ hst₁ hst₂ hk₁ hk₂
    exact (hinv.sound.committed_apart hne hrow₁ hrow₂ hst₁ hst₂ hk₁ hk₂).2 rfl
  · intro t₁ t₂ r₁ r₂ hne hrow₁ hrow₂ hst₁ hst₂ hk₁ hk₂
    obtain ⟨k₁, hk₁⟩ := List.exists_mem_of_ne_nil _ hk₁
    obtain ⟨k₂, hk₂⟩ := List.exists_mem_of_ne_nil _ hk₂
    exact (hinv.sound.committed_apart hne hrow₁ hrow₂ hst₁ hst₂ hk₁ hk₂).1
  · rintro ⟨w₀, op, w₁⟩ hx t aged row v rfl hrow hst hkeys hreply
    have hinv₀ := (hinvs _ hx).1
    have hstep := hrun.step_of_mem _ hx
    have hends := Commits.of_inv env aged hinv₀ t
    rw [Call.run_commit] at hreply
    cases hresult : ((Coordinator.commit (Engine.postCommitHook env) aged t).run World.exec w₀).1 with
    | error x =>
      rw [hresult] at hreply
      cases hreply
    | ok v' =>
      rw [hresult] at hreply hends
      obtain rfl : v' = v := by simpa [Except.map] using hreply
      obtain ⟨hv, hrow'⟩ := hends.row_of_ok hrow hst
      have hnext : v' = w₀.store.globalVersion + 1 := hv.trans (if_neg hkeys)
      have hafter : ((Call.commit t aged).run env w₀).2 = w₁ := by
        simp only [Op.step] at hstep
        split at hstep
        · exact Option.some.inj hstep
        · cases hstep
      rw [Call.run_commit] at hafter
      obtain rfl := hafter
      refine ⟨?_, fun t' r' hr' hst' => ?_, _, hrow', rfl, ?_, rfl, rfl⟩
      · rw [hnext]
        exact Nat.lt_succ_of_le (hinv₀.committable hrow hst).snapshot
      · rw [hnext]
        exact Nat.lt_succ_of_le (hinv₀.sound.lastVersion_le hr' hst')
      · have hlen : row.writeKeys.length ≠ 0 := by simpa using hkeys
        simp [TxnStateRecord.lastVersion, TxnStateRecord.withAlloc, Function.comp_def, List.max?_replicate, hlen]

/-- Two transactions that write one key, one after the other. -/
theorem first_committer_wins_in_turn : ∃ hist w, Run (Op.step .sample) {} hist w ∧ ∃ r₁ r₂,
    w.store.getTxnState "T" = some r₁ ∧ w.store.getTxnState "U" = some r₂ ∧ r₁.status = .committed ∧
    r₂.status = .committed ∧ r₁.writeKeys = ["k"] ∧ r₂.writeKeys = ["k"] ∧ r₁.lastVersion ≠ r₂.lastVersion ∧
    (r₁.lastVersion ≤ r₂.snapshotVersion ∨ r₂.lastVersion ≤ r₁.snapshotVersion) := by
  obtain ⟨w, hrun, htest⟩ := Run.exists_of_exec (Op.step .sample) {}
    [.call (.begin "T" none 0), .call (.stage "T" "k" [1] none [] false), .call (.commit "T" fun _ => false),
      .call (.begin "U" none 0), .call (.stage "U" "k" [2] none [] false), .call (.commit "U" fun _ => false)]
    (fun w => ["T", "U"].all fun t =>
      (w.store.getTxnState t).any fun row => row.status = .committed && row.writeKeys = ["k"])
    (by decide +kernel)
  have hrows : ∀ t ∈ ["T", "U"], ∃ row, w.store.getTxnState t = some row ∧ row.status = .committed ∧
      row.writeKeys = ["k"] := by
    intro t ht
    obtain ⟨row, hrow, htest⟩ := (Option.any_eq_true ..).1 (List.all_eq_true.1 htest t ht)
    exact ⟨row, hrow, by simpa using htest⟩
  obtain ⟨r₁, hrow₁, hst₁, hkeys₁⟩ := hrows "T" (by simp)
  obtain ⟨r₂, hrow₂, hst₂, hkeys₂⟩ := hrows "U" (by simp)
  obtain ⟨hoverlap, hdistinct, -⟩ := first_committer_wins .sample hrun
  refine ⟨_, w, hrun, r₁, r₂, hrow₁, hrow₂, hst₁, hst₂, hkeys₁, hkeys₂, ?_, ?_⟩
  · exact hdistinct "T" "U" r₁ r₂ (by decide) hrow₁ hrow₂ hst₁ hst₂ (by simp [hkeys₁]) (by simp [hkeys₂])
  · exact hoverlap "T" "U" r₁ r₂ "k" (by decide) hrow₁ hrow₂ hst₁ hst₂ (by simp [hkeys₁]) (by simp [hkeys₂])

end Xtable

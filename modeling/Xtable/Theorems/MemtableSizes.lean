import Xtable.Theorems.FlushQueue

/-! `bytes_estimate` grows by at least 64 with every put, and what a put overwrites is not subtracted. It decides
    when the active memtable rotates, and so bounds every memtable that waits to be flushed. -/

namespace Xtable

variable {c : Codecs} {s s' : FlushLoop} {op : FlushOp} {limit largest : Nat}

@[simp] theorem MemTable.bytesEstimate_publish (mt : MemTable) (key : RecordKey) (v : Nat) :
    (mt.publish key v).bytesEstimate = mt.bytesEstimate := by
  unfold publish
  split <;> rfl

theorem MemTable.size_publish (mt : MemTable) (key : RecordKey) (v : Nat) : (mt.publish key v).map.size = mt.map.size := by
  unfold publish
  split
  case h_1 entry hentry =>
    have hmem : mt.map.contains key = true := by simp [Std.ExtTreeMap.contains_eq_isSome_getElem?, hentry]
    simp [Std.ExtTreeMap.size_insert, hmem]
  case h_2 => rfl

/-- The active memtable is below the limit, the others below the limit and one entry more. -/
structure FlushLoop.Sized (limit largest : Nat) (s : FlushLoop) : Prop where
  policy : s.world.mems.memtableSizeBytes = limit
  active : s.world.mems.active.bytesEstimate < limit
  live : ∀ mt ∈ s.live, 64 * mt.map.size ≤ mt.bytesEstimate ∧ mt.bytesEstimate < limit + largest

def FlushOp.adds : FlushOp → Nat
  | put entry _ => max entry.sizeBytes 64
  | _ => 0

namespace FlushLoop.Sized

theorem becomes {mt mt' : MemTable} (h : s.Sized limit largest) (hop : op.adds ≤ largest) (hmt : mt ∈ s.live)
    (hbec : Becomes s op mt mt') : 64 * mt'.map.size ≤ mt'.bytesEstimate ∧ mt'.bytesEstimate < limit + largest := by
  have hsize := h.live mt hmt
  cases hbec with
  | same => exact hsize
  | put entry aged =>
    have hactive := h.active
    have hinsert : (s.world.mems.active.map.insert entry.key entry).size ≤ s.world.mems.active.map.size + 1 :=
      Std.ExtTreeMap.size_insert_le
    simp only [MemTable.putInvisible, FlushOp.adds] at hop ⊢
    omega
  | publish key v => rwa [MemTable.size_publish, MemTable.bytesEstimate_publish]

theorem step (h : s.Sized limit largest) (hop : op.adds ≤ largest) (hstep : op.step c s = some s') : s'.Sized limit largest := by
  have hpos : 0 < limit := Nat.zero_lt_of_lt h.active
  have hactive : s'.world.mems.memtableSizeBytes = limit ∧ s'.world.mems.active.bytesEstimate < limit := by
    cases op with
    | put entry aged =>
      cases hstep
      simp only [World.exec, MemTableSet.putInvisible]
      split
      case isTrue => exact ⟨h.policy, hpos⟩
      case isFalse hfull =>
        rw [h.policy] at hfull
        exact ⟨h.policy, by simp only; omega⟩
    | publish key v =>
      cases hstep
      exact ⟨h.policy, (MemTable.bytesEstimate_publish ..).trans_lt h.active⟩
    | rotate =>
      cases hstep
      exact ⟨h.policy, hpos⟩
    | takeImmutables =>
      simp only [FlushOp.step] at hstep
      split at hstep
      case isTrue => cases hstep; exact ⟨h.policy, h.active⟩
      case isFalse => cases hstep
    | flush =>
      obtain ⟨_, _, -, -, hmems, -⟩ := FlushOp.flush_cases hstep
      rw [hmems]
      exact ⟨h.policy, h.active⟩
    | failFlush =>
      obtain ⟨_, _, -, -, hmems, -⟩ := FlushOp.failFlush_cases hstep
      rw [hmems]
      exact ⟨h.policy, h.active⟩
  refine ⟨hactive.1, hactive.2, fun mt hmt => ?_⟩
  rcases FlushLoop.live_of_step hstep hmt with ⟨mt₀, hmt₀, hbec⟩ | rfl
  · exact h.becomes hop hmt₀ hbec
  · exact ⟨Nat.zero_le _, Nat.add_pos_left hpos _⟩

end FlushLoop.Sized

/-- The active memtable stays below the limit, and every memtable that is not flushed yet, below the limit and one
largest entry: no more than a 64th of that many entries. The estimate is a `u64`, so this is about limits and entries
whose sum is at most `2 ^ 64`: then no estimate reaches `2 ^ 64`, and none wraps. -/
theorem memtables_bounded {hist : List (FlushLoop × FlushOp × FlushLoop)} {w : World} (largest : Nat)
    (hrun : Run (FlushOp.step c) (.start w) hist s) (hpolicy : 0 < w.mems.memtableSizeBytes)
    (hputs : ∀ x ∈ hist, x.2.1.adds ≤ largest) :
    s.world.mems.active.bytesEstimate < w.mems.memtableSizeBytes ∧ ∀ mt ∈ s.live,
      64 * mt.map.size ≤ mt.bytesEstimate ∧ mt.bytesEstimate < w.mems.memtableSizeBytes + largest := by
  have hstart : (FlushLoop.start w).Sized w.mems.memtableSizeBytes largest := by
    refine ⟨rfl, hpolicy, fun mt hmt => ?_⟩
    obtain rfl : mt = _ := by simpa [FlushLoop.live, FlushLoop.start] using hmt
    exact ⟨Nat.zero_le _, Nat.add_pos_left hpolicy _⟩
  have hsized := (hrun.invariant hstart (fun _ _ _ h hop hstep => h.step hop hstep) hputs).1
  exact ⟨hsized.active, hsized.live⟩

/-- With a limit of 100 bytes, the second put of one record makes the memtable rotate. -/
theorem memtables_bounded_rotated : ∃ hist s mt, Run (FlushOp.step .stored) (.start { mems := { memtableSizeBytes := 100 } }) hist s ∧
    mt ∈ s.world.mems.flushing ∧ mt.map.size = 1 ∧ mt.bytesEstimate < 164 := by
  obtain ⟨s, hrun, htest⟩ := Run.exists_of_exec (FlushOp.step .stored) (.start { mems := { memtableSizeBytes := 100 } })
    [.put (sampleWrite 1 [1]) false, .put (sampleWrite 2 [2]) false]
    (fun s => s.world.mems.flushing.any fun mt => mt.map.size = 1) (by decide +kernel)
  obtain ⟨mt, hmt, hsize⟩ := List.any_eq_true.1 htest
  refine ⟨_, s, mt, hrun, hmt, of_decide_eq_true hsize,
    ((memtables_bounded 64 hrun (by decide) fun x hx => ?_).2 mt (FlushLoop.mem_live.2 (.inr (.inl hmt)))).2⟩
  have hop := label_mem_of_mem_history hx
  simp only [List.mem_cons, List.not_mem_nil, or_false] at hop
  rcases hop with hop | hop <;> rw [hop] <;> decide

end Xtable

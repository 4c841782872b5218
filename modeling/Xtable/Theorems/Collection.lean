import Xtable.Theorems.Invariant

/-! Chains and record histories are pruned by two rules that drop the same front part: everything before the newest
    version at or below the threshold. What is read at or above it does not change. -/

namespace Xtable

/-! ## The front part that is dropped -/

theorem rposition_map {α β : Type} (f : α → β) (p : β → Bool) (l : List α) :
    rposition p (l.map f) = rposition (p ∘ f) l := by
  induction l with
  | nil => rfl
  | cons x xs ih => simp only [List.map_cons, rposition, ih, Function.comp_apply]

theorem VersionChain.keepFrom_eq (c : VersionChain) (m : WithTop Nat) :
    c.keepFrom m = Store.historyKeepFrom (c.entries.map (·.commitVersion)) m := by
  have hmap : rposition (fun v : Nat => decide ((v : WithTop Nat) ≤ m)) (c.entries.map (·.commitVersion)) =
      rposition (fun e => decide ((e.commitVersion : WithTop Nat) ≤ m)) c.entries := rposition_map _ _ _
  simp only [keepFrom, Store.historyKeepFrom, List.length_map, hmap]
  split
  case isFalse => rfl
  case isTrue hlen =>
    match hc : c.entries with
    | [] => simp [rposition]
    | [e] => by_cases he : (e.commitVersion : WithTop Nat) ≤ m <;> simp [rposition, he]
    | _ :: _ :: _ => simp [hc] at hlen

theorem Store.historyKeepFrom_spec {α : Type} (f : α → Nat) {l : List α} (hne : l ≠ []) (m : WithTop Nat) :
    ∃ front x back, l = front ++ x :: back ∧ front.length = historyKeepFrom (l.map f) m ∧
      (front = [] ∨ (f x : WithTop Nat) ≤ m) ∧ ∀ y ∈ back, m < (f y : WithTop Nat) := by
  by_cases htop : m = ⊤
  · refine ⟨l.dropLast, l.getLast hne, [], (List.dropLast_append_getLast hne).symm, ?_, .inr ?_, ?_⟩
    · simp [historyKeepFrom, htop]
    · rw [htop]
      exact le_top
    · simp
  simp only [historyKeepFrom, if_neg htop, rposition_map]
  cases hr : rposition ((fun v : Nat => decide ((v : WithTop Nat) ≤ m)) ∘ f) l with
  | some i =>
    obtain ⟨front, x, back, heq, hlen, hx, hback⟩ := rposition_some hr
    exact ⟨front, x, back, heq, by simpa using hlen, .inr (of_decide_eq_true hx),
      fun y hy => not_le.1 (of_decide_eq_false (hback y hy))⟩
  | none =>
    obtain ⟨x, back, rfl⟩ := List.exists_cons_of_ne_nil hne
    refine ⟨[], x, back, rfl, rfl, .inl rfl, fun y hy => ?_⟩
    by_contra hle
    exact rposition_ne_none (List.mem_cons_of_mem x hy) (decide_eq_true (not_lt.1 hle)) hr

theorem find?_reverse_drop {α : Type} {p : α → Bool} {l front back : List α} {x : α} (heq : l = front ++ x :: back)
    (hx : front = [] ∨ p x = true) : (l.drop front.length).reverse.find? p = l.reverse.find? p := by
  rw [heq, List.drop_left]
  rcases hx with rfl | hx
  · rfl
  · rw [List.reverse_append, List.find?_append]
    cases hfind : (x :: back).reverse.find? p with
    | some y => rfl
    | none =>
      have := List.find?_eq_none.1 hfind x (by simp)
      exact absurd hx this

/-! ## Version chains -/

section Chains

variable {c : VersionChain} {m : WithTop Nat}

theorem VersionChain.keepFrom_spec (hne : c.entries ≠ []) (m : WithTop Nat) :
    ∃ front x back, c.entries = front ++ x :: back ∧ front.length = c.keepFrom m ∧
      (front = [] ∨ (x.commitVersion : WithTop Nat) ≤ m) ∧ ∀ e ∈ back, m < (e.commitVersion : WithTop Nat) := by
  rw [VersionChain.keepFrom_eq]
  exact Store.historyKeepFrom_spec _ hne m

theorem VersionChain.pruneBelow_eq_nil_iff : (c.pruneBelow m).1.entries = [] ↔ c.entries = [] := by
  rw [← List.getLast?_eq_none_iff, pruneBelow_getLast?, List.getLast?_eq_none_iff]

theorem VersionChain.readAtSnapshot_pruneBelow {snap : Nat}
    (hsnap : m ≤ snap ∨ ∀ e ∈ c.entries, e.commitVersion ≤ snap) :
    (c.pruneBelow m).1.readAtSnapshot snap = c.readAtSnapshot snap := by
  by_cases hne : c.entries = []
  · simp [readAtSnapshot, pruneBelow, hne]
  obtain ⟨front, x, back, heq, hlen, hx, -⟩ := keepFrom_spec hne m
  simp only [readAtSnapshot, pruneBelow, ← hlen]
  refine find?_reverse_drop heq (hx.imp_right fun hle => decide_eq_true ?_)
  rcases hsnap with hm | hall
  · exact WithTop.coe_le_coe.1 (hle.trans hm)
  · exact hall x (by simp [heq])

theorem VersionChain.pruneBelow_le_one : ((c.pruneBelow m).1.entries.filter fun e => (e.commitVersion : WithTop Nat) ≤ m).length ≤ 1 := by
  by_cases hne : c.entries = []
  · simp [pruneBelow, hne]
  obtain ⟨front, x, back, heq, hlen, -, hback⟩ := keepFrom_spec hne m
  have hnil : back.filter (fun e => (e.commitVersion : WithTop Nat) ≤ m) = [] :=
    List.filter_eq_nil_iff.2 fun e he => by simpa using hback e he
  simp only [pruneBelow, ← hlen, heq, List.drop_left, List.filter_cons, hnil]
  split <;> simp

theorem VersionChain.pruneBelow_top : (c.pruneBelow ⊤).1.entries = c.entries.getLast?.toList := by
  by_cases hne : c.entries = []
  · simp [pruneBelow, hne]
  obtain ⟨front, x, back, heq, hlen, -, hback⟩ := keepFrom_spec hne ⊤
  obtain rfl : back = [] := List.eq_nil_iff_forall_not_mem.2 fun e he => not_top_lt (hback e he)
  simp [pruneBelow, ← hlen, heq]

end Chains

/-! ## Record histories -/

namespace Store

variable {s : Store} {rk : RecordKey} {m : WithTop Nat}

/-- Every row of the historical table stands under the version of its entry. -/
def Keyed (s : Store) : Prop := ∀ (rk : RecordKey) (v : Nat) row, s.recordVersions[(rk, v)]? = some row →
  row.entry.commitVersion = v

theorem Keyed.insert {rows : Table (RecordKey × Nat) StoredRecordVersion}
    (h : ∀ (rk : RecordKey) (v : Nat) row, rows[(rk, v)]? = some row → row.entry.commitVersion = v)
    {row : StoredRecordVersion} {v : Nat} (hv : row.entry.commitVersion = v) (rk' : RecordKey) (u : Nat)
    (row' : StoredRecordVersion) (hrow : (rows.insert (rk, v) row)[(rk', u)]? = some row') :
    row'.entry.commitVersion = u := by
  rw [Table.get_insert] at hrow
  split at hrow
  case isTrue heq =>
    cases heq
    cases hrow
    exact hv
  case isFalse => exact h rk' u row' hrow

theorem Keyed.gc (h : s.Keyed) (requestedMin : Option (WithTop Nat)) : (s.gcChainsInner requestedMin).2.Keyed := by
  intro rk v row hrow
  simp only [gcChainsInner] at hrow
  rw [← Table.mem_toList, Std.ExtTreeMap.toList_filter, List.mem_filter, Table.mem_toList] at hrow
  exact h rk v row hrow.1

theorem Keyed.exec {w : World} (a : Act) (h : w.store.Keyed) : (w.exec a).2.store.Keyed := by
  cases a <;> try exact h
  case unregisterSnapshot snap =>
    simp only [World.exec, World.setStore, unregisterSnapshot]
    split <;> exact h
  case compareAndSetTxnStatus t old new =>
    rcases w.exec_compareAndSet t _ _ with ⟨r, -, -, heq⟩ | ⟨-, heq⟩ <;> rw [heq] <;> exact h
  case appendChainEntriesBulk entries =>
    simp only [World.exec, World.onStore, appendChainEntriesBulk]
    split <;> exact h
  case gcChainsAtActiveSnapshot => exact h.gc none
  case putRecordIndexWithBody rk entry text body => exact Keyed.insert h rfl
  case updateRecordIndexChunkIdForVersion rk v chunkId =>
    simp only [World.exec, World.onStore, updateRecordIndexChunkIdForVersion]
    intro rk' u row hrow
    simp only at hrow
    split at hrow
    case h_1 stored hstored =>
      have hput : ({ stored with entry := { stored.entry with chunkId := chunkId } } :
          StoredRecordVersion).entry.commitVersion = v := h rk v stored hstored
      exact Keyed.insert h hput rk' u row hrow
    case h_2 => exact h rk' u row hrow

/-- The threshold of a collection: the requested one, clamped to the registered snapshots. -/
def gcThreshold (s : Store) (requestedMin : Option (WithTop Nat)) : WithTop Nat :=
  min (requestedMin.getD ⊤) s.minActiveSnapshot

theorem gcChainsInner_store (s : Store) (requestedMin : Option (WithTop Nat)) :
    (s.gcChainsInner requestedMin).2 =
      { s with
        versionChains := s.versionChains.map fun _ c => (c.pruneBelow (s.gcThreshold requestedMin)).1
        recordVersions := s.recordVersions.filter fun k _ => !((s.recordHistory k.1).take
          (historyKeepFrom (s.recordHistory k.1) (s.gcThreshold requestedMin))).contains k.2 } := by
  cases requestedMin <;> simp [gcChainsInner, gcThreshold]

/-- The rows of one record, in the order of their versions. -/
def recordRows (s : Store) (rk : RecordKey) : List ((RecordKey × Nat) × StoredRecordVersion) :=
  s.recordVersions.toList.filter fun x => x.1.1 = rk

theorem recordHistory_eq (s : Store) (rk : RecordKey) : s.recordHistory rk = (s.recordRows rk).map (·.1.2) := rfl

theorem recordRows_ascending (s : Store) (rk : RecordKey) : (s.recordRows rk).Pairwise fun a b => a.1.2 < b.1.2 := by
  have hord : (s.recordRows rk).Pairwise fun a b => compare a.1 b.1 = .lt :=
    Std.ExtTreeMap.ordered_keys_toList.sublist List.filter_sublist
  refine hord.imp_of_mem fun {a b} ha hb hlt => ?_
  have ha' : a.1.1 = rk := by simpa using (List.mem_filter.1 ha).2
  have hb' : b.1.1 = rk := by simpa using (List.mem_filter.1 hb).2
  obtain ⟨⟨rk₁, u⟩, row₁⟩ := a
  obtain ⟨⟨rk₂, v⟩, row₂⟩ := b
  subst ha'
  subst hb'
  change (compareLex _ _ _ _) = _ at hlt
  simpa [compareLex, compareOn, Std.ReflCmp.compare_self, Nat.compare_eq_lt] using hlt

theorem recordRows_gc (s : Store) (requestedMin : Option (WithTop Nat)) (rk : RecordKey) :
    (s.gcChainsInner requestedMin).2.recordRows rk =
      (s.recordRows rk).drop (historyKeepFrom (s.recordHistory rk) (s.gcThreshold requestedMin)) := by
  set n := historyKeepFrom (s.recordHistory rk) (s.gcThreshold requestedMin) with hn
  have hnodup : (s.recordHistory rk).Nodup := by
    rw [recordHistory_eq, List.Nodup, List.pairwise_map]
    exact (s.recordRows_ascending rk).imp fun h => Nat.ne_of_lt h
  have hrows : (s.gcChainsInner requestedMin).2.recordRows rk =
      (s.recordRows rk).filter fun x => !((s.recordHistory rk).take n).contains x.1.2 := by
    simp only [recordRows, gcChainsInner_store, Std.ExtTreeMap.toList_filter, List.filter_filter]
    refine List.filter_congr fun x _ => ?_
    by_cases hx : x.1.1 = rk
    · subst hx
      simp [hn]
    · simp [hx]
  rw [hrows]
  nth_rewrite 1 [← List.take_append_drop n (s.recordRows rk)]
  rw [recordHistory_eq, ← List.take_append_drop n (s.recordRows rk), List.map_append, List.nodup_append] at hnodup
  rw [recordHistory_eq, ← List.map_take, List.filter_append]
  have hfront : ((s.recordRows rk).take n).filter
      (fun x => !(((s.recordRows rk).take n).map (·.1.2)).contains x.1.2) = [] :=
    List.filter_eq_nil_iff.2 fun x hx => by
      simp only [Bool.not_eq_true', Bool.not_eq_false, List.contains_eq_mem, decide_eq_true_eq]
      exact List.mem_map_of_mem (f := fun x => x.1.2) hx
  have hback : ((s.recordRows rk).drop n).filter
      (fun x => !(((s.recordRows rk).take n).map (·.1.2)).contains x.1.2) = (s.recordRows rk).drop n := by
    refine List.filter_eq_self.2 fun x hx => ?_
    simp only [Bool.not_eq_true', List.contains_eq_mem, decide_eq_false_iff_not]
    exact fun hmem => hnodup.2.2 _ hmem _ (List.mem_map_of_mem (f := fun x => x.1.2) hx) rfl
  rw [hfront, hback, List.nil_append]

theorem readChain_gc (s : Store) (requestedMin : Option (WithTop Nat)) (k : String) :
    (s.gcChainsInner requestedMin).2.readChain k = ((s.readChain k).pruneBelow (s.gcThreshold requestedMin)).1 := by
  simp only [gcChainsInner_store, readChain, Table.get_map]
  cases s.versionChains[k]? with
  | none => simp [VersionChain.new, VersionChain.pruneBelow]
  | some c => rfl

section Scan

variable {snap : Nat} {best : Option (RecordIndexEntry × Bytes)} {x : (RecordKey × Nat) × StoredRecordVersion}

theorem betterVersion_skip (hx : x.1.1 ≠ rk ∨ x.1.2 > snap) : betterVersion rk snap best x = best := by
  unfold betterVersion
  rw [if_pos hx]

theorem betterVersion_take (hrk : x.1.1 = rk) (hv : x.1.2 ≤ snap)
    (hbest : ∀ e b, best = some (e, b) → e.commitVersion < x.2.entry.commitVersion) :
    betterVersion rk snap best x = some (x.2.entry, x.2.body) := by
  have hnot : ¬ (x.1.1 ≠ rk ∨ x.1.2 > snap) := by simp [hrk, hv]
  unfold betterVersion
  rw [if_neg hnot]
  match best, hbest with
  | none, _ => rfl
  | some (e, b), hbest =>
    simp only
    rw [if_pos (hbest e b rfl)]

theorem foldl_betterVersion (rows : List ((RecordKey × Nat) × StoredRecordVersion))
    (hkeyed : ∀ x ∈ rows, x.2.entry.commitVersion = x.1.2)
    (hasc : (rows.filter fun x => x.1.1 = rk).Pairwise fun a b => a.1.2 < b.1.2) :
    rows.foldl (betterVersion rk snap) none =
      ((rows.filter fun x => x.1.1 = rk).reverse.find? fun x => x.1.2 ≤ snap).map fun x => (x.2.entry, x.2.body) := by
  -- the induction is on the row scanned last
  induction rows using List.reverseRecOn with
  | nil => rfl
  | append_singleton rows x ih =>
    rw [List.filter_append] at hasc
    have hbest := ih (fun y hy => hkeyed y (by simp [hy])) (List.pairwise_append.1 hasc).1
    rw [List.foldl_append, List.foldl_cons, List.foldl_nil, hbest, List.filter_append, List.reverse_append]
    by_cases hx : x.1.1 = rk
    · have hfilter : [x].filter (fun x => decide (x.1.1 = rk)) = [x] := by simp [hx]
      rw [hfilter] at hasc ⊢
      by_cases hv : x.1.2 ≤ snap
      · rw [betterVersion_take hx hv]
        · simp [hv]
        · intro e b heb
          obtain ⟨y, hy, hye⟩ := Option.map_eq_some_iff.1 heb
          have hmem : y ∈ rows.filter fun x => x.1.1 = rk := List.mem_reverse.1 (List.mem_of_find?_eq_some hy)
          have hlt := (List.pairwise_append.1 hasc).2.2 y hmem x (by simp)
          rw [← (Prod.mk.inj hye).1, hkeyed y (by simp [List.mem_of_mem_filter hmem]), hkeyed x (by simp)]
          exact hlt
      · rw [betterVersion_skip (.inr (not_le.1 hv))]
        simp [hv]
    · have hfilter : [x].filter (fun x => decide (x.1.1 = rk)) = [] := by simp [hx]
      rw [hfilter, betterVersion_skip (.inl hx)]
      rfl

end Scan

theorem getRecordVersionAtSnapshot_eq (h : s.Keyed) (rk : RecordKey) (snap : Nat) :
    s.getRecordVersionAtSnapshot rk snap =
      ((s.recordRows rk).reverse.find? fun x => x.1.2 ≤ snap).map fun x => (x.2.entry, x.2.body) :=
  foldl_betterVersion _ (fun x hx => h x.1.1 x.1.2 x.2 (Table.mem_toList.1 hx)) (s.recordRows_ascending rk)

theorem mem_recordRows {v : Nat} {row : StoredRecordVersion} :
    ((rk, v), row) ∈ s.recordRows rk ↔ s.recordVersions[(rk, v)]? = some row := by
  simp [recordRows]

theorem getRecordVersionAtSnapshot_eq_some (h : s.Keyed) {snap v : Nat} {row : StoredRecordVersion}
    (hrow : s.recordVersions[(rk, v)]? = some row) (hv : v ≤ snap)
    (hmax : ∀ u row', s.recordVersions[(rk, u)]? = some row' → u ≤ snap → u ≤ v) :
    s.getRecordVersionAtSnapshot rk snap = some (row.entry, row.body) := by
  rw [getRecordVersionAtSnapshot_eq h]
  have hmem : ((rk, v), row) ∈ (s.recordRows rk).reverse := List.mem_reverse.2 (mem_recordRows.2 hrow)
  cases hfind : (s.recordRows rk).reverse.find? fun x => x.1.2 ≤ snap with
  | none => simpa [hv] using List.find?_eq_none.1 hfind _ hmem
  | some x =>
    obtain ⟨hx, front, back, hsplit, hfront⟩ := List.find?_eq_some_iff_append.1 hfind
    have hdesc : (front ++ x :: back).Pairwise fun a b => b.1.2 < a.1.2 := by
      rw [← hsplit]
      exact List.pairwise_reverse.2 (s.recordRows_ascending rk)
    rw [hsplit, List.mem_append, List.mem_cons] at hmem
    rcases hmem with hin | rfl | hin
    · simpa [hv] using hfront _ hin
    · rfl
    · -- what stands behind is older, and nothing newer is visible
      have hlt : v < x.1.2 := (List.pairwise_cons.1 (List.pairwise_append.1 hdesc).2.1).1 _ hin
      obtain ⟨⟨rk', u⟩, row'⟩ := x
      have hx' : ((rk', u), row') ∈ s.recordRows rk := List.mem_reverse.1 (by rw [hsplit]; simp)
      obtain rfl : rk' = rk := by simpa using (List.mem_filter.1 hx').2
      have hle := hmax u row' (mem_recordRows.1 hx') (by simpa using hx)
      simp only at hlt
      omega

theorem getRecordVersionAtSnapshot_eq_none (h : s.Keyed) {snap : Nat}
    (hnone : ∀ u row', s.recordVersions[(rk, u)]? = some row' → snap < u) :
    s.getRecordVersionAtSnapshot rk snap = none := by
  rw [getRecordVersionAtSnapshot_eq h, Option.map_eq_none_iff, List.find?_eq_none]
  intro x hx
  obtain ⟨⟨rk', u⟩, row'⟩ := x
  have hx' := List.mem_reverse.1 hx
  obtain rfl : rk' = rk := by simpa using (List.mem_filter.1 hx').2
  have hlt := hnone u row' (mem_recordRows.1 hx')
  simpa using hlt

section Kept

variable {requestedMin : Option (WithTop Nat)}

theorem recordRows_gc_eq_nil_iff :
    (s.gcChainsInner requestedMin).2.recordRows rk = [] ↔ s.recordRows rk = [] := by
  rw [recordRows_gc]
  refine ⟨fun hnil => ?_, fun hnil => by simp [hnil]⟩
  by_contra hne
  obtain ⟨front, x, back, heq, hlen, -, -⟩ := historyKeepFrom_spec (·.1.2) hne (s.gcThreshold requestedMin)
  rw [recordHistory_eq, ← hlen, heq, List.drop_left] at hnil
  cases hnil

theorem getRecordVersionAtSnapshot_gc (h : s.Keyed) {snap : Nat}
    (hsnap : s.gcThreshold requestedMin ≤ snap ∨ ∀ v ∈ s.recordHistory rk, v ≤ snap) :
    (s.gcChainsInner requestedMin).2.getRecordVersionAtSnapshot rk snap = s.getRecordVersionAtSnapshot rk snap := by
  rw [getRecordVersionAtSnapshot_eq (h.gc requestedMin), getRecordVersionAtSnapshot_eq h, recordRows_gc]
  by_cases hne : s.recordRows rk = []
  · simp [hne]
  obtain ⟨front, x, back, heq, hlen, hx, -⟩ := historyKeepFrom_spec (·.1.2) hne (s.gcThreshold requestedMin)
  have hseen : front = [] ∨ decide (x.1.2 ≤ snap) = true := by
    refine hx.imp_right fun hle => decide_eq_true ?_
    rcases hsnap with hm | hall
    · exact WithTop.coe_le_coe.1 (hle.trans hm)
    · refine hall _ ?_
      rw [recordHistory_eq, heq]
      simp
  rw [recordHistory_eq, ← hlen, find?_reverse_drop heq hseen]

theorem recordHistory_gc_le_one : (((s.gcChainsInner requestedMin).2.recordHistory rk).filter fun v : Nat =>
    (v : WithTop Nat) ≤ s.gcThreshold requestedMin).length ≤ 1 := by
  rw [recordHistory_eq, recordRows_gc]
  by_cases hne : s.recordRows rk = []
  · simp [hne]
  obtain ⟨front, x, back, heq, hlen, -, hback⟩ := historyKeepFrom_spec (·.1.2) hne (s.gcThreshold requestedMin)
  have hnil : (back.map (·.1.2)).filter (fun v : Nat => (v : WithTop Nat) ≤ s.gcThreshold requestedMin) = [] :=
    List.filter_eq_nil_iff.2 fun v hv => by
      obtain ⟨y, hy, rfl⟩ := List.mem_map.1 hv
      simpa using hback y hy
  rw [recordHistory_eq, ← hlen, heq, List.drop_left, List.map_cons, List.filter_cons, hnil]
  split <;> simp

theorem recordHistory_gc_top (htop : s.gcThreshold requestedMin = ⊤) :
    (s.gcChainsInner requestedMin).2.recordHistory rk = (s.recordHistory rk).getLast?.toList := by
  rw [recordHistory_eq, recordRows_gc, htop]
  by_cases hne : s.recordRows rk = []
  · simp [recordHistory_eq, hne]
  obtain ⟨front, x, back, heq, hlen, -, hback⟩ := historyKeepFrom_spec (·.1.2) hne ⊤
  obtain rfl : back = [] := List.eq_nil_iff_forall_not_mem.2 fun e he => not_top_lt (hback e he)
  rw [recordHistory_eq, ← hlen, heq, List.drop_left]
  simp

end Kept

end Store

theorem le_of_getLast? {α : Type} {f : α → Nat} {l : List α} (hasc : l.Pairwise fun a b => f a < f b) {x : α}
    (hx : l.getLast? = some x) : ∀ y ∈ l, f y ≤ f x := by
  obtain ⟨front, rfl⟩ := List.getLast?_eq_some_iff.1 hx
  intro y hy
  rcases List.mem_append.1 hy with hy | hy
  · exact le_of_lt ((List.pairwise_append.1 hasc).2.2 y hy x (by simp))
  · rw [List.mem_singleton.1 hy]

/-- What a collection with threshold `m` leaves of a store. -/
structure Store.Collected (m : WithTop Nat) (s s' : Store) : Prop where
  /-- What is read at or above the threshold stays. The greatest snapshot, `u64::MAX`, is one that sees
  every version. -/
  chains : ∀ k (snap : Nat), (m ≤ snap ∨ ∀ e ∈ (s.readChain k).entries, e.commitVersion ≤ snap) →
    s'.readAtSnapshot k snap = s.readAtSnapshot k snap
  records : ∀ rk (snap : Nat), (m ≤ snap ∨ ∀ v ∈ s.recordHistory rk, v ≤ snap) →
    s'.getRecordVersionAtSnapshot rk snap = s.getRecordVersionAtSnapshot rk snap
  chain_ne_nil : ∀ k, (s.readChain k).entries ≠ [] → (s'.readChain k).entries ≠ []
  history_ne_nil : ∀ rk, s.recordHistory rk ≠ [] → s'.recordHistory rk ≠ []
  chain_le_one : ∀ k, ((s'.readChain k).entries.filter fun e => (e.commitVersion : WithTop Nat) ≤ m).length ≤ 1
  history_le_one : ∀ rk, ((s'.recordHistory rk).filter fun v : Nat => (v : WithTop Nat) ≤ m).length ≤ 1
  /-- With nothing to keep for a reader, the newest version alone remains. -/
  chain_newest : m = ⊤ → ∀ k, (s.readChain k).entries ≠ [] → ∃ e ∈ (s.readChain k).entries,
    (s'.readChain k).entries = [e] ∧ ∀ e' ∈ (s.readChain k).entries, e'.commitVersion ≤ e.commitVersion
  history_newest : m = ⊤ → ∀ rk, s.recordHistory rk ≠ [] → ∃ v ∈ s.recordHistory rk,
    s'.recordHistory rk = [v] ∧ ∀ u ∈ s.recordHistory rk, u ≤ v

/-- Collection is invisible to pinned readers, with any requested threshold or none, if the historical rows stand under their
versions. -/
theorem gcChainsInner_collected {s : Store} (hs : s.Keyed)
    (hasc : ∀ k, (s.readChain k).entries.Pairwise fun a b => a.commitVersion < b.commitVersion)
    (requestedMin : Option (WithTop Nat)) :
    Store.Collected (s.gcThreshold requestedMin) s (s.gcChainsInner requestedMin).2 where
  chains k snap hsnap := by
    rw [Store.readAtSnapshot, Store.readChain_gc]
    exact VersionChain.readAtSnapshot_pruneBelow hsnap
  records rk snap hsnap := Store.getRecordVersionAtSnapshot_gc hs hsnap
  chain_ne_nil k hne := by
    rw [Store.readChain_gc, Ne, VersionChain.pruneBelow_eq_nil_iff]
    exact hne
  history_ne_nil rk hne := by
    rw [Store.recordHistory_eq, Ne, List.map_eq_nil_iff] at hne ⊢
    rw [Store.recordRows_gc_eq_nil_iff]
    exact hne
  chain_le_one k := by
    rw [Store.readChain_gc]
    exact VersionChain.pruneBelow_le_one
  history_le_one rk := Store.recordHistory_gc_le_one
  chain_newest htop k hne := by
    obtain ⟨e, he⟩ := Option.ne_none_iff_exists'.1 (mt List.getLast?_eq_none_iff.1 hne)
    refine ⟨e, List.mem_of_getLast? he, ?_, le_of_getLast? (hasc k) he⟩
    rw [Store.readChain_gc, htop, VersionChain.pruneBelow_top, he]
    rfl
  history_newest htop rk hne := by
    obtain ⟨v, hv⟩ := Option.ne_none_iff_exists'.1 (mt List.getLast?_eq_none_iff.1 hne)
    refine ⟨v, List.mem_of_getLast? hv, ?_, le_of_getLast? (f := id) ?_ hv⟩
    · rw [Store.recordHistory_gc_top htop, hv]
      rfl
    · rw [Store.recordHistory_eq, List.pairwise_map]
      exact s.recordRows_ascending rk

/-- A chain and a record history of two versions, collected at the first of them. -/
theorem gcChainsInner_collected_two : ∃ s : Store, s.Keyed ∧ s.gcThreshold (some 1) = 1 ∧
    (s.readChain "k").entries.length = 2 ∧ s.recordHistory ("a", "b", "c") = [1, 2] ∧
    Store.Collected (s.gcThreshold (some 1)) s (s.gcChainsInner (some 1)).2 := by
  let chain := ((VersionChain.new "k").append (.new 1 "" "k" "T" 1)).append (.new 2 "" "k" "U" 1)
  let rows : Table (RecordKey × Nat) StoredRecordVersion :=
    ((∅ : Table _ _).insert (("a", "b", "c"), 1) ⟨⟨1, false, "k", 0, "T"⟩, [1]⟩).insert (("a", "b", "c"), 2) ⟨⟨2, false, "k", 0, "U"⟩, [2]⟩
  let s : Store := { versionChains := (∅ : Table _ _).insert "k" chain, recordVersions := rows }
  have hs : s.Keyed := by
    have hnone : ∀ (rk : RecordKey) (v : Nat) row, (∅ : Table (RecordKey × Nat) StoredRecordVersion)[(rk, v)]? = some row →
        row.entry.commitVersion = v := by simp
    exact Store.Keyed.insert (v := 2) (Store.Keyed.insert (v := 1) hnone rfl) rfl
  refine ⟨s, hs, by decide +kernel, by decide +kernel, by decide +kernel, gcChainsInner_collected hs (fun k => ?_) _⟩
  have hchain : s.readChain k = if "k" = k then chain else .new k := by
    simp only [s, Store.readChain, Table.get_insert]
    split <;> simp
  rw [hchain]
  split <;> simp [chain, VersionChain.new, VersionChain.append, VersionEntry.new]

/-- A record with two rows that stand under other versions than those of their entries: a collection at 2 drops the row that
answered a read at 2. -/
theorem gcChainsInner_misfiled : ∃ s : Store, (∀ k, (s.readChain k).entries = []) ∧ s.gcThreshold (some 2) = 2 ∧
    (s.getRecordVersionAtSnapshot ("a", "b", "c") 2).map (·.1.commitVersion) = some 5 ∧
    ((s.gcChainsInner (some 2)).2.getRecordVersionAtSnapshot ("a", "b", "c") 2).map (·.1.commitVersion) = some 3 := by
  let rows : Table (RecordKey × Nat) StoredRecordVersion :=
    ((∅ : Table _ _).insert (("a", "b", "c"), 1) ⟨⟨5, false, "k", 0, "T"⟩, [1]⟩).insert (("a", "b", "c"), 2) ⟨⟨3, false, "k", 0, "U"⟩, [2]⟩
  refine ⟨{ recordVersions := rows }, fun k => by simp [Store.readChain, VersionChain.new], ?_⟩
  decide +kernel

end Xtable

import Mathlib

/-! Ordered tables: extensional tree maps ordered by `compare`, the shape of an embedded key-value store. The lemmas
    state lookups with `=` on keys. -/

open Std

/-- Composite keys are ordered component by component. -/
instance instOrdProd {α β : Type} [Ord α] [Ord β] : Ord (α × β) := lexOrd

theorem compare_pair {α β : Type} [Ord α] [Ord β] [ReflOrd α] (a : α) (b c : β) : compare (a, b) (a, c) = compare b c := by
  change compareLex _ _ _ _ = _
  simp [compareLex, compareOn]

abbrev Table (κ ν : Type) [Ord κ] : Type := ExtTreeMap κ ν compare

namespace Table

variable {κ ν : Type} [Ord κ] [TransOrd κ] [LawfulEqOrd κ]

@[simp] theorem get_insert [DecidableEq κ] (t : Table κ ν) (a k : κ) (v : ν) :
    (t.insert a v)[k]? = if a = k then some v else t[k]? := by
  simp [ExtTreeMap.getElem?_insert]

@[simp] theorem get_erase [DecidableEq κ] (t : Table κ ν) (a k : κ) :
    (t.erase a)[k]? = if a = k then none else t[k]? := by
  simp [ExtTreeMap.getElem?_erase]

theorem get_of_erase [DecidableEq κ] {t : Table κ ν} {a k : κ} {x : ν} (h : (t.erase a)[k]? = some x) : t[k]? = some x := by
  rw [get_erase] at h
  split at h
  · cases h
  · exact h

@[simp] theorem get_map {μ : Type} (t : Table κ ν) (f : κ → ν → μ) (k : κ) :
    (ExtTreeMap.map f t)[k]? = t[k]?.map (f k) :=
  ExtTreeMap.getElem?_map

theorem insert_self [DecidableEq κ] {t : Table κ ν} {a : κ} {v : ν} (h : t[a]? = some v) : t.insert a v = t := by
  refine ExtTreeMap.ext_getElem? fun k => ?_
  by_cases hk : a = k
  · simp [← hk, h]
  · simp [hk]

theorem map_insert {μ : Type} [DecidableEq κ] (t : Table κ ν) (f : κ → ν → μ) (a : κ) (v : ν) :
    ExtTreeMap.map f (t.insert a v) = (ExtTreeMap.map f t).insert a (f a v) := by
  refine ExtTreeMap.ext_getElem? fun k => ?_
  by_cases hk : a = k <;> simp [hk]

theorem map_erase {μ : Type} [DecidableEq κ] (t : Table κ ν) (f : κ → ν → μ) (a : κ) :
    ExtTreeMap.map f (t.erase a) = (ExtTreeMap.map f t).erase a := by
  refine ExtTreeMap.ext_getElem? fun k => ?_
  by_cases hk : a = k <;> simp [hk]

theorem mem_toList {t : Table κ ν} {k : κ} {v : ν} : (k, v) ∈ t.toList ↔ t[k]? = some v :=
  ExtTreeMap.mem_toList_iff_getElem?_eq_some

theorem nodup_keys {t : Table κ ν} : (t.toList.map (·.1)).Nodup := by
  refine List.pairwise_map.2 (ExtTreeMap.ordered_keys_toList.imp ?_)
  rintro a b h heq
  simp [heq] at h

theorem toList_eq_of_mem {t : Table κ ν} {l : List (κ × ν)}
    (hord : l.Pairwise fun a b => compare a.1 b.1 = .lt)
    (hmem : ∀ k v, (k, v) ∈ l ↔ t[k]? = some v) : t.toList = l := by
  have hirr : ∀ a b : κ × ν, compare a.1 b.1 = .lt → a ≠ b := by
    rintro a b h rfl
    simp at h
  refine List.Perm.eq_of_pairwise ?_ ExtTreeMap.ordered_keys_toList hord ?_
  · intro a b _ _ hab hba
    exact absurd hba (OrientedCmp.not_lt_of_lt hab)
  · refine (List.perm_ext_iff_of_nodup ?_ ?_).2 ?_
    · exact ExtTreeMap.ordered_keys_toList.imp (hirr _ _)
    · exact hord.imp (hirr _ _)
    · rintro ⟨k, v⟩
      rw [hmem, mem_toList]

theorem toList_insert_last (t : Table κ ν) (a : κ) (v : ν)
    (h : ∀ k w, t[k]? = some w → compare k a = .lt) :
    (t.insert a v).toList = t.toList ++ [(a, v)] := by
  classical
  have hfresh : t[a]? = none := by
    cases hw : t[a]? with
    | none => rfl
    | some w => simpa using h a w hw
  refine toList_eq_of_mem ?_ ?_
  · refine List.pairwise_append.2 ⟨ExtTreeMap.ordered_keys_toList, by simp, ?_⟩
    rintro ⟨k, w⟩ hk b hb
    obtain rfl := List.mem_singleton.1 hb
    exact h k w (mem_toList.1 hk)
  · intro k w
    rw [List.mem_append, mem_toList, get_insert, List.mem_singleton, Prod.mk.injEq]
    by_cases hak : a = k
    · subst hak
      simp [hfresh, eq_comm]
    · simp [hak, Ne.symm hak]

/-! ## Many rows at once -/

/-- Insert rows one after the other. -/
def insertAll (t : Table κ ν) (l : List (κ × ν)) : Table κ ν := l.foldl (fun t x => t.insert x.1 x.2) t

section InsertAll

variable [DecidableEq κ] {t t' : Table κ ν} {l l' : List (κ × ν)} {k : κ} {v : ν}

theorem get_insertAll (t : Table κ ν) (l : List (κ × ν)) (k : κ) :
    (t.insertAll l)[k]? = ((l.reverse.find? fun x => x.1 = k).map (·.2)).or t[k]? := by
  induction l generalizing t with
  | nil => rfl
  | cons x l ih =>
    rw [insertAll, List.foldl_cons, ← insertAll, ih, get_insert, List.reverse_cons, List.find?_append]
    cases hl : l.reverse.find? fun x => x.1 = k with
    | some y => rfl
    | none => by_cases hx : x.1 = k <;> simp [hx]

theorem get_insertAll_of_not_mem (h : ∀ w, (k, w) ∉ l) : (t.insertAll l)[k]? = t[k]? := by
  have hnone : (l.reverse.find? fun x => x.1 = k) = none := by
    refine List.find?_eq_none.2 fun x hx => ?_
    simp only [decide_eq_true_eq]
    rintro rfl
    exact h x.2 (List.mem_reverse.1 hx)
  simp [get_insertAll, hnone]

theorem mem_of_get_insertAll (h : (t.insertAll l)[k]? = some v) : (k, v) ∈ l ∨ t[k]? = some v := by
  rw [get_insertAll] at h
  cases hl : l.reverse.find? fun x => x.1 = k with
  | none => exact .inr (by simpa [hl] using h)
  | some x =>
    have hk : x.1 = k := by simpa using List.find?_some hl
    have hv : x.2 = v := by simpa [hl] using h
    subst hk hv
    exact .inl (List.mem_reverse.1 (List.mem_of_find?_eq_some hl))

theorem exists_get_insertAll (h : (k, v) ∈ l) : ∃ w, (k, w) ∈ l ∧ (t.insertAll l)[k]? = some w := by
  cases hl : l.reverse.find? fun x => x.1 = k with
  | none => simpa using List.find?_eq_none.1 hl (k, v) (List.mem_reverse.2 h)
  | some x =>
    have hk : x.1 = k := by simpa using List.find?_some hl
    subst hk
    exact ⟨x.2, List.mem_reverse.1 (List.mem_of_find?_eq_some hl), by simp [get_insertAll, hl]⟩

theorem get_insertAll_of_mem (hl : (l.map (·.1)).Nodup) (h : (k, v) ∈ l) : (t.insertAll l)[k]? = some v := by
  obtain ⟨w, hw, hget⟩ := exists_get_insertAll (t := t) h
  have heq := List.inj_on_of_nodup_map hl hw h rfl
  rw [hget, (Prod.mk.inj heq).2]

theorem insertAll_congr (h : ∀ k, (∃ v, (k, v) ∈ l) ∨ t[k]? = t'[k]?) : t.insertAll l = t'.insertAll l := by
  refine ExtTreeMap.ext_getElem? fun k => ?_
  rcases h k with ⟨v, hv⟩ | hk
  · rw [get_insertAll, get_insertAll]
    cases hl : l.reverse.find? fun x => x.1 = k with
    | none => simpa using List.find?_eq_none.1 hl (k, v) (List.mem_reverse.2 hv)
    | some x => rfl
  · rw [get_insertAll, get_insertAll, hk]

theorem insertAll_insert (h : ∃ w, (k, w) ∈ l) : insertAll (t.insert k v) l = t.insertAll l := by
  refine insertAll_congr fun k' => ?_
  by_cases hk : k = k'
  · exact .inl (hk ▸ h)
  · exact .inr (by simp [hk])

theorem insertAll_insertAll (h : ∀ x ∈ l, ∃ w, (x.1, w) ∈ l') : (t.insertAll l).insertAll l' = t.insertAll l' := by
  refine insertAll_congr fun k => ?_
  by_cases hk : ∃ v, (k, v) ∈ l
  · obtain ⟨v, hv⟩ := hk
    exact .inl (h _ hv)
  · exact .inr (get_insertAll_of_not_mem fun w hw => hk ⟨w, hw⟩)

end InsertAll

end Table

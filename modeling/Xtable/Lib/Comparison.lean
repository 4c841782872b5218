import Mathlib

/-! Comparisons and sorting. A comparison need not order all values of its type; where it compares as a total
    preorder does, sorting by it gives a sorted list. -/

/-- On the elements with `p`, `cmp` compares as a total preorder does. -/
structure PreorderOn {α : Type} (p : α → Prop) (cmp : α → α → Ordering) : Prop where
  swap : ∀ a b, p a → p b → cmp b a = (cmp a b).swap
  trans : ∀ a b c, p a → p b → p c → cmp a b ≠ .gt → cmp b c ≠ .gt → cmp a c ≠ .gt

namespace PreorderOn

variable {α β : Type} {p : α → Prop} {cmp : α → α → Ordering}

theorem ne_gt_iff (h : PreorderOn p cmp) {a b : α} (ha : p a) (hb : p b) : cmp a b ≠ .gt ↔ cmp b a ≠ .lt := by
  rw [h.swap a b ha hb]
  cases cmp a b <;> simp [Ordering.swap]

theorem total (h : PreorderOn p cmp) {a b : α} (ha : p a) (hb : p b) : cmp a b ≠ .gt ∨ cmp b a ≠ .gt := by
  rw [h.swap a b ha hb]
  cases cmp a b <;> simp [Ordering.swap]

theorem eq_trans (h : PreorderOn p cmp) {a b c : α} (ha : p a) (hb : p b) (hc : p c) (hab : cmp a b = .eq)
    (hbc : cmp b c = .eq) : cmp a c = .eq := by
  have hle : cmp a c ≠ .gt := h.trans a b c ha hb hc (by simp [hab]) (by simp [hbc])
  have hge : cmp c a ≠ .gt := by
    refine h.trans c b a hc hb ha ?_ ?_
    · rw [h.swap b c hb hc, hbc]
      simp [Ordering.swap]
    · rw [h.swap a b ha hb, hab]
      simp [Ordering.swap]
  have hlt := (h.ne_gt_iff hc ha).1 hge
  cases heq : cmp a c with
  | lt => exact absurd heq hlt
  | eq => rfl
  | gt => exact absurd heq hle

theorem of_compare [LinearOrder β] (key : α → β) (h : ∀ a b, p a → p b → cmp a b = compare (key a) (key b)) :
    PreorderOn p cmp where
  swap a b ha hb := by
    rw [h a b ha hb, h b a hb ha]
    exact Std.OrientedCmp.eq_swap
  trans a b c ha hb hc hab hbc := by
    rw [h _ _ ha hb, compare_le_iff_le] at hab
    rw [h _ _ hb hc, compare_le_iff_le] at hbc
    rw [h _ _ ha hc, compare_le_iff_le]
    exact hab.trans hbc

theorem reverse (h : PreorderOn p cmp) : PreorderOn p fun a b => (cmp a b).swap where
  swap a b ha hb := by rw [h.swap a b ha hb]
  trans a b c ha hb hc hab hbc := by
    rw [← h.swap _ _ ha hb] at hab
    rw [← h.swap _ _ hb hc] at hbc
    rw [← h.swap _ _ ha hc]
    exact h.trans c b a hc hb ha hbc hab

theorem mono {p' : α → Prop} (h : PreorderOn p cmp) (hp : ∀ a, p' a → p a) : PreorderOn p' cmp where
  swap a b ha hb := h.swap a b (hp a ha) (hp b hb)
  trans a b c ha hb hc := h.trans a b c (hp a ha) (hp b hb) (hp c hc)

theorem of_eq (h : ∀ a b, p a → p b → cmp a b = .eq) : PreorderOn p cmp where
  swap a b ha hb := by rw [h a b ha hb, h b a hb ha]; rfl
  trans a b c ha _ hc _ _ := by simp [h a c ha hc]

theorem comap (h : PreorderOn p cmp) (f : β → α) : PreorderOn (fun b => p (f b)) fun a b => cmp (f a) (f b) where
  swap a b := h.swap (f a) (f b)
  trans a b c := h.trans (f a) (f b) (f c)

theorem with_least {least : α → Prop} (h : PreorderOn (fun a => p a ∧ ¬ least a) cmp)
    (heq : ∀ a b, least a → least b → cmp a b = .eq) (hlt : ∀ a b, least a → ¬ least b → cmp a b = .lt)
    (hgt : ∀ a b, ¬ least a → least b → cmp a b = .gt) : PreorderOn p cmp where
  swap a b ha hb := by
    by_cases hla : least a <;> by_cases hlb : least b
    · rw [heq a b hla hlb, heq b a hlb hla]; rfl
    · rw [hlt a b hla hlb, hgt b a hlb hla]; rfl
    · rw [hgt a b hla hlb, hlt b a hlb hla]; rfl
    · exact h.swap a b ⟨ha, hla⟩ ⟨hb, hlb⟩
  trans a b c ha hb hc hab hbc := by
    by_cases hla : least a
    · by_cases hlc : least c
      · simp [heq a c hla hlc]
      · simp [hlt a c hla hlc]
    · have hlb : ¬ least b := fun hlb => hab (hgt a b hla hlb)
      have hlc : ¬ least c := fun hlc => hbc (hgt b c hlb hlc)
      exact h.trans a b c ⟨ha, hla⟩ ⟨hb, hlb⟩ ⟨hc, hlc⟩ hab hbc

theorem pairwise_insertionSort {l : List α} (h : PreorderOn p cmp) (hl : ∀ a ∈ l, p a) :
    (l.insertionSort fun a b => cmp a b ≠ .gt).Pairwise fun a b => cmp a b ≠ .gt := by
  -- the order is one on the subtype of the elements with `p`
  let r : {a // p a} → {a // p a} → Prop := fun a b => cmp a b ≠ .gt
  have : Std.Total r := ⟨fun a b => h.total a.2 b.2⟩
  have : IsTrans {a // p a} r := ⟨fun a b c => h.trans a b c a.2 b.2 c.2⟩
  have hmap := List.map_insertionSort r (fun a b => cmp a b ≠ .gt) Subtype.val (l.attachWith p hl) fun _ _ _ _ => Iff.rfl
  rw [List.attachWith_map_subtype_val] at hmap
  rw [← hmap, List.pairwise_map]
  exact List.pairwise_insertionSort r _

end PreorderOn

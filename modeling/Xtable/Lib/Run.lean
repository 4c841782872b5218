import Mathlib

/-! A run is a sequence of labelled steps with the states before and after each of them. -/

/-- `Run step s hist t`: the steps in `hist` (state before, label, state after) lead from `s` to `t`. -/
inductive Run {S L : Type} (step : L → S → Option S) (s : S) : List (S × L × S) → S → Prop where
  | nil : Run step s [] s
  | snoc {hist : List (S × L × S)} {u v : S} {l : L} :
      Run step s hist u → step l u = some v → Run step s (hist ++ [(u, l, v)]) v

namespace Run

variable {S L : Type} {step : L → S → Option S} {s t : S} {hist : List (S × L × S)}

theorem invariant {I : S → Prop} {C : S → L → Prop} (h : Run step s hist t) (h0 : I s)
    (hstep : ∀ u l v, I u → C u l → step l u = some v → I v)
    (hcond : ∀ x ∈ hist, C x.1 x.2.1) :
    I t ∧ ∀ x ∈ hist, I x.1 ∧ I x.2.2 := by
  induction h with
  | nil => exact ⟨h0, by simp⟩
  | @snoc hist u v l _ hl ih =>
    obtain ⟨hu, hall⟩ := ih fun x hx => hcond x (by simp [hx])
    have hv : I v := hstep u l v hu (hcond (u, l, v) (by simp)) hl
    refine ⟨hv, fun x hx => ?_⟩
    rcases List.mem_append.1 hx with hx | hx
    · exact hall x hx
    · obtain rfl := List.mem_singleton.1 hx
      exact ⟨hu, hv⟩

theorem forall_iff {I : S → Prop} {P Q : S → L → S → Prop} (h : Run step s hist t) (h0 : I s)
    (hstep : ∀ u l v, I u → step l u = some v → (P u l v ↔ Q u l v) ∧ (Q u l v → I v)) :
    (∀ x ∈ hist, P x.1 x.2.1 x.2.2) ↔ ∀ x ∈ hist, Q x.1 x.2.1 x.2.2 := by
  suffices hall : ((∀ x ∈ hist, P x.1 x.2.1 x.2.2) ↔ ∀ x ∈ hist, Q x.1 x.2.1 x.2.2) ∧
      ((∀ x ∈ hist, Q x.1 x.2.1 x.2.2) → I t) from hall.1
  induction h with
  | nil => simpa using h0
  | @snoc hist u v l _ hl ih =>
    obtain ⟨hiff, hI⟩ := ih
    simp only [List.mem_append, List.mem_singleton, or_imp, forall_and, forall_eq]
    constructor
    · rw [hiff]
      exact and_congr_right fun hQ => (hstep u l v (hI hQ) hl).1
    · rintro ⟨hQ, hlast⟩
      exact (hstep u l v (hI hQ) hl).2 hlast

theorem step_of_mem (h : Run step s hist t) : ∀ x ∈ hist, step x.2.1 x.1 = some x.2.2 := by
  induction h with
  | nil => simp
  | @snoc hist u v l _ hl ih =>
    intro x hx
    rcases List.mem_append.1 hx with hx | hx
    · exact ih x hx
    · obtain rfl := List.mem_singleton.1 hx
      exact hl

theorem split_of_mem (h : Run step s hist t) {x : S × L × S} (hx : x ∈ hist) :
    ∃ before after, hist = before ++ x :: after ∧ Run step s before x.1 ∧ Run step x.2.2 after t := by
  induction h with
  | nil => cases hx
  | @snoc hist u v l hrun hl ih =>
    rcases List.mem_append.1 hx with hx | hx
    · obtain ⟨before, after, rfl, hbefore, hafter⟩ := ih hx
      exact ⟨before, after ++ [(u, l, v)], by simp, hbefore, hafter.snoc hl⟩
    · obtain rfl := List.mem_singleton.1 hx
      exact ⟨hist, [], rfl, hrun, .nil⟩

theorem trans {u : S} {hist' : List (S × L × S)} (h : Run step s hist t) (h' : Run step t hist' u) :
    Run step s (hist ++ hist') u := by
  induction h' with
  | nil => simpa using h
  | snoc _ hl ih => simpa using ih.snoc hl

theorem cons {u : S} {l : L} (hl : step l s = some u) (h : Run step u hist t) :
    Run step s ((s, l, u) :: hist) t :=
  trans (.snoc .nil hl) h

theorem of_append {hist' : List (S × L × S)} (h : Run step s (hist ++ hist') t) :
    ∃ u, Run step s hist u ∧ Run step u hist' t := by
  generalize hall : hist ++ hist' = all at h
  induction h generalizing hist' with
  | nil =>
    obtain ⟨rfl, rfl⟩ := List.append_eq_nil_iff.1 hall
    exact ⟨s, .nil, .nil⟩
  | @snoc all u v l hrun hl ih =>
    rcases List.eq_nil_or_concat hist' with rfl | ⟨rest, x, rfl⟩
    · rw [List.append_nil] at hall
      subst hall
      exact ⟨v, hrun.snoc hl, .nil⟩
    · rw [List.concat_eq_append, ← List.append_assoc] at hall
      obtain ⟨rfl, hx⟩ := List.append_inj' hall rfl
      obtain rfl := List.cons.inj hx |>.1
      obtain ⟨w, hfirst, hrest⟩ := ih rfl
      exact ⟨w, hfirst, by simpa using hrest.snoc hl⟩

theorem nil_inv (h : Run step s [] t) : t = s := by
  generalize hnil : [] = none at h
  cases h with
  | nil => rfl
  | snoc => simp at hnil

theorem cons_inv {x : S × L × S} (h : Run step s (x :: hist) t) :
    x.1 = s ∧ step x.2.1 s = some x.2.2 ∧ Run step x.2.2 hist t := by
  rw [← List.singleton_append] at h
  obtain ⟨u, hfirst, hrest⟩ := of_append h
  generalize hone : [x] = one at hfirst
  cases hfirst with
  | nil => cases hone
  | @snoc hist' w _ l hrun hl =>
    have happ : [] ++ [x] = hist' ++ [(w, l, u)] := hone
    obtain ⟨hnil, hx⟩ := List.append_inj' happ rfl
    subst hnil
    obtain rfl := List.cons.inj hx |>.1
    obtain rfl := hrun.nil_inv
    exact ⟨rfl, hl, hrest⟩

end Run

/-- The run passes through `u` and, then or later, through `v`. -/
def Passes {S L : Type} (step : L → S → Option S) (s : S) (hist : List (S × L × S)) (u v : S) : Prop :=
  ∃ before between after, hist = before ++ between ++ after ∧ Run step s before u ∧ Run step u between v

/-- Take the steps of a list of labels, in order. -/
def exec {S L : Type} (step : L → S → Option S) : List L → S → Option S
  | [], s => some s
  | l :: ls, s => (step l s).bind (exec step ls)

/-- The history of `exec`. -/
def history {S L : Type} (step : L → S → Option S) : List L → S → List (S × L × S)
  | [], _ => []
  | l :: ls, s =>
    match step l s with
    | none => []
    | some u => (s, l, u) :: history step ls u

theorem Run.of_exec {S L : Type} {step : L → S → Option S} {ls : List L} {s t : S}
    (h : exec step ls s = some t) : Run step s (history step ls s) t := by
  induction ls generalizing s with
  | nil =>
    cases h
    exact .nil
  | cons l ls ih =>
    rw [exec] at h
    cases hl : step l s with
    | none => simp [hl] at h
    | some u =>
      simp only [hl, Option.bind_some] at h
      simp only [history, hl]
      exact Run.cons hl (ih h)

theorem label_mem_of_mem_history {S L : Type} {step : L → S → Option S} {ls : List L} {s : S} {x : S × L × S}
    (h : x ∈ history step ls s) : x.2.1 ∈ ls := by
  induction ls generalizing s with
  | nil => cases h
  | cons l ls ih =>
    rw [history] at h
    split at h
    · cases h
    · rcases List.mem_cons.1 h with rfl | h
      · simp
      · simp [ih h]

theorem Run.exists_of_exec {S L : Type} (step : L → S → Option S) (s : S) (ls : List L) (f : S → Bool)
    (h : (exec step ls s).any f = true) : ∃ t, Run step s (history step ls s) t ∧ f t = true := by
  cases ht : exec step ls s with
  | none => simp [ht] at h
  | some t => exact ⟨t, .of_exec ht, by simpa [ht] using h⟩

theorem Run.exists_step_of_exec {S L : Type} (step : L → S → Option S) (s : S) (ls : List L) (l : L)
    (f : S → S → Bool) (h : ((exec step ls s).any fun u => (step l u).any (f u)) = true) :
    ∃ u v, Run step s (history step ls s ++ [(u, l, v)]) v ∧ f u v = true := by
  cases hu : exec step ls s with
  | none => simp [hu] at h
  | some u =>
    cases hv : step l u with
    | none => simp [hu, hv] at h
    | some v => exact ⟨u, v, .snoc (.of_exec hu) hv, by simpa [hu, hv] using h⟩

theorem Run.exists_middle_of_exec {S L : Type} (step : L → S → Option S) (s : S) (front : List L) (l : L) (back : List L)
    (f : S → S → Bool)
    (h : ((exec step front s).any fun u => (step l u).any fun v => (exec step back v).any (f u)) = true) :
    ∃ u v t, Run step s (history step front s ++ (u, l, v) :: history step back v) t ∧ f u t = true := by
  obtain ⟨u, v, hrun, hrest⟩ := Run.exists_step_of_exec step s front l (fun u v => (exec step back v).any (f u)) h
  obtain ⟨t, hback, hf⟩ := Run.exists_of_exec step v back (f u) hrest
  refine ⟨u, v, t, ?_, hf⟩
  simpa using hrun.trans hback

/-- Steps that are only taken where a test of the state and the label passes. -/
def guarded {S L : Type} (C : S → L → Bool) (step : L → S → Option S) (l : L) (s : S) : Option S :=
  if C s l then step l s else none

theorem Run.of_guarded {S L : Type} {C : S → L → Bool} {step : L → S → Option S} {s t : S}
    {hist : List (S × L × S)} (h : Run (guarded C step) s hist t) :
    Run step s hist t ∧ ∀ x ∈ hist, C x.1 x.2.1 = true := by
  induction h with
  | nil => exact ⟨.nil, by simp⟩
  | @snoc hist u v l _ hl ih =>
    unfold guarded at hl
    split at hl
    case isFalse => cases hl
    case isTrue hC =>
      refine ⟨ih.1.snoc hl, fun x hx => ?_⟩
      rcases List.mem_append.1 hx with hx | hx
      · exact ih.2 x hx
      · obtain rfl := List.mem_singleton.1 hx
        exact hC

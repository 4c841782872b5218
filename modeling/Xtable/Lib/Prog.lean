import Mathlib

/-! A program performs named actions one at a time and continues with each answer. It is run to its end (`run`),
    stopped after some actions (`advance`), or interleaved with others (`Pool`). `Obeys` says that it follows a
    protocol: which actions it may perform in which phase, given the expected answers. -/

/-- A program over the actions `E`: it returns, fails, or performs an action `e` and continues with
the answer, an `R e`. -/
inductive Prog {E : Type} (R : E → Type) (ε α : Type) : Type where
  | ret (a : α)
  | fail (x : ε)
  | act (e : E) (k : R e → Prog R ε α)

namespace Prog

variable {E : Type} {R : E → Type} {ε α β γ S G : Type}

def bind : Prog R ε α → (α → Prog R ε β) → Prog R ε β
  | ret a, f => f a
  | fail x, _ => fail x
  | act e k, f => act e fun r => (k r).bind f

instance : Monad (Prog R ε) where
  pure := ret
  bind := bind

def perform (e : E) : Prog R ε (R e) := act e ret

/-- The outcome of a program as a value, so that a caller can look at a failure. -/
def attempt : Prog R ε α → Prog R ε (Except ε α)
  | ret a => ret (.ok a)
  | fail x => ret (.error x)
  | act e k => act e fun r => (k r).attempt

/-- A loop over a list whose body only has effects. -/
def forEach : List β → (β → Prog R ε Unit) → Prog R ε Unit
  | [], _ => ret ()
  | b :: bs, f => (f b).bind fun _ => forEach bs f

@[simp] theorem pure_eq (a : α) : (pure a : Prog R ε α) = ret a := rfl

@[simp] theorem bind_eq (p : Prog R ε α) (f : α → Prog R ε β) : (p >>= f) = p.bind f := rfl

@[simp] theorem ret_bind (a : α) (f : α → Prog R ε β) : (ret a).bind f = f a := rfl

@[simp] theorem fail_bind (x : ε) (f : α → Prog R ε β) : (fail x).bind f = fail x := rfl

@[simp] theorem act_bind (e : E) (k : R e → Prog R ε α) (f : α → Prog R ε β) :
    (act e k).bind f = act e fun r => (k r).bind f := rfl

@[simp] theorem perform_bind (e : E) (f : R e → Prog R ε β) : (perform e).bind f = act e f := rfl

theorem bind_assoc (p : Prog R ε α) (f : α → Prog R ε β) (g : β → Prog R ε γ) :
    (p.bind f).bind g = p.bind fun a => (f a).bind g := by
  induction p with
  | ret a | fail x => rfl
  | act e k ih => simp only [act_bind, ih]

/-! ## Running -/

section Run

variable (h : (e : E) → S → R e × S)

/-- Run a program to its end. -/
def run : Prog R ε α → S → Except ε α × S
  | ret a, s => (.ok a, s)
  | fail x, s => (.error x, s)
  | act e k, s => (k (h e s).1).run (h e s).2

/-- Perform at most `n` actions: what is left of the program, and the state reached. -/
def advance : Nat → Prog R ε α → S → Prog R ε α × S
  | n + 1, act e k, s => (k (h e s).1).advance n (h e s).2
  | _, p, s => (p, s)

/-- The actions that `advance` performs, first to last. -/
def performed : Nat → Prog R ε α → S → List E
  | n + 1, act e k, s => e :: (k (h e s).1).performed n (h e s).2
  | _, _, _ => []

/-- The actions of a whole run with their answers, first to last. -/
def trace : Prog R ε α → S → List ((e : E) × R e)
  | ret _, _ => []
  | fail _, _ => []
  | act e k, s => ⟨e, (h e s).1⟩ :: (k (h e s).1).trace (h e s).2

@[simp] theorem run_ret (a : α) (s : S) : (ret a : Prog R ε α).run h s = (.ok a, s) := rfl

@[simp] theorem run_fail (x : ε) (s : S) : (fail x : Prog R ε α).run h s = (.error x, s) := rfl

@[simp] theorem run_act (e : E) (k : R e → Prog R ε α) (s : S) :
    (act e k).run h s = (k (h e s).1).run h (h e s).2 := rfl

theorem run_bind (p : Prog R ε α) (f : α → Prog R ε β) (s : S) :
    (p.bind f).run h s =
      match p.run h s with
      | (.ok a, s') => (f a).run h s'
      | (.error x, s') => (.error x, s') := by
  induction p generalizing s with
  | ret a | fail x => rfl
  | act e k ih => exact ih _ _

theorem run_bind_ok {p : Prog R ε α} {f : α → Prog R ε β} {s s' : S} {a : α}
    (hp : p.run h s = (.ok a, s')) : (p.bind f).run h s = (f a).run h s' := by
  rw [run_bind, hp]

theorem run_bind_error {p : Prog R ε α} {f : α → Prog R ε β} {s s' : S} {x : ε}
    (hp : p.run h s = (.error x, s')) : (p.bind f).run h s = (.error x, s') := by
  rw [run_bind, hp]

theorem run_map (p : Prog R ε α) (g : α → β) (s : S) :
    (p >>= fun a => pure (g a)).run h s = ((p.run h s).1.map g, (p.run h s).2) := by
  induction p generalizing s with
  | ret a | fail x => rfl
  | act e k ih => exact ih _ _

theorem run_attempt (p : Prog R ε α) (s : S) :
    p.attempt.run h s = (.ok (p.run h s).1, (p.run h s).2) := by
  induction p generalizing s with
  | ret a | fail x => rfl
  | act e k ih => exact ih _ _

@[simp] theorem trace_act (e : E) (k : R e → Prog R ε α) (s : S) :
    (act e k).trace h s = ⟨e, (h e s).1⟩ :: (k (h e s).1).trace h (h e s).2 := rfl

theorem trace_bind (p : Prog R ε α) (f : α → Prog R ε β) (s : S) :
    (p.bind f).trace h s = p.trace h s ++
      match p.run h s with
      | (.ok a, s') => (f a).trace h s'
      | (.error _, _) => [] := by
  induction p generalizing s with
  | ret a | fail x => rfl
  | act e k ih => exact congrArg _ (ih _ _)

theorem run_forEach {f : β → Prog R ε Unit} {step : S → β → S} {l : List β} {s : S}
    (hf : ∀ b ∈ l, ∀ s, (f b).run h s = (.ok (), step s b)) :
    (forEach l f).run h s = (.ok (), l.foldl step s) := by
  induction l generalizing s with
  | nil => rfl
  | cons b bs ih =>
    rw [forEach, run_bind_ok h (hf b (by simp) s)]
    exact ih fun b' hb' => hf b' (by simp [hb'])

theorem run_keeps {I : S → Prop} (hI : ∀ e s, I s → I (h e s).2) (p : Prog R ε α) {s : S} (hs : I s) :
    I (p.run h s).2 := by
  induction p generalizing s with
  | ret a | fail x => exact hs
  | act e k ih => exact ih _ (hI e s hs)

end Run

/-! ## Programs that do not fail -/

/-- The program performs only actions that satisfy `P`, and does not fail. -/
def Within (P : E → Prop) : Prog R ε α → Prop
  | ret _ => True
  | fail _ => False
  | act e k => P e ∧ ∀ r, (k r).Within P

section Within

variable {P : E → Prop}

theorem Within.bind {p : Prog R ε α} {f : α → Prog R ε β} (hp : p.Within P) (hf : ∀ a, (f a).Within P) :
    (p.bind f).Within P := by
  induction p with
  | ret a => exact hf a
  | fail x => exact hp.elim
  | act e k ih => exact ⟨hp.1, fun r => ih r (hp.2 r)⟩

theorem Within.perform {e : E} {f : R e → Prog R ε β} (he : P e) (hf : ∀ r, (f r).Within P) :
    (Prog.perform e >>= f).Within P :=
  ⟨he, hf⟩

theorem Within.forEach {l : List β} {f : β → Prog R ε Unit} (hf : ∀ b ∈ l, (f b).Within P) :
    (Prog.forEach l f).Within P := by
  induction l with
  | nil => trivial
  | cons b bs ih => exact (hf b (by simp)).bind fun _ => ih fun b' hb' => hf b' (by simp [hb'])

theorem Within.run {h : (e : E) → S → R e × S} {I : S → Prop} {p : Prog R ε α} {s : S} (hp : p.Within P)
    (hI : ∀ e s, P e → I s → I (h e s).2) (hs : I s) : ∃ a s', p.run h s = (.ok a, s') ∧ I s' := by
  induction p generalizing s with
  | ret a => exact ⟨a, s, rfl, hs⟩
  | fail x => exact hp.elim
  | act e k ih => exact ih _ (hp.2 _) (hI e s hp.1 hs)

end Within

/-! ## Programs that may fail -/

/-- The program performs only actions that satisfy `P`. -/
def Only (P : E → Prop) : Prog R ε α → Prop
  | ret _ | fail _ => True
  | act e k => P e ∧ ∀ r, (k r).Only P

section Only

variable {P : E → Prop}

theorem Only.bind {p : Prog R ε α} {f : α → Prog R ε β} (hp : p.Only P) (hf : ∀ a, (f a).Only P) :
    (p.bind f).Only P := by
  induction p with
  | ret a => exact hf a
  | fail x => trivial
  | act e k ih => exact ⟨hp.1, fun r => ih r (hp.2 r)⟩

theorem Only.perform {e : E} {f : R e → Prog R ε β} (he : P e) (hf : ∀ r, (f r).Only P) :
    (Prog.perform e >>= f).Only P :=
  ⟨he, hf⟩

theorem Only.forEach {l : List β} {f : β → Prog R ε Unit} (hf : ∀ b ∈ l, (f b).Only P) :
    (Prog.forEach l f).Only P := by
  induction l with
  | nil => trivial
  | cons b bs ih => exact (hf b (by simp)).bind fun _ => ih fun b' hb' => hf b' (by simp [hb'])

theorem Only.advance_keeps {h : (e : E) → S → R e × S} {I : S → Prop} {p : Prog R ε α} {s : S} (hp : p.Only P)
    (hI : ∀ e s, P e → I s → I (h e s).2) (hs : I s) (n : Nat) : I (p.advance h n s).2 := by
  induction n generalizing p s with
  | zero => cases p <;> exact hs
  | succ n ih =>
    cases p with
    | ret a | fail x => exact hs
    | act e k => exact ih (hp.2 _) (hI e s hp.1 hs)

theorem Only.of_mem_trace {h : (e : E) → S → R e × S} {p : Prog R ε α} {s : S} (hp : p.Only P) {x : (e : E) × R e}
    (hx : x ∈ p.trace h s) : P x.1 := by
  induction p generalizing s with
  | ret a | fail x => exact absurd hx List.not_mem_nil
  | act e k ih =>
    rcases List.mem_cons.1 hx with rfl | hx
    · exact hp.1
    · exact ih _ (hp.2 _) hx

theorem Within.mono {P' : E → Prop} {p : Prog R ε α} (hp : p.Within P) (hP : ∀ e, P e → P' e) : p.Within P' := by
  induction p with
  | ret a => trivial
  | fail x => exact hp
  | act e k ih => exact ⟨hP e hp.1, fun r => ih r (hp.2 r)⟩

theorem Within.only {P' : E → Prop} {p : Prog R ε α} (hp : p.Within P) (hP : ∀ e, P e → P' e) : p.Only P' := by
  induction p with
  | ret a => trivial
  | fail x => exact hp.elim
  | act e k ih => exact ⟨hP e hp.1, fun r => ih r (hp.2 r)⟩

end Only

/-! ## Tagged programs -/

/-- The same program over actions that carry a tag: who performs them. -/
def tag {ι : Type} (i : ι) : Prog R ε α → Prog (fun x : ι × E => R x.2) ε α
  | ret a => ret a
  | fail x => fail x
  | act e k => act (i, e) fun r => (k r).tag i

/-! ## Protocols -/

/-- A protocol over the phases `G`: in phase `g` the action `e` is in order, its answer is expected
to satisfy `A`, and an answer `r` leads to the phase `N r`. -/
abbrev Protocol {E : Type} (R : E → Type) (G : Type) : Type :=
  G → (e : E) → (R e → Prop) → (R e → G) → Prop

/-- Every action the program can perform from phase `g` is in order, whatever the answers within
the expectations, and each end it can reach satisfies `Q`. -/
def Obeys (m : Protocol R G) : Prog R ε α → G → (Except ε α → G → Prop) → Prop
  | ret a, g, Q => Q (.ok a) g
  | fail x, g, Q => Q (.error x) g
  | act e k, g, Q => ∃ A N, m g e A N ∧ ∀ r, A r → (k r).Obeys m (N r) Q

section Obeys

variable {m : Protocol R G}

@[simp] theorem obeys_ret {a : α} {g : G} {Q : Except ε α → G → Prop} :
    (ret a : Prog R ε α).Obeys m g Q ↔ Q (.ok a) g := Iff.rfl

@[simp] theorem obeys_fail {x : ε} {g : G} {Q : Except ε α → G → Prop} :
    (fail x : Prog R ε α).Obeys m g Q ↔ Q (.error x) g := Iff.rfl

theorem Obeys.act {e : E} {k : R e → Prog R ε α} {g : G} {Q : Except ε α → G → Prop}
    {A : R e → Prop} {N : R e → G} (hm : m g e A N) (hk : ∀ r, A r → (k r).Obeys m (N r) Q) :
    (Prog.act e k).Obeys m g Q :=
  ⟨A, N, hm, hk⟩

theorem Obeys.perform {e : E} {f : R e → Prog R ε β} {g : G} {Q : Except ε β → G → Prop}
    {A : R e → Prop} {N : R e → G} (hm : m g e A N) (hf : ∀ r, A r → (f r).Obeys m (N r) Q) :
    (Prog.perform e >>= f).Obeys m g Q :=
  ⟨A, N, hm, hf⟩

theorem Obeys.mono {p : Prog R ε α} {g : G} {Q Q' : Except ε α → G → Prop}
    (hp : p.Obeys m g Q) (hQ : ∀ r g, Q r g → Q' r g) : p.Obeys m g Q' := by
  induction p generalizing g with
  | ret a | fail x => exact hQ _ _ hp
  | act e k ih =>
    obtain ⟨A, N, hm, hk⟩ := hp
    exact ⟨A, N, hm, fun r hr => ih r (hk r hr)⟩

theorem Obeys.bind {p : Prog R ε α} {f : α → Prog R ε β} {g : G} {Q : Except ε β → G → Prop}
    (hp : p.Obeys m g fun r g' =>
      match r with
      | .ok a => (f a).Obeys m g' Q
      | .error x => Q (.error x) g') : (p.bind f).Obeys m g Q := by
  induction p generalizing g with
  | ret a | fail x => exact hp
  | act e k ih =>
    obtain ⟨A, N, hm, hk⟩ := hp
    exact ⟨A, N, hm, fun r hr => ih r (hk r hr)⟩

theorem Obeys.attempt {p : Prog R ε α} {g : G} {Q : Except ε (Except ε α) → G → Prop}
    (hp : p.Obeys m g fun r g' => Q (.ok r) g') : p.attempt.Obeys m g Q := by
  induction p generalizing g with
  | ret a | fail x => exact hp
  | act e k ih =>
    obtain ⟨A, N, hm, hk⟩ := hp
    exact ⟨A, N, hm, fun r hr => ih r (hk r hr)⟩

theorem Within.obeys {P : E → Prop} {p : Prog R ε α} {g : G} (hp : p.Within P)
    (hm : ∀ e, P e → m g e (fun _ => True) fun _ => g) :
    p.Obeys m g fun r g' => (∃ a, r = .ok a) ∧ g' = g := by
  induction p with
  | ret a => exact ⟨⟨a, rfl⟩, rfl⟩
  | fail x => exact hp.elim
  | act e k ih => exact ⟨_, _, hm e hp.1, fun r _ => ih r (hp.2 r)⟩

theorem Only.obeys {P : E → Prop} {p : Prog R ε α} {g : G} (hp : p.Only P)
    (hm : ∀ e, P e → m g e (fun _ => True) fun _ => g) : p.Obeys m g fun _ g' => g' = g := by
  induction p with
  | ret a | fail x => rfl
  | act e k ih => exact ⟨_, _, hm e hp.1, fun r _ => ih r (hp.2 r)⟩

theorem Obeys.tag {ι : Type} (i : ι) {p : Prog R ε α} {g : G} {Q : Except ε α → G → Prop} (hp : p.Obeys m g Q) :
    (p.tag i).Obeys (fun g (e : ι × E) A N => m g e.2 A N) g Q := by
  induction p generalizing g with
  | ret a | fail x => exact hp
  | act e k ih =>
    obtain ⟨A, N, hm, hk⟩ := hp
    exact ⟨A, N, hm, fun r hr => ih r (hk r hr)⟩

theorem Obeys.advance_performed {h : (e : E) → S → R e × S} {I : S → List E → G → Prop}
    (hI : ∀ s d g e A N, I s d g → m g e A N → A (h e s).1 ∧ I (h e s).2 (d ++ [e]) (N (h e s).1))
    {p : Prog R ε α} {g : G} {Q : Except ε α → G → Prop} {s : S} {d : List E} (n : Nat)
    (hp : p.Obeys m g Q) (hs : I s d g) :
    ∃ g', (p.advance h n s).1.Obeys m g' Q ∧ I (p.advance h n s).2 (d ++ p.performed h n s) g' := by
  induction n generalizing p g s d with
  | zero => cases p <;> exact ⟨g, hp, (List.append_nil d).symm ▸ hs⟩
  | succ n ih =>
    cases p with
    | ret a | fail x => exact ⟨g, hp, (List.append_nil d).symm ▸ hs⟩
    | act e k =>
      obtain ⟨A, N, hm, hk⟩ := hp
      obtain ⟨hA, hI'⟩ := hI s d g e A N hs hm
      obtain ⟨g', hobeys, hlast⟩ := ih (hk _ hA) hI'
      exact ⟨g', hobeys, List.append_cons d e _ ▸ hlast⟩

theorem Obeys.run {h : (e : E) → S → R e × S} {I : S → G → Prop}
    (hI : ∀ s g e A N, I s g → m g e A N → A (h e s).1 ∧ I (h e s).2 (N (h e s).1))
    {p : Prog R ε α} {g : G} {Q : Except ε α → G → Prop} {s : S}
    (hp : p.Obeys m g Q) (hs : I s g) :
    ∃ g', Q (p.run h s).1 g' ∧ I (p.run h s).2 g' := by
  induction p generalizing g s with
  | ret a | fail x => exact ⟨g, hp, hs⟩
  | act e k ih =>
    obtain ⟨A, N, hm, hk⟩ := hp
    obtain ⟨hA, hI'⟩ := hI s g e A N hs hm
    exact ih _ (hk _ hA) hI'

end Obeys

end Prog

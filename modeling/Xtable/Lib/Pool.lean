import Xtable.Lib.Table
import Xtable.Lib.Prog
import Xtable.Lib.Run

/-! A pool interleaves the actions of any number of calls on one shared state. `Invariant` is the rule for such
    systems: for each move of the protocol the calls obey, the answer is the expected one and the invariant over the
    state and all phases is kept. -/

/-- A call in flight: the actions it has performed (latest first) and what is left to do. -/
structure Thread {E : Type} (R : E → Type) (ε α C : Type) where
  call : C
  done : List E
  prog : Prog R ε α

structure Pool {E : Type} (R : E → Type) (ε α C S : Type) where
  state : S
  threads : Table Nat (Thread R ε α C)

/-- What a pool runs: the meaning of the actions, the program of each call, and which calls may
start given the state and the calls in flight. -/
structure System {E : Type} (R : E → Type) (ε α C S : Type) where
  handle : (e : E) → S → R e × S
  body : C → Prog R ε α
  admits : S → List C → C → Bool

namespace Pool

variable {E : Type} {R : E → Type} {ε α C S G : Type}

inductive Event (C : Type) where
  | spawn (i : Nat) (c : C)
  | act (i : Nat)
  | finish (i : Nat)

/-- The calls in flight. -/
def live (p : Pool R ε α C S) : List C := p.threads.toList.map fun x => x.2.call

/-- The call and the action that thread `i` is about to perform. -/
def pendingAct (p : Pool R ε α C S) (i : Nat) : Option (C × E) :=
  match p.threads[i]? with
  | some ⟨c, _, .act e _⟩ => some (c, e)
  | _ => none

def step (sys : System R ε α C S) : Event C → Pool R ε α C S → Option (Pool R ε α C S)
  | .spawn i c, p =>
    if p.threads[i]?.isNone && sys.admits p.state p.live c then
      some { p with threads := p.threads.insert i ⟨c, [], sys.body c⟩ }
    else none
  | .act i, p =>
    match p.threads[i]? with
    | some ⟨c, d, .act e k⟩ =>
      some ⟨(sys.handle e p.state).2,
        p.threads.insert i ⟨c, e :: d, k (sys.handle e p.state).1⟩⟩
    | _ => none
  | .finish i, p =>
    match p.threads[i]? with
    | some ⟨_, _, .ret _⟩ | some ⟨_, _, .fail _⟩ => some { p with threads := p.threads.erase i }
    | _ => none

/-- A pool with nothing in flight. -/
def idle (s : S) : Pool R ε α C S := ⟨s, ∅⟩

theorem mem_live {p : Pool R ε α C S} {c : C} :
    c ∈ p.live ↔ ∃ (i : Nat) (th : Thread R ε α C), p.threads[i]? = some th ∧ th.call = c := by
  simp only [live, List.mem_map, Prod.exists]
  exact exists₂_congr fun i th => and_congr_left fun _ => Table.mem_toList

/-! ## What each event does -/

section Inversion

variable {sys : System R ε α C S} {p p' : Pool R ε α C S} {i : Nat} {c : C}

theorem step_spawn_inv (h : step sys (.spawn i c) p = some p') :
    p.threads[i]? = none ∧ sys.admits p.state p.live c = true ∧
      p' = { p with threads := p.threads.insert i ⟨c, [], sys.body c⟩ } := by
  simp only [step] at h
  split at h
  case isTrue hc =>
    simp only [Bool.and_eq_true, Option.isNone_iff_eq_none] at hc
    exact ⟨hc.1, hc.2, (Option.some.inj h).symm⟩
  case isFalse => cases h

theorem step_act_inv (h : step sys (.act i) p = some p') :
    ∃ c d e k, p.threads[i]? = some ⟨c, d, .act e k⟩ ∧
      p' = ⟨(sys.handle e p.state).2,
        p.threads.insert i ⟨c, e :: d, k (sys.handle e p.state).1⟩⟩ := by
  simp only [step] at h
  split at h
  case h_1 c d e k hth => exact ⟨c, d, e, k, hth, (Option.some.inj h).symm⟩
  case h_2 => cases h

theorem step_finish_inv (h : step sys (.finish i) p = some p') :
    ∃ th, p.threads[i]? = some th ∧ (∀ e k, th.prog ≠ .act e k) ∧
      p' = { p with threads := p.threads.erase i } := by
  simp only [step] at h
  split at h
  case h_1 c d a hth | h_2 c d x hth => exact ⟨_, hth, by simp, (Option.some.inj h).symm⟩
  case h_3 => cases h

end Inversion

theorem mem_live_step {sys : System R ε α C S} {p p' : Pool R ε α C S} {ev : Event C} {c : C}
    (h : step sys ev p = some p') (hc : c ∈ p'.live) : c ∈ p.live ∨ ∃ i, ev = .spawn i c := by
  obtain ⟨j, th, hj, rfl⟩ := mem_live.1 hc
  cases ev with
  | spawn i c' =>
    obtain ⟨-, -, rfl⟩ := step_spawn_inv h
    rw [Table.get_insert] at hj
    split at hj
    · cases hj
      exact .inr ⟨i, rfl⟩
    · exact .inl (mem_live.2 ⟨j, th, hj, rfl⟩)
  | act i =>
    obtain ⟨c', d, e, k, hth, rfl⟩ := step_act_inv h
    rw [Table.get_insert] at hj
    split at hj
    · cases hj
      exact .inl (mem_live.2 ⟨i, _, hth, rfl⟩)
    · exact .inl (mem_live.2 ⟨j, th, hj, rfl⟩)
  | finish i =>
    obtain ⟨th', -, -, rfl⟩ := step_finish_inv h
    rw [Table.get_erase] at hj
    split at hj
    · cases hj
    · exact .inl (mem_live.2 ⟨j, th, hj, rfl⟩)

/-! ## The invariant rule -/

/-- A call in flight, seen through its protocol: the phase it is in instead of its program. -/
structure Phased (E C G : Type) where
  call : C
  done : List E
  phase : G

/-- The calls in flight by thread, seen through their protocol. -/
abbrev Phases (E C G : Type) : Type := Nat → Option (Phased E C G)

theorem update_some_inv {γ : Phases E C G} {i j : Nat} {a b : Phased E C G} (h : Function.update γ i (some a) j = some b) :
    (j = i ∧ b = a) ∨ (j ≠ i ∧ γ j = some b) := by
  by_cases hji : j = i
  · subst hji
    exact .inl ⟨rfl, by simpa [eq_comm] using h⟩
  · exact .inr ⟨hji, by simpa [hji] using h⟩

theorem update_some_call {γ : Phases E C G} {i j : Nat} {a a' b : Phased E C G} (hi : γ i = some a)
    (h : Function.update γ i (some a') j = some b) (hcall : a'.call = a.call) : ∃ b', γ j = some b' ∧ b'.call = b.call := by
  rcases update_some_inv h with ⟨rfl, rfl⟩ | ⟨-, hj⟩
  · exact ⟨a, hi, hcall.symm⟩
  · exact ⟨b, hj, rfl⟩

theorem update_none_inv {γ : Phases E C G} {i j : Nat} {b : Phased E C G} (h : Function.update γ i none j = some b) :
    j ≠ i ∧ γ j = some b := by
  by_cases hji : j = i
  · subst hji
    simp at h
  · exact ⟨hji, by simpa [hji] using h⟩

/-- Each thread obeys the protocol from the phase recorded for it. -/
def Follows (m : Prog.Protocol R G) (Q : C → Except ε α → G → Prop) (p : Pool R ε α C S)
    (γ : Phases E C G) : Prop :=
  ∀ i, (p.threads[i]? = none ∧ γ i = none) ∨
    ∃ th g, p.threads[i]? = some th ∧ γ i = some ⟨th.call, th.done, g⟩ ∧ th.prog.Obeys m g (Q th.call)

/-- What makes `I` an invariant of the pool over the state and the phases, as long as every action
performed meets `cond`. -/
structure Invariant (sys : System R ε α C S) (m : Prog.Protocol R G) (start : C → G)
    (Q : C → Except ε α → G → Prop) (cond : S → C → E → Prop) (I : S → Phases E C G → Prop) :
    Prop where
  obeys : ∀ c, (sys.body c).Obeys m (start c) (Q c)
  spawn : ∀ s γ i c live, I s γ → γ i = none →
    (∀ c', c' ∈ live ↔ ∃ j ph, γ j = some ph ∧ ph.call = c') → sys.admits s live c = true →
    I s (Function.update γ i (some ⟨c, [], start c⟩))
  act : ∀ s γ i c d g e A N, I s γ → γ i = some ⟨c, d, g⟩ → m g e A N → cond s c e →
    A (sys.handle e s).1 ∧
      I (sys.handle e s).2 (Function.update γ i (some ⟨c, e :: d, N (sys.handle e s).1⟩))
  finish : ∀ s γ i ph r, I s γ → γ i = some ph → Q ph.call r ph.phase → I s (Function.update γ i none)

variable {sys : System R ε α C S} {m : Prog.Protocol R G} {start : C → G}
  {Q : C → Except ε α → G → Prop} {cond : S → C → E → Prop} {I : S → Phases E C G → Prop}

theorem Follows.thread {p : Pool R ε α C S} {γ : Phases E C G} (hf : Follows m Q p γ) {i : Nat}
    {th : Thread R ε α C} (hth : p.threads[i]? = some th) :
    ∃ g, γ i = some ⟨th.call, th.done, g⟩ ∧ th.prog.Obeys m g (Q th.call) := by
  rcases hf i with ⟨hn, -⟩ | ⟨th', g, hth', hγ, hob⟩
  · rw [hn] at hth
    cases hth
  · obtain rfl : th' = th := Option.some.inj (hth'.symm.trans hth)
    exact ⟨g, hγ, hob⟩

theorem Follows.pending {p : Pool R ε α C S} {γ : Phases E C G} (hf : Follows m Q p γ) {i : Nat} {c : C} {e : E}
    (hpend : p.pendingAct i = some (c, e)) : ∃ d g A N, γ i = some ⟨c, d, g⟩ ∧ m g e A N := by
  unfold pendingAct at hpend
  split at hpend
  case h_1 c' d e' k hth =>
    cases hpend
    obtain ⟨g, hγ, A, N, hm, -⟩ := hf.thread hth
    exact ⟨d, g, A, N, hγ, hm⟩
  case h_2 => cases hpend

theorem Follows.update {p : Pool R ε α C S} {γ : Phases E C G} (hf : Follows m Q p γ) {s : S}
    {i : Nat} {th : Thread R ε α C} {g : G} (hob : th.prog.Obeys m g (Q th.call)) :
    Follows m Q ⟨s, p.threads.insert i th⟩ (Function.update γ i (some ⟨th.call, th.done, g⟩)) := by
  intro j
  by_cases hij : i = j
  · subst hij
    exact .inr ⟨th, g, by simp, by simp, hob⟩
  · simpa [hij, Ne.symm hij] using hf j

theorem Follows.mem_live {p : Pool R ε α C S} {γ : Phases E C G} (hf : Follows m Q p γ) (c : C) :
    c ∈ p.live ↔ ∃ j ph, γ j = some ph ∧ ph.call = c := by
  rw [Pool.mem_live]
  refine exists_congr fun j => ⟨?_, ?_⟩
  · rintro ⟨th, hth, rfl⟩
    obtain ⟨g, hg, -⟩ := hf.thread hth
    exact ⟨_, hg, rfl⟩
  · rintro ⟨ph, hph, rfl⟩
    rcases hf j with ⟨-, hn⟩ | ⟨th, g, hth, hγ, -⟩
    · rw [hn] at hph
      cases hph
    · cases hγ.symm.trans hph
      exact ⟨th, hth, rfl⟩

/-- An event, seen through the protocol. -/
inductive PhaseStep (sys : System R ε α C S) (m : Prog.Protocol R G) (start : C → G)
    (Q : C → Except ε α → G → Prop) (p : Pool R ε α C S) (γ : Phases E C G) : Event C → S → Phases E C G → Prop where
  | spawn {i : Nat} {c : C} (hi : γ i = none) (hadm : sys.admits p.state p.live c = true) :
      PhaseStep sys m start Q p γ (.spawn i c) p.state (Function.update γ i (some ⟨c, [], start c⟩))
  | act {i : Nat} {c : C} {d : List E} {g : G} {e : E} {A : R e → Prop} {N : R e → G} (hi : γ i = some ⟨c, d, g⟩)
      (hpend : p.pendingAct i = some (c, e)) (hm : m g e A N) (hA : A (sys.handle e p.state).1) :
      PhaseStep sys m start Q p γ (.act i) (sys.handle e p.state).2
        (Function.update γ i (some ⟨c, e :: d, N (sys.handle e p.state).1⟩))
  | finish {i : Nat} {ph : Phased E C G} {r : Except ε α} (hi : γ i = some ph) (hQ : Q ph.call r ph.phase) :
      PhaseStep sys m start Q p γ (.finish i) p.state (Function.update γ i none)

theorem Follows.step {p p' : Pool R ε α C S} {ev : Event C} (hstep : Pool.step sys ev p = some p')
    {γ : Phases E C G} (hf : Follows m Q p γ)
    (hobeys : ∀ i c, ev = .spawn i c → (sys.body c).Obeys m (start c) (Q c))
    (hanswer : ∀ i c d g e A N, ev = .act i → p.pendingAct i = some (c, e) → γ i = some ⟨c, d, g⟩ → m g e A N →
      A (sys.handle e p.state).1) :
    ∃ γ', Follows m Q p' γ' ∧ PhaseStep sys m start Q p γ ev p'.state γ' := by
  cases ev with
  | spawn i c =>
    obtain ⟨hfree, hadm, rfl⟩ := step_spawn_inv hstep
    have hγ : γ i = none := by
      rcases hf i with ⟨-, h⟩ | ⟨th, g, h, -⟩
      · exact h
      · rw [hfree] at h
        cases h
    exact ⟨_, hf.update (hobeys i c rfl), .spawn hγ hadm⟩
  | act i =>
    obtain ⟨c, d, e, k, hth, rfl⟩ := step_act_inv hstep
    obtain ⟨g, hγ, A, N, hm, hk⟩ := hf.thread hth
    have hpend : p.pendingAct i = some (c, e) := by simp [pendingAct, hth]
    have hA := hanswer i c d g e A N rfl hpend hγ hm
    exact ⟨_, hf.update (hk _ hA), .act hγ hpend hm hA⟩
  | finish i =>
    obtain ⟨th, hth, hend, rfl⟩ := step_finish_inv hstep
    obtain ⟨g, hγ, hob⟩ := hf.thread hth
    obtain ⟨r, hr⟩ : ∃ r, Q th.call r g := by
      cases hp : th.prog with
      | ret a => exact ⟨.ok a, by simpa [hp] using hob⟩
      | fail x => exact ⟨.error x, by simpa [hp] using hob⟩
      | act e k => exact absurd hp (hend e k)
    refine ⟨Function.update γ i none, fun j => ?_, .finish hγ hr⟩
    by_cases hij : i = j
    · subst hij
      exact .inl ⟨by simp, by simp⟩
    · simpa [hij, Ne.symm hij] using hf j

theorem Invariant.step (hI : Invariant sys m start Q cond I) {p p' : Pool R ε α C S}
    {ev : Event C} (hstep : Pool.step sys ev p = some p') {γ : Phases E C G}
    (hf : Follows m Q p γ) (hs : I p.state γ)
    (hcond : ∀ i c e, ev = .act i → p.pendingAct i = some (c, e) → cond p.state c e) :
    ∃ γ', Follows m Q p' γ' ∧ I p'.state γ' := by
  obtain ⟨γ', hf', hmove⟩ := hf.step hstep (fun _ c _ => hI.obeys c) fun i c d g e A N hev hpend hi hm =>
    (hI.act p.state γ i c d g e A N hs hi hm (hcond i c e hev hpend)).1
  refine ⟨γ', hf', ?_⟩
  generalize p'.state = s' at hmove
  cases hmove with
  | spawn hi hadm => exact hI.spawn p.state γ _ _ p.live hs hi hf.mem_live hadm
  | act hi hpend hm hA => exact (hI.act p.state γ _ _ _ _ _ _ _ hs hi hm (hcond _ _ _ rfl hpend)).2
  | finish hi hQ => exact hI.finish p.state γ _ _ _ hs hi hQ

end Pool

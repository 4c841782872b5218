import Mathlib

/-! Little-endian numbers, lists split at a separator, and parsers that walk a byte sequence by position. `Reads`
    says which bytes a parser reads back, and composes along `bind`; `Ensures` says what any success of a parser
    implies, and `Walks` where it ends on any bytes. -/

/-! ## Splitting -/

section Splitting

variable {α : Type} [BEq α] [LawfulBEq α] {x : α}

theorem not_mem_of_mem_splitOn {xs part : List α} (h : part ∈ xs.splitOn x) : x ∉ part := by
  induction xs generalizing part with
  | nil =>
    obtain rfl : part = [] := by simpa using h
    simp
  | cons y xs ih =>
    rw [List.splitOn_cons_eq_if_modifyHead] at h
    split at h
    · rcases List.mem_cons.1 h with rfl | h
      · simp
      · exact ih h
    · obtain ⟨first, rest, hparts⟩ := List.exists_cons_of_ne_nil (List.splitOn_ne_nil x xs)
      rw [hparts] at h ih
      rcases List.mem_cons.1 h with rfl | h
      · have hy : y ≠ x := by simpa using ‹¬ (y == x) = true›
        simpa [Ne.symm hy] using ih (List.mem_cons_self ..)
      · exact ih (List.mem_cons_of_mem _ h)

theorem splitOn_eq_three {xs a b c : List α} :
    xs.splitOn x = [a, b, c] ↔ xs = a ++ x :: (b ++ x :: c) ∧ x ∉ a ∧ x ∉ b ∧ x ∉ c := by
  constructor
  · intro h
    have hnot : ∀ part ∈ [a, b, c], x ∉ part := fun part hpart => not_mem_of_mem_splitOn (h ▸ hpart)
    have hjoin : [x].intercalate (xs.splitOn x) = xs := List.intercalate_splitOn x
    rw [h] at hjoin
    refine ⟨?_, hnot a (by simp), hnot b (by simp), hnot c (by simp)⟩
    rw [← hjoin]
    simp [List.intercalate]
  · rintro ⟨rfl, ha, hb, hc⟩
    rw [List.splitOn_append_cons_self_of_not_mem ha, List.splitOn_append_cons_self_of_not_mem hb,
      List.splitOn_eq_singleton hc]

end Splitting

/-! ## Little-endian numbers -/

/-- The `n` low bytes of a number, the lowest first. -/
def leBytes : Nat → Nat → List UInt8
  | 0, _ => []
  | n + 1, x => UInt8.ofNat x :: leBytes n (x / 256)

def ofLeBytes : List UInt8 → Nat
  | [] => 0
  | b :: bs => b.toNat + 256 * ofLeBytes bs

@[simp] theorem leBytes_length (n x : Nat) : (leBytes n x).length = n := by
  induction n generalizing x with
  | zero => rfl
  | succ n ih => simp [leBytes, ih]

theorem ofLeBytes_leBytes (n x : Nat) : ofLeBytes (leBytes n x) = x % 256 ^ n := by
  induction n generalizing x with
  | zero => simp [leBytes, ofLeBytes, Nat.mod_one]
  | succ n ih =>
    have hlow : (UInt8.ofNat x).toNat = x % 256 := UInt8.toNat_ofNat'
    rw [leBytes, ofLeBytes, ih, hlow, pow_succ', Nat.mod_mul (a := 256)]

theorem ofLeBytes_lt (bs : List UInt8) : ofLeBytes bs < 256 ^ bs.length := by
  induction bs with
  | nil => simp [ofLeBytes]
  | cons b bs ih =>
    have hb : b.toNat < 256 := b.toNat_lt
    rw [ofLeBytes, List.length_cons, pow_succ']
    omega

/-! ## Text -/

theorem fromUTF8?_toUTF8 (s : String) : String.fromUTF8? ⟨s.toUTF8.data.toList.toArray⟩ = some s := by
  have hbytes : (⟨s.toUTF8.data.toList.toArray⟩ : ByteArray) = s.toByteArray := rfl
  rw [hbytes, String.fromUTF8?, dif_pos (by simpa using s.isValidUTF8)]
  rfl

theorem toUTF8_of_fromUTF8? {bs : List UInt8} {s : String} (h : String.fromUTF8? ⟨bs.toArray⟩ = some s) :
    s.toUTF8.data.toList = bs := by
  unfold String.fromUTF8? at h
  split at h
  · cases h
    rfl
  · cases h

/-! ## Parsers -/

/-- A parser of bytes: given the bytes and a position, a result and the position after it. -/
def Parser (ε α : Type) : Type := List UInt8 → Nat → Except ε (α × Nat)

namespace Parser

variable {ε α β : Type}

instance : Monad (Parser ε) where
  pure a := fun _ pos => .ok (a, pos)
  bind p f := fun buf pos =>
    match p buf pos with
    | .ok (a, pos') => f a buf pos'
    | .error x => .error x

/-- A result that does not depend on the bytes. -/
def lift (r : Except ε α) : Parser ε α := fun _ pos => r.map fun a => (a, pos)

/-- The next `n` bytes; `short` is the error when there are not as many. -/
def bytes (n : Nat) (short : List UInt8 → Nat → ε) : Parser ε (List UInt8) := fun buf pos =>
  if buf.length < pos + n then .error (short buf pos) else .ok ((buf.drop pos).take n, pos + n)

/-- The same parser, `n` times. -/
def times (p : Parser ε α) : Nat → Parser ε (List α)
  | 0 => pure []
  | n + 1 => do
    let a ← p
    let rest ← p.times n
    return a :: rest

theorem bind_apply (p : Parser ε α) (f : α → Parser ε β) (buf : List UInt8) (pos : Nat) :
    (p >>= f) buf pos =
      match p buf pos with
      | .ok (a, pos') => f a buf pos'
      | .error x => .error x := rfl

/-! ## What a parser reads back -/

/-- Wherever it stands before `bs`, the parser reads them and no more, and answers `a`. -/
def Reads (p : Parser ε α) (bs : List UInt8) (a : α) : Prop :=
  ∀ pre post, p (pre ++ (bs ++ post)) pre.length = .ok (a, pre.length + bs.length)

namespace Reads

variable {p : Parser ε α} {f : α → Parser ε β} {bs bs' : List UInt8} {a : α} {b : β}

theorem pure (a : α) : Reads (Pure.pure a : Parser ε α) [] a := fun _ _ => rfl

theorem bind (hp : Reads p bs a) (hf : Reads (f a) bs' b) : Reads (p >>= f) (bs ++ bs') b := by
  intro pre post
  have hrest := hf (pre ++ bs) post
  rw [bind_apply, List.append_assoc, hp pre (bs' ++ post)]
  simpa [Nat.add_assoc] using hrest

theorem bind_nil (hp : Reads p [] a) (hf : Reads (f a) bs b) : Reads (p >>= f) bs b := hp.bind hf

theorem bind_last (hp : Reads p bs a) (hf : Reads (f a) [] b) : Reads (p >>= f) bs b := by
  rw [← List.append_nil bs]
  exact hp.bind hf

theorem map {g : α → β} (hp : Reads p bs a) : Reads (p >>= fun a => Pure.pure (g a)) bs (g a) :=
  hp.bind_last (.pure (g a))

theorem lift {r : Except ε α} (h : r = .ok a) : Reads (Parser.lift r) [] a := by
  subst h
  exact fun _ _ => rfl

theorem bytes (bs : List UInt8) (short : List UInt8 → Nat → ε) : Reads (Parser.bytes bs.length short) bs bs := by
  intro pre post
  simp [Parser.bytes]

theorem times {as : List α} {enc : α → List UInt8} (h : ∀ a ∈ as, Reads p (enc a) a) :
    Reads (p.times as.length) (as.flatMap enc) as := by
  induction as with
  | nil => exact Reads.pure []
  | cons a as ih =>
    rw [List.length_cons, List.flatMap_cons]
    exact (h a (by simp)).bind (ih fun a' ha' => h a' (by simp [ha'])).map

theorem start (hp : Reads p bs a) (post : List UInt8) : p (bs ++ post) 0 = .ok (a, bs.length) := by
  simpa using hp [] post

end Reads

/-! ## What a success implies -/

/-- A success of the parser moves on by at least `n` bytes, and its result satisfies `Q`. -/
def Ensures (p : Parser ε α) (n : Nat) (Q : α → Prop) : Prop :=
  ∀ buf pos a pos', p buf pos = .ok (a, pos') → pos + n ≤ pos' ∧ Q a

namespace Ensures

variable {p : Parser ε α} {f : α → Parser ε β} {n m : Nat} {Q : α → Prop} {Q' : β → Prop}

theorem pure {a : α} (h : Q a) : Ensures (Pure.pure a : Parser ε α) 0 Q := by
  intro buf pos a' pos' heq
  cases heq
  exact ⟨le_rfl, h⟩

theorem bind (hp : Ensures p n Q) (hf : ∀ a, Q a → Ensures (f a) m Q') : Ensures (p >>= f) (n + m) Q' := by
  intro buf pos b pos' heq
  rw [bind_apply] at heq
  cases hfirst : p buf pos with
  | error x =>
    rw [hfirst] at heq
    cases heq
  | ok r =>
    obtain ⟨a, pos₁⟩ := r
    rw [hfirst] at heq
    obtain ⟨hmove, ha⟩ := hp buf pos a pos₁ hfirst
    obtain ⟨hmove', hb⟩ := hf a ha buf pos₁ b pos' heq
    exact ⟨by omega, hb⟩

theorem mono {Q₂ : α → Prop} (hp : Ensures p n Q) (hm : m ≤ n) (hQ : ∀ a, Q a → Q₂ a) : Ensures p m Q₂ := by
  intro buf pos a pos' heq
  obtain ⟨hmove, ha⟩ := hp buf pos a pos' heq
  exact ⟨by omega, hQ a ha⟩

theorem bind_zero (hp : Ensures p n Q) (hf : ∀ a, Q a → Ensures (f a) 0 Q') : Ensures (p >>= f) 0 Q' :=
  (hp.bind hf).mono (Nat.zero_le _) fun _ => id

theorem lift {r : Except ε α} (h : ∀ a, r = .ok a → Q a) : Ensures (Parser.lift r) 0 Q := by
  intro buf pos a pos' heq
  cases r with
  | error x => cases heq
  | ok b =>
    obtain ⟨rfl, rfl⟩ := Prod.mk.inj (Except.ok.inj heq)
    exact ⟨le_rfl, h _ rfl⟩

theorem bytes (n : Nat) (short : List UInt8 → Nat → ε) :
    Ensures (Parser.bytes n short) n fun bs => bs.length = n := by
  intro buf pos a pos' heq
  unfold Parser.bytes at heq
  split at heq
  · cases heq
  · cases heq
    refine ⟨le_rfl, ?_⟩
    change ((buf.drop pos).take n).length = n
    rw [List.length_take, List.length_drop]
    omega

theorem times (hp : Ensures p 0 Q) (n : Nat) : Ensures (p.times n) 0 fun as => as.length = n ∧ ∀ a ∈ as, Q a := by
  induction n with
  | zero => exact .pure (by simp)
  | succ n ih =>
    refine hp.bind fun a ha => ih.bind fun as has => .pure ?_
    simpa [ha] using has

end Ensures

/-! ## Layouts -/

/-- How a walk over bytes ends: after a field, with an error, or at bytes that are not there. -/
inductive Walk where
  | at (pos : Nat)
  | refused
  | overrun
  deriving DecidableEq

/-- Walk on from where a walk has come to. -/
def Walk.andThen (f : Nat → Walk) : Walk → Walk
  | .at pos => f pos
  | refused => refused
  | overrun => overrun

/-- Over `n` bytes that pass a test; `short` is the end when there are not as many. -/
def Walk.over (buf : List UInt8) (short : Walk) (test : List UInt8 → Bool) (n pos : Nat) : Walk :=
  if buf.length < pos + n then short else if test ((buf.drop pos).take n) then .at (pos + n) else .refused

/-- The number in the `w` bytes at a position. -/
def announced (w : Nat) (buf : List UInt8) (pos : Nat) : Nat := ofLeBytes ((buf.drop pos).take w)

/-- A field of a format, by what is checked before it is read and what is asked of its bytes. -/
inductive Field where
  /-- `n` bytes, checked. -/
  | fixed (n : Nat) (test : List UInt8 → Bool)
  /-- A length of `w` bytes, checked, and as many bytes, not checked. -/
  | sized (w : Nat) (test : List UInt8 → Bool)
  /-- A byte, not checked. -/
  | flag
  /-- A length of one byte, and as many bytes, nothing of it checked. -/
  | short (test : List UInt8 → Bool)
  /-- A count of one byte, and twice as many short fields, nothing of it checked. -/
  | pairs (test : List UInt8 → Bool)

namespace Field

/-- Over a short field. -/
def shortWalk (buf : List UInt8) (test : List UInt8 → Bool) (pos : Nat) : Walk :=
  (Walk.over buf .overrun (fun _ => true) 1 pos).andThen (Walk.over buf .overrun test (announced 1 buf pos))

def walk (buf : List UInt8) : Field → Nat → Walk
  | fixed n test, pos => Walk.over buf .refused test n pos
  | sized w test, pos =>
    (Walk.over buf .refused (fun _ => true) w pos).andThen (Walk.over buf .overrun test (announced w buf pos))
  | flag, pos => Walk.over buf .overrun (fun _ => true) 1 pos
  | short test, pos => shortWalk buf test pos
  | pairs test, pos =>
    (Walk.andThen (shortWalk buf test))^[2 * announced 1 buf pos] (Walk.over buf .overrun (fun _ => true) 1 pos)

end Field

/-- Over fields one after the other. -/
def layoutWalk (buf : List UInt8) : List Field → Nat → Walk
  | [], pos => .at pos
  | f :: fs, pos => (f.walk buf pos).andThen (layoutWalk buf fs)

theorem Walk.andThen_assoc (x : Walk) (f g : Nat → Walk) : (x.andThen f).andThen g = x.andThen fun pos => (f pos).andThen g := by
  cases x <;> rfl

theorem Walk.andThen_at (x : Walk) : x.andThen .at = x := by
  cases x <;> rfl

theorem Walk.iterate_andThen (f : Nat → Walk) (n : Nat) (x : Walk) :
    (andThen f)^[n] x = x.andThen fun pos => (andThen f)^[n] (.at pos) := by
  cases x with
  | «at» => rfl
  | refused | overrun => exact Function.iterate_fixed rfl n

theorem layoutWalk_append (buf : List UInt8) (fs gs : List Field) (pos : Nat) :
    layoutWalk buf (fs ++ gs) pos = (layoutWalk buf fs pos).andThen (layoutWalk buf gs) := by
  induction fs generalizing pos with
  | nil => rfl
  | cons f fs ih =>
    rw [List.cons_append, layoutWalk, layoutWalk, Walk.andThen_assoc]
    exact congrArg (Walk.andThen · _) (funext ih)

variable {fatal : ε → Bool}

/-- How a parser ends; a `fatal` error is one on bytes that are not there. -/
def outcome (fatal : ε → Bool) : Except ε (α × Nat) → Walk
  | .ok r => .at r.2
  | .error x => if fatal x then .overrun else .refused

/-- The parser ends where the layout leads, whatever the bytes. -/
def Walks (fatal : ε → Bool) (p : Parser ε α) (fs : List Field) : Prop :=
  ∀ buf pos, outcome fatal (p buf pos) = layoutWalk buf fs pos

/-- The parser fails without looking at the bytes. -/
def Refuses (fatal : ε → Bool) (p : Parser ε α) : Prop := ∀ buf pos, outcome fatal (p buf pos) = .refused

theorem Walks.pure (a : α) : Walks fatal (Pure.pure a : Parser ε α) [] := fun _ _ => rfl

theorem outcome_bind {p : Parser ε α} {f : α → Parser ε β} {buf : List UInt8} {pos : Nat} {g : Nat → Walk}
    (hf : ∀ a pos', outcome fatal (f a buf pos') = g pos') :
    outcome fatal ((p >>= f) buf pos) = (outcome fatal (p buf pos)).andThen g := by
  rw [bind_apply]
  cases p buf pos with
  | ok r => exact hf r.1 r.2
  | error x =>
    simp only [outcome]
    split <;> rfl

theorem Walks.bind {p : Parser ε α} {f : α → Parser ε β} {fs gs : List Field} (hp : Walks fatal p fs)
    (hf : ∀ a, Walks fatal (f a) gs) : Walks fatal (p >>= f) (fs ++ gs) := by
  intro buf pos
  rw [outcome_bind fun a pos' => hf a buf pos', hp, layoutWalk_append]

theorem Refuses.bind {p : Parser ε α} {f : α → Parser ε β} (h : Refuses fatal p) : Refuses fatal (p >>= f) := by
  intro buf pos
  have hp := h buf pos
  rw [bind_apply]
  cases hfirst : p buf pos with
  | error x =>
    rw [hfirst] at hp
    exact hp
  | ok r =>
    rw [hfirst] at hp
    cases hp

theorem Refuses.lift {x : ε} (h : fatal x = false) : Refuses fatal (lift (.error x) : Parser ε α) :=
  fun _ _ => if_neg (by simp [h])

theorem Walks.lift {a : α} {f : α → Parser ε β} {fs : List Field} (h : Walks fatal (f a) fs) :
    Walks fatal (Parser.lift (.ok a) >>= f) fs := h

theorem bytes_bind {n : Nat} {short : List UInt8 → Nat → ε} {f : List UInt8 → Parser ε α} {buf : List UInt8} {pos : Nat}
    {test : List UInt8 → Bool} {go : Nat → Walk} {stop : Walk}
    (hshort : (if fatal (short buf pos) then Walk.overrun else .refused) = stop)
    (hok : pos + n ≤ buf.length → test ((buf.drop pos).take n) = true →
      outcome fatal (f ((buf.drop pos).take n) buf (pos + n)) = go (pos + n))
    (hbad : test ((buf.drop pos).take n) = false → outcome fatal (f ((buf.drop pos).take n) buf (pos + n)) = .refused) :
    outcome fatal ((bytes n short >>= f) buf pos) = (Walk.over buf stop test n pos).andThen go := by
  rw [bind_apply, bytes, Walk.over]
  by_cases hlen : buf.length < pos + n
  · rw [if_pos hlen, if_pos hlen, ← hshort]
    simp only [outcome]
    split <;> rfl
  · rw [if_neg hlen, if_neg hlen]
    cases htest : test ((buf.drop pos).take n) with
    | true => exact hok (not_lt.1 hlen) htest
    | false => exact hbad htest

end Parser

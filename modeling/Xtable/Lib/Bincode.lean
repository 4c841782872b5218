import Xtable.Lib.Parser

/-! bincode 1.3 with its default options: integers of fixed width, lowest byte first; strings and byte vectors
    behind their length as a `u64`; a `bool` as one byte; a struct as its fields. `deserialize` does not ask for the
    end of the bytes, so a value reads back from the front of any bytes that begin with its encoding. -/

namespace Bincode

open Parser

inductive Error where
  /-- The bytes end within a value. -/
  | eof
  | invalidBool (b : UInt8)
  | invalidUtf8 (bs : List UInt8)
  deriving DecidableEq, Repr

/-- The encoding of a type: a value reads back from its bytes, and nothing after them is read. -/
structure Codec (α : Type) where
  serialize : α → List UInt8
  read : Parser Error α
  reads : ∀ a, Reads read (serialize a) a

/-- The length of what is in memory is a `usize`. -/
abbrev Blob : Type := { bs : List UInt8 // bs.length < 2 ^ 64 }

abbrev Text : Type := { s : String // s.toUTF8.data.toList.length < 2 ^ 64 }

namespace Codec

variable {α β : Type}

/-- Bytes after the value are ignored. -/
def deserialize (c : Codec α) (bs : List UInt8) : Except Error α := (c.read bs 0).map Prod.fst

/-! ## Numbers -/

/-- The next `n` bytes. -/
def next (n : Nat) : Parser Error (List UInt8) := Parser.bytes n fun _ _ => .eof

theorem next_reads (n x : Nat) : Reads (next n) (leBytes n x) (leBytes n x) := by
  have hbytes : Reads (next (leBytes n x).length) (leBytes n x) (leBytes n x) := Reads.bytes _ _
  rwa [leBytes_length] at hbytes

/-- A number of fixed width. -/
def fixed (n : Nat) (toNat : α → Nat) (ofNat : Nat → α) (hfits : ∀ a, toNat a < 256 ^ n)
    (hback : ∀ a, ofNat (toNat a) = a) : Codec α where
  serialize a := leBytes n (toNat a)
  read := do return ofNat (ofLeBytes (← next n))
  reads a := by
    have hmap : Reads (next n >>= fun bs => pure (ofNat (ofLeBytes bs))) (leBytes n (toNat a)) _ := (next_reads n (toNat a)).map
    rwa [ofLeBytes_leBytes, Nat.mod_eq_of_lt (hfits a), hback] at hmap

def u64 : Codec UInt64 := fixed 8 UInt64.toNat UInt64.ofNat (fun x => by simpa using x.toNat_lt) fun _ => UInt64.ofNat_toNat

def u32 : Codec UInt32 := fixed 4 UInt32.toNat UInt32.ofNat (fun x => by simpa using x.toNat_lt) fun _ => UInt32.ofNat_toNat

/-- Two's complement. -/
def i64 : Codec Int64 :=
  fixed 8 (fun x => x.toUInt64.toNat) (fun n => (UInt64.ofNat n).toInt64) (fun x => by simpa using x.toUInt64.toNat_lt)
    fun x => by rw [UInt64.ofNat_toNat, Int64.toInt64_toUInt64]

def bool : Codec Bool where
  serialize b := [if b then 1 else 0]
  read := do
    match ← next 1 with
    | [0] => return false
    | [1] => return true
    | bs => .lift (.error (bs.head?.elim .eof .invalidBool))
  reads b := by
    cases b
    · exact (Reads.bytes [0] _).bind_last (Reads.pure false)
    · exact (Reads.bytes [1] _).bind_last (Reads.pure true)

/-! ## Strings -/

/-- A byte vector behind its length. -/
def blob : Codec Blob where
  serialize b := leBytes 8 b.1.length ++ b.1
  read := do
    let bs ← next (ofLeBytes (← next 8))
    -- as many bytes as a `u64` says
    if h : bs.length < 2 ^ 64 then return ⟨bs, h⟩ else .lift (.error .eof)
  reads b := by
    refine (next_reads 8 b.1.length).bind ?_
    rw [ofLeBytes_leBytes, Nat.mod_eq_of_lt (by simpa using b.2)]
    refine Reads.bind_last (Reads.bytes b.1 _) ?_
    rw [dif_pos b.2]
    exact Reads.pure b

/-- A string as its UTF-8 bytes. -/
def text : Codec Text where
  serialize s := blob.serialize ⟨s.1.toUTF8.data.toList, s.2⟩
  read := do
    let b ← blob.read
    match h : String.fromUTF8? ⟨b.1.toArray⟩ with
    | some s => return ⟨s, by rw [toUTF8_of_fromUTF8? h]; exact b.2⟩
    | none => .lift (.error (.invalidUtf8 b.1))
  reads s := by
    refine (blob.reads _).bind_last ?_
    split
    case h_1 s' hs' =>
      obtain rfl : s' = s.1 := Option.some.inj (hs'.symm.trans (fromUTF8?_toUTF8 s.1))
      exact Reads.pure s
    case h_2 hnone =>
      rw [fromUTF8?_toUTF8] at hnone
      cases hnone

/-! ## Structs -/

/-- Two fields. -/
def prod (c : Codec α) (d : Codec β) : Codec (α × β) where
  serialize x := c.serialize x.1 ++ d.serialize x.2
  read := do
    let a ← c.read
    let b ← d.read
    return (a, b)
  reads x := (c.reads x.1).bind (d.reads x.2).map

/-- The fields under their names. -/
def iso (c : Codec α) (pack : α → β) (unpack : β → α) (hback : ∀ b, pack (unpack b) = b) : Codec β where
  serialize b := c.serialize (unpack b)
  read := do return pack (← c.read)
  reads b := by
    have hmap : Reads (c.read >>= fun a => pure (pack a)) (c.serialize (unpack b)) _ := (c.reads (unpack b)).map
    rwa [hback] at hmap

/-! ## Whole values -/

theorem deserialize_append (c : Codec α) (a : α) (rest : List UInt8) : c.deserialize (c.serialize a ++ rest) = .ok a := by
  rw [deserialize, (c.reads a).start]
  rfl

@[simp] theorem deserialize_serialize (c : Codec α) (a : α) : c.deserialize (c.serialize a) = .ok a := by
  rw [← List.append_nil (c.serialize a), deserialize_append]

/-- At the end of the bytes there is no value. -/
def Asks (c : Codec α) : Prop := ∀ bs, c.read bs bs.length = .error .eof

theorem blob_asks : blob.Asks := by
  intro bs
  have hnext : next 8 bs bs.length = .error .eof := if_pos (by omega)
  simp [blob, bind_apply, hnext]

theorem text_asks : text.Asks := by
  intro bs
  simp [text, bind_apply, blob_asks bs]

theorem prod_deserialize_front (c : Codec α) {d : Codec β} (hd : d.Asks) (a : α) :
    (c.prod d).deserialize (c.serialize a) = .error .eof := by
  have hfront : c.read (c.serialize a) 0 = .ok (a, (c.serialize a).length) := by
    simpa using (c.reads a).start []
  simp [deserialize, prod, bind_apply, hfront, hd _, Except.map]

theorem iso_deserialize (c : Codec α) (pack : α → β) (unpack : β → α) (hback : ∀ b, pack (unpack b) = b) (bs : List UInt8) :
    (c.iso pack unpack hback).deserialize bs = (c.deserialize bs).map pack := by
  simp only [deserialize, iso, bind_apply]
  cases c.read bs 0 <;> rfl

end Codec

end Bincode

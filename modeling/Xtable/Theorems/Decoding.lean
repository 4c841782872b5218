import Xtable.Theorems.ChunkFormat

/-! The decoders check the bytes of a fixed field, but slice the bytes that a length announces without a check. They
    panic exactly if such a length, before any error, leads out of the bytes. -/

namespace Xtable

open Parser Decoder

variable {what : String} {bs : Bytes}

/-! ## Layouts -/

def anyBytes (_ : Bytes) : Bool := true

def isText (bs : Bytes) : Bool := (String.fromUTF8? ⟨bs.toArray⟩).isSome

def isKey (bs : Bytes) : Bool := ((bs.splitOn 0).take 3).all isText

/-- The header from its version on. -/
def headerLayout : List Field :=
  [.fixed 2 fun bs => ofLeBytes bs = chunkVersion, .sized 2 isText, .fixed 8 anyBytes, .fixed 8 anyBytes, .fixed 8 anyBytes,
    .sized 2 isText, .sized 2 isText, .sized 2 anyBytes, .sized 2 anyBytes, .fixed 8 anyBytes]

def footerLayout (c : Codecs) : List Field :=
  [.sized 4 anyBytes, .sized 4 fun bs => (c.bincodeDeserialize bs).isOk, .fixed 4 anyBytes]

def entryLayout : List Field :=
  [.sized 2 isKey, .sized 4 anyBytes, .short isText, .pairs isText, .fixed 4 anyBytes, .short isText, .fixed 8 anyBytes,
    .fixed 8 anyBytes, .flag, .fixed 4 anyBytes]

/-- Over the header of a file. -/
def headerWalk (file : Bytes) : Walk :=
  if file.length < 4 + 2 ∨ file.take 4 ≠ chunkMagic then .refused else layoutWalk file headerLayout 4

/-- Over a footer. -/
def footerWalk (c : Codecs) (buf : Bytes) : Walk :=
  if buf.length < 4 + 4 ∨ buf.drop (buf.length - 4) ≠ footerMagic then .refused else layoutWalk buf (footerLayout c) 0

/-- Over the header of a file, and back from its end over the footer that its last bytes announce. -/
def fileWalk (file : Bytes) : Walk :=
  (headerWalk file).andThen fun bodyOffset =>
    if file.length < bodyOffset + 4 then .refused
    else if bodyOffset ≤ file.length - 4 - announced 4 file (file.length - 4) then .at file.length else .overrun

/-- Over at most as many entries of a body, to its end. -/
def bodyWalk (body : Bytes) : Nat → Nat → Walk
  | 0, pos => if pos < body.length then .overrun else .at body.length
  | n + 1, pos => if pos < body.length then (layoutWalk body entryLayout pos).andThen (bodyWalk body n) else .at body.length

theorem isText_nil : isText [] = true := by decide

theorem isKey_eq (bs : Bytes) : isKey bs = (isText (((bs.splitOn 0)[0]?).getD []) && (isText (((bs.splitOn 0)[1]?).getD []) &&
    isText (((bs.splitOn 0)[2]?).getD []))) := by
  rw [isKey]
  rcases bs.splitOn 0 with _ | ⟨a, _ | ⟨b, _ | ⟨d, rest⟩⟩⟩ <;> simp [isText_nil]

/-! ## Fields -/

def Fault.isPanic (x : Fault) : Bool := x = .panic

section Fields

variable {c : Codecs} {α : Type} {fs : List Field} {test : Bytes → Bool}

theorem readLe_bind (n : Nat) (f : Nat → Decoder α) : readLe n >>= f =
    Parser.bytes n (fun buf pos => storageFault ("chunk: truncated, need " ++ toString n ++ " bytes at offset " ++ toString pos ++
      ", have " ++ toString buf.length)) >>= fun bs => f (ofLeBytes bs) := by
  funext buf pos
  rw [bind_apply, readLe, bind_apply, bind_apply]
  cases Parser.bytes n _ buf pos <;> rfl

theorem byte_bind (f : Nat → Decoder α) : byte >>= f = slice 1 >>= fun bs => f (ofLeBytes bs) := by
  funext buf pos
  rw [bind_apply, byte, bind_apply, bind_apply]
  cases slice 1 buf pos <;> rfl

theorem fixed_walks {n : Nat} {f : Nat → Decoder α} (hok : ∀ bs, test bs = true → Walks Fault.isPanic (f (ofLeBytes bs)) fs)
    (hbad : ∀ bs, test bs = false → Refuses Fault.isPanic (f (ofLeBytes bs))) :
    Walks Fault.isPanic (readLe n >>= f) (.fixed n test :: fs) := by
  intro buf pos
  rw [readLe_bind, layoutWalk, Field.walk]
  exact bytes_bind rfl (fun _ h => hok _ h buf _) fun h => hbad _ h buf _

theorem fixed_any_walks {n : Nat} {f : Nat → Decoder α} (h : ∀ x, Walks Fault.isPanic (f x) fs) :
    Walks Fault.isPanic (readLe n >>= f) (.fixed n anyBytes :: fs) :=
  fixed_walks (fun _ _ => h _) fun _ h => by cases h

theorem sized_walks {w : Nat} {f : Bytes → Decoder α} (hok : ∀ bs, test bs = true → Walks Fault.isPanic (f bs) fs)
    (hbad : ∀ bs, test bs = false → Refuses Fault.isPanic (f bs)) :
    Walks Fault.isPanic (readLe w >>= fun n => slice n >>= f) (.sized w test :: fs) := by
  intro buf pos
  rw [readLe_bind, layoutWalk, Field.walk, Walk.andThen_assoc]
  refine bytes_bind rfl (fun _ _ => ?_) fun h => by cases h
  exact bytes_bind rfl (fun _ h => hok _ h buf _) fun h => hbad _ h buf _

theorem sized_any_walks {w : Nat} {f : Bytes → Decoder α} (h : ∀ bs, Walks Fault.isPanic (f bs) fs) :
    Walks Fault.isPanic (readLe w >>= fun n => slice n >>= f) (.sized w anyBytes :: fs) :=
  sized_walks (fun bs _ => h bs) fun _ h => by cases h

theorem short_walks {f : Bytes → Decoder α} (hok : ∀ bs, test bs = true → Walks Fault.isPanic (f bs) fs)
    (hbad : ∀ bs, test bs = false → Refuses Fault.isPanic (f bs)) :
    Walks Fault.isPanic (byte >>= fun n => slice n >>= f) (.short test :: fs) := by
  intro buf pos
  rw [byte_bind, layoutWalk, Field.walk, Field.shortWalk, Walk.andThen_assoc]
  refine bytes_bind rfl (fun _ _ => ?_) fun h => by cases h
  exact bytes_bind rfl (fun _ h => hok _ h buf _) fun h => hbad _ h buf _

theorem text_walks {f : String → Decoder α} (h : ∀ s, Walks Fault.isPanic (f s) fs) (htext : isText bs = true) :
    Walks Fault.isPanic (text c what bs >>= f) fs := by
  obtain ⟨s, hs⟩ := Option.isSome_iff_exists.1 htext
  simp only [text, hs]
  exact .lift (h s)

theorem text_refuses (htext : isText bs = false) : Refuses Fault.isPanic (text c what bs) := by
  simp only [text, Option.isSome_eq_false_iff.1 htext |> Option.isNone_iff_eq_none.1]
  exact .lift rfl

theorem text_bind_refuses {f : String → Decoder α} (h : ∀ s, Refuses Fault.isPanic (f s)) :
    Refuses Fault.isPanic (text c what bs >>= f) := by
  cases htext : isText bs with
  | false => exact (text_refuses htext).bind
  | true =>
    obtain ⟨s, hs⟩ := Option.isSome_iff_exists.1 htext
    simp only [text, hs]
    exact h s

theorem sized_text_walks {w : Nat} {f : String → Decoder α} (h : ∀ s, Walks Fault.isPanic (f s) fs) :
    Walks Fault.isPanic (readLe w >>= fun n => slice n >>= fun bs => text c what bs >>= f) (.sized w isText :: fs) :=
  sized_walks (fun _ => text_walks h) fun _ hbad => (text_refuses hbad).bind

theorem short_text_walks {f : String → Decoder α} (h : ∀ s, Walks Fault.isPanic (f s) fs) :
    Walks Fault.isPanic (byte >>= fun n => slice n >>= fun bs => text c what bs >>= f) (.short isText :: fs) :=
  short_walks (fun _ => text_walks h) fun _ hbad => (text_refuses hbad).bind

/-! ## Header and footer -/

theorem headerFields_walks (c : Codecs) : Walks Fault.isPanic (headerFields c) headerLayout := by
  refine fixed_walks (fun bs hversion => ?_) fun bs hversion => ?_
  · rw [if_neg (not_not.2 (of_decide_eq_true hversion))]
    refine sized_text_walks fun _ => fixed_any_walks fun _ => fixed_any_walks fun _ => fixed_any_walks fun _ => ?_
    refine sized_text_walks fun _ => sized_text_walks fun _ => sized_any_walks fun _ => sized_any_walks fun _ => ?_
    exact fixed_any_walks fun _ => .pure _
  · rw [if_pos (of_decide_eq_false hversion)]
    exact .lift rfl

theorem footerFields_walks (c : Codecs) : Walks Fault.isPanic (footerFields c) (footerLayout c) := by
  refine sized_any_walks fun _ => sized_walks (fun bs hok => ?_) fun bs hbad => ?_
  · cases hindex : c.bincodeDeserialize bs with
    | ok keyIndex => exact .lift (fixed_any_walks fun _ => .pure _)
    | error => simp [hindex, Except.isOk, Except.toBool] at hok
  · cases hindex : c.bincodeDeserialize bs with
    | ok keyIndex => simp [hindex, Except.isOk, Except.toBool] at hbad
    | error => exact (Refuses.lift rfl).bind

/-! ## Entries -/

theorem contentTypeField_walks (c : Codecs) : Walks Fault.isPanic (contentTypeField c) [.short isText] := by
  intro buf pos
  rw [contentTypeField, byte_bind, layoutWalk, Field.walk, Field.shortWalk, Walk.andThen_assoc]
  refine bytes_bind rfl (fun hlen _ => ?_) fun h => by cases h
  change outcome _ ((if 0 < announced 1 buf pos then _ else _ : Decoder (Option String)) buf (pos + 1)) = _
  split
  · exact bytes_bind rfl (fun _ h => text_walks (fun _ => .pure _) h buf _) fun h => (text_refuses h).bind buf _
  case isFalse hzero =>
    rw [Nat.eq_zero_of_not_pos hzero, Walk.over, List.take_zero, isText_nil, if_neg (not_lt.2 hlen)]
    rfl

theorem metaPair_walks (c : Codecs) : Walks Fault.isPanic (metaPair c) [.short isText, .short isText] :=
  short_text_walks fun _ => short_text_walks fun _ => .pure _

theorem metaPairs_outcome (c : Codecs) (buf : Bytes) (n pos : Nat) : outcome Fault.isPanic ((metaPair c).times n buf pos) =
    (Walk.andThen (Field.shortWalk buf isText))^[2 * n] (.at pos) := by
  induction n generalizing pos with
  | zero => rfl
  | succ n ih =>
    have hrest : ∀ a pos', outcome Fault.isPanic (((metaPair c).times n >>= fun rest => pure (a :: rest)) buf pos') =
        (Walk.andThen (Field.shortWalk buf isText))^[2 * n] (.at pos') := by
      intro a pos'
      rw [outcome_bind (g := .at) fun _ _ => rfl, ih, Walk.andThen_at]
    rw [Parser.times, outcome_bind hrest, metaPair_walks, ← Walk.iterate_andThen, Nat.mul_succ, Function.iterate_add_apply]
    simp only [layoutWalk, Field.walk, Walk.andThen_at]
    rfl

theorem pairs_walks {f : List (String × String) → Decoder α} (h : ∀ um, Walks Fault.isPanic (f um) fs) :
    Walks Fault.isPanic (byte >>= fun n => (metaPair c).times n >>= f) (.pairs isText :: fs) := by
  intro buf pos
  rw [byte_bind, layoutWalk, Field.walk, Walk.iterate_andThen, Walk.andThen_assoc]
  refine bytes_bind rfl (fun _ _ => ?_) fun h => by cases h
  rw [outcome_bind fun um pos' => h um buf pos', metaPairs_outcome]
  rfl

theorem keyParts_walks {f : String × String × String → Decoder α} (h : ∀ key, Walks Fault.isPanic (f key) fs)
    (hkey : isKey bs = true) : Walks Fault.isPanic (keyParts c bs >>= f) fs := by
  rw [isKey_eq, Bool.and_eq_true, Bool.and_eq_true] at hkey
  obtain ⟨hspace, htable, hid⟩ := hkey
  have hparts : Walks Fault.isPanic (keyParts c bs) [] :=
    text_walks (fun _ => text_walks (fun _ => text_walks (fun _ => .pure _) hid) htable) hspace
  exact hparts.bind h

theorem keyParts_refuses (hkey : isKey bs = false) : Refuses Fault.isPanic (keyParts c bs) := by
  rw [isKey_eq, Bool.and_eq_false_iff, Bool.and_eq_false_iff] at hkey
  rcases hkey with hspace | htable | hid
  · exact (text_refuses hspace).bind
  · exact text_bind_refuses fun _ => (text_refuses htable).bind
  · exact text_bind_refuses fun _ => text_bind_refuses fun _ => (text_refuses hid).bind

theorem decodeEntry_walks (c : Codecs) : Walks Fault.isPanic (decodeEntry c) entryLayout := by
  refine sized_walks (fun bs => keyParts_walks fun key => ?_) fun bs hbad => (keyParts_refuses hbad).bind
  refine sized_any_walks fun _ => (contentTypeField_walks c).bind fun _ => pairs_walks fun _ => fixed_any_walks fun _ => ?_
  refine short_text_walks fun _ => fixed_any_walks fun _ => fixed_any_walks fun _ => ?_
  intro buf pos
  rw [byte_bind, layoutWalk, Field.walk]
  refine bytes_bind rfl (fun _ _ => ?_) fun h => by cases h
  exact fixed_any_walks (fun _ => .pure _) buf _

end Fields

/-! ## Bodies and files -/

theorem decodeEntries_outcome (c : Codecs) (body : Bytes) (fuel pos : Nat) :
    outcome Fault.isPanic ((decodeEntries c body fuel pos).map fun es => (es, body.length)) = bodyWalk body fuel pos := by
  induction fuel generalizing pos with
  | zero =>
    rw [decodeEntries, bodyWalk]
    split <;> rfl
  | succ fuel ih =>
    rw [decodeEntries, bodyWalk]
    split
    · have hentry := decodeEntry_walks c body pos
      rw [← hentry]
      cases decodeEntry c body pos with
      | error x => cases x <;> rfl
      | ok r =>
        have hrest := ih r.2
        refine Eq.trans ?_ hrest
        cases hes : decodeEntries c body fuel r.2 <;> simp [hes, Except.map, outcome]
    · rfl

theorem ne_panic_iff {α : Type} {r : Except Fault (α × Nat)} {walk : Walk} (h : outcome Fault.isPanic r = walk) :
    r ≠ .error .panic ↔ walk ≠ .overrun := by
  subst h
  rcases r with (x | _) | r <;> simp [outcome, Fault.isPanic]

theorem ChunkHeader.decode_outcome (c : Codecs) (file : Bytes) :
    outcome Fault.isPanic (ChunkHeader.decode c file) = headerWalk file := by
  rw [ChunkHeader.decode, headerWalk]
  split
  · rfl
  · exact headerFields_walks c file 4

theorem ChunkFooter.decode_ne_panic (c : Codecs) (buf : Bytes) :
    ChunkFooter.decode c buf ≠ .error .panic ↔ footerWalk c buf ≠ .overrun := by
  rw [ChunkFooter.decode, footerWalk]
  split
  · simp [storageFault]
  · rw [← ne_panic_iff (footerFields_walks c buf 0)]
    cases footerFields c buf 0 <;> simp [Except.map]

theorem readLe_eq {n : Nat} {buf : Bytes} {pos : Nat} (h : pos + n ≤ buf.length) :
    readLe n buf pos = .ok (announced n buf pos, pos + n) := by
  have hbytes : ∀ short, Parser.bytes (ε := Fault) n short buf pos = .ok ((buf.drop pos).take n, pos + n) := fun _ =>
    if_neg (not_lt.2 h)
  rw [readLe, bind_apply, hbytes]
  rfl

theorem decompressBody_ne_panic (c : Codecs) (file : Bytes) :
    decompressBody c file ≠ .error .panic ↔ fileWalk file ≠ .overrun := by
  rw [decompressBody, fileWalk, ← ChunkHeader.decode_outcome c file]
  cases ChunkHeader.decode c file with
  | error x => rcases x with _ | _ <;> simp [outcome, Fault.isPanic, Walk.andThen, bind, Except.bind]
  | ok r =>
    obtain ⟨header, bodyOffset⟩ := r
    change (if file.length < bodyOffset + 4 then _ else _) ≠ _ ↔ (if file.length < bodyOffset + 4 then _ else _) ≠ _
    split
    · simp [storageFault]
    case isFalse hlong =>
      simp only [readLe_eq (show file.length - 4 + 4 ≤ file.length by omega), bind, Except.bind, sliceRange]
      by_cases hfooter : bodyOffset ≤ file.length - 4 - announced 4 file (file.length - 4)
      · rw [if_pos hfooter, if_pos (by omega)]
        simp only [ne_eq, reduceCtorEq, not_false_eq_true, iff_true]
        split <;> simp [storageFault]
      · rw [if_neg hfooter, if_neg (by omega)]
        simp

theorem decodeBodyEntries_ne_panic (c : Codecs) (body : Bytes) (n : UInt64) :
    decodeBodyEntries c body n ≠ .error .panic ↔ bodyWalk body body.length 0 ≠ .overrun := by
  rw [← ne_panic_iff (decodeEntries_outcome c body body.length 0), decodeBodyEntries]
  cases decodeEntries c body body.length 0 <;> simp [Except.map]

/-- Every decoder returns exactly on those bytes on which no length that it follows without a check leads out of them, and the
allocator serves the count that it is given. -/
theorem decoders_return (c : Codecs) (size : Nat) (n : UInt64) (buf : Bytes) :
    (ChunkHeader.decode c buf ≠ .error .panic ↔ headerWalk buf ≠ .overrun) ∧
    (ChunkFooter.decode c buf ≠ .error .panic ↔ footerWalk c buf ≠ .overrun) ∧
    (decompressBody c buf ≠ .error .panic ↔ fileWalk buf ≠ .overrun) ∧
    (decodeBodyEntriesAllocating c size buf n ≠ .error .panic ↔
      size * n.toNat < 2 ^ 63 ∧ c.allocates (size * n.toNat) = true ∧ bodyWalk buf buf.length 0 ≠ .overrun) := by
  refine ⟨ne_panic_iff (ChunkHeader.decode_outcome c buf), ChunkFooter.decode_ne_panic c buf, decompressBody_ne_panic c buf, ?_⟩
  rw [decodeBodyEntriesAllocating, withCapacity, ← and_assoc]
  by_cases hsize : size * n.toNat < 2 ^ 63 ∧ c.allocates (size * n.toNat) = true
  · rw [if_pos hsize]
    exact (decodeBodyEntries_ne_panic c buf n).trans (and_iff_right hsize).symm
  · rw [if_neg hsize]
    exact ⟨fun h => absurd rfl h, fun h => absurd h.1 hsize⟩

/-- A header without names, for a body of one byte that is not there. -/
def ChunkHeader.bare : ChunkHeader := ⟨"", 0, 1, 1, "", "", [], [], 1⟩

/-- Bytes that end too early: a chunk id, a bloom filter and a content type that are cut off, a footer that would
start inside the header, and a count that is too large to allocate for. -/
theorem decoders_panic :
    ChunkHeader.decode .stored (chunkMagic ++ [1, 0, 255, 255]) = .error .panic ∧
    ChunkFooter.decode .stored ([9, 0, 0, 0] ++ footerMagic) = .error .panic ∧
    decompressBody .stored (ChunkHeader.bare.encode ++ [1, 0, 0, 0]) = .error .panic ∧
    decodeBodyEntries .stored [0, 0, 0, 0, 0, 0] 1 = .error .panic ∧
    decodeBodyEntriesAllocating .stored 1 [] (2 ^ 63) = .error .panic := by
  decide +kernel

end Xtable

import Xtable.Theorems.ColdReads

/-! No reader compares the checksum of a body with the one in the footer. Entries of a corrupt body are kept out
    only where they cannot be decoded. -/

namespace Xtable

open Rebuild

/-- A file whose body does not have the checksum in its footer. -/
structure Corrupt (c : Codecs) (file body : Bytes) : Prop where
  decompressed : decompressBody c file = .ok body
  checksum : ∃ footer, decodeFooter c file = .ok footer ∧ footer.bodyCrc32c ≠ c.crc32 body

/-- The layout of the entries leads through a body to its end, and there is an entry. -/
def Framed (body : Bytes) : Prop := body ≠ [] ∧ bodyWalk body body.length 0 = .at body.length

instance (body : Bytes) : Decidable (Framed body) := inferInstanceAs (Decidable (_ ∧ _))

/-- Neither a read nor a rebuild accepts an entry of a file. -/
structure Rejected (c : Codecs) (file : Bytes) : Prop where
  read : ∀ store backend idx chunk rk snapshot r, Read.lookupChunkForRecord store idx = some chunk →
    backend.objects[chunk.s3Key]? = some file → Read.readFromChunk c store backend rk snapshot idx ≠ .ok (some r)
  rebuild : ∀ (backend : Backend) (key : String) listed order, backend.objects[key]? = some file → (∀ l, (order l).Perm l) →
    StandsFor (fun h => ∃ lo ∈ listed, lo.key ≠ key ∧ ∃ ch, scanObject c backend lo = .ok (some ch) ∧ h ∈ ch.historical)
      ((rebuild c backend (.ok listed) order).run RebuildAct.exec {}).2

section Readers

variable {c : Codecs} {file body : Bytes} {n : UInt64} {es : List ChunkEntry}

theorem framed_of_entries (hes : decodeBodyEntries c body n = .ok es) (hne : es ≠ []) : Framed body := by
  have hwalk := decodeEntries_outcome c body body.length 0
  rw [decodeBodyEntries] at hes
  rw [hes] at hwalk
  refine ⟨?_, hwalk.symm⟩
  rintro rfl
  cases hes
  exact hne rfl

theorem Framed.entries (h : Framed body) (c : Codecs) (n : UInt64) : ∃ e es, decodeBodyEntries c body n = .ok (e :: es) := by
  have hwalk := (decodeEntries_outcome c body body.length 0).trans h.2
  rw [decodeBodyEntries]
  cases hes : decodeEntries c body body.length 0 with
  | error x => rcases x with _ | _ <;> simp [hes, Except.map, Parser.outcome, Fault.isPanic] at hwalk
  | ok es =>
    cases es with
    | cons e es => exact ⟨e, es, rfl⟩
    | nil =>
      obtain ⟨b, rest, rfl⟩ := List.exists_cons_of_ne_nil h.1
      simp only [List.length_cons, decodeEntries] at hes
      split at hes
      case isFalse hend => exact absurd (Nat.succ_pos _) hend
      case isTrue =>
        split at hes
        · cases hes
        case h_2 e offset _ =>
          cases hrest : decodeEntries c (b :: rest) rest.length offset <;> simp [hrest, Except.map] at hes

theorem readFromChunk_entries (hbody : decompressBody c file = .ok body) {store : Store} {backend : Backend}
    {idx : RecordIndexEntry} {chunk : ChunkIndexEntry} (hchunk : Read.lookupChunkForRecord store idx = some chunk)
    (hobject : backend.objects[chunk.s3Key]? = some file) {rk : RecordKey} {snapshot : Nat} {r : ReadResult}
    (hread : Read.readFromChunk c store backend rk snapshot idx = .ok (some r)) : Framed body := by
  unfold Read.readFromChunk at hread
  simp only [hchunk, hobject, hbody, bind, Except.bind, pure, Except.pure] at hread
  split at hread
  · cases hread
  · cases hes : decodeBodyEntries c body (Read.expectedCount chunk) with
    | error x => simp [hes] at hread
    | ok es =>
      refine framed_of_entries hes fun hnil => ?_
      simp [hes, hnil, Read.maxByKey] at hread

theorem scanObject_entries (hbody : decompressBody c file = .ok body) {backend : Backend} {lo : ListedObject}
    (hobject : backend.objects[lo.key]? = some file) {ch : Chunk} (hscan : scanObject c backend lo = .ok (some ch))
    {h : HistoricalRecord} (hh : h ∈ ch.historical) : Framed body := by
  obtain ⟨-, bytes, body', hbytes, hbody', hentries⟩ := scanObject_eq_some hscan
  cases hobject.symm.trans hbytes
  cases hbody.symm.trans hbody'
  refine framed_of_entries (hentries 0) fun hnil => ?_
  rw [Chunk.historical, hnil] at hh
  cases hh

theorem Framed.read (h : Framed body) (hbody : decompressBody c file = .ok body) : ¬ Rejected c file := by
  intro hrejected
  let idx : RecordIndexEntry := ⟨0, false, "c", 0, ""⟩
  let chunk : ChunkIndexEntry := ⟨"k", "", "", 0, [], [], 0, 0, 0, 0, 0, none, .live⟩
  obtain ⟨e, es, hes⟩ := h.entries c (Read.expectedCount chunk)
  have hchunk : Read.lookupChunkForRecord (({} : Store).putChunkIndex "c" chunk) idx = some chunk := by
    simp [Read.lookupChunkForRecord, Store.getChunkIndex, Store.putChunkIndex, idx]
  have hobject : (⟨(∅ : Table String Bytes).insert "k" file, id, id⟩ : Backend).objects[chunk.s3Key]? = some file := by
    simp [chunk]
  have hmatch : e ∈ (e :: es).filter (Read.chunkMatches (e.space, e.table, e.recordId) e.commitVersion.toNat) := by
    simp [Read.chunkMatches]
  have hspec := maxByKey_spec (·.commitVersion.toNat)
    ((e :: es).filter (Read.chunkMatches (e.space, e.table, e.recordId) e.commitVersion.toNat))
  cases hhit : Read.maxByKey (·.commitVersion.toNat)
      ((e :: es).filter (Read.chunkMatches (e.space, e.table, e.recordId) e.commitVersion.toNat)) with
  | none =>
    rw [hhit] at hspec
    rw [hspec] at hmatch
    cases hmatch
  | some x =>
    refine hrejected.read _ _ idx chunk (e.space, e.table, e.recordId) e.commitVersion.toNat (Read.chunkResult x) hchunk hobject ?_
    have hbloom : chunk.bloom = none := rfl
    simp only [Read.readFromChunk, hchunk, hbloom, hobject, hbody, hes, bind, Except.bind, pure, Except.pure, hhit,
      Option.any_none, Option.map_some, Bool.false_eq_true, if_false]

end Readers

/-- Neither a read nor a rebuild accepts an entry of a corrupt file exactly if its body has no entries that can be decoded to the
end. -/
theorem corrupt_rejected {c : Codecs} {file body : Bytes} (hcorrupt : Corrupt c file body) : Rejected c file ↔ ¬ Framed body := by
  refine ⟨fun hrejected hframed => hframed.read hcorrupt.decompressed hrejected, fun hframed => ⟨?_, ?_⟩⟩
  · exact fun store backend idx chunk rk snapshot r hchunk hobject hread =>
      hframed (readFromChunk_entries hcorrupt.decompressed hchunk hobject hread)
  · refine fun backend key listed order hobject horder => (rebuild_standsFor horder).mono fun h hh => ?_
    obtain ⟨lo, hlo, ch, hscan, hmem⟩ := hh
    exact ⟨lo, hlo, fun hkey => hframed (scanObject_entries hcorrupt.decompressed (hkey ▸ hobject) hscan hmem), ch, hscan, hmem⟩

/-- Checksums that add up the bytes. -/
def Codecs.summed : Codecs := { Codecs.stored with crc32 := fun bs => UInt32.ofNat (bs.map (·.toNat)).sum }

def writtenChunk : Bytes × ChunkHeader × ChunkFooter :=
  match writeChunk .summed "c" "s" "t" 0 [.small] with
  | .ok r => r
  | .error _ => ([], .bare, ⟨[], [], 0⟩)

def tamperedFile : Bytes := writtenChunk.1.set 72 9

def tamperedBody : Bytes := (tamperedFile.drop 61).take 49

def tamperedBackend : Backend where
  objects := (∅ : Table String Bytes).insert "c.xtc" tamperedFile

/-- A corrupt file that both readers accept: the entry has another value than the one that was written. -/
theorem corrupt_accepted : Corrupt .summed tamperedFile tamperedBody ∧
    ((Read.readFromChunk .summed
        (({} : Store).putChunkIndex "c" (Chunk.indexEntry ⟨⟨"c.xtc", 0, ""⟩, writtenChunk.2.1, [.small]⟩))
        tamperedBackend ("s", "t", "r") 7 ⟨7, false, "c", 1, "x"⟩).map fun r => r.map (·.body)) = .ok (some [9, 2]) ∧
    (((rebuild .summed tamperedBackend (.ok [⟨"c.xtc", 0, ""⟩]) id).run RebuildAct.exec {}).2.recordVersions[
      (("s", "t", "r"), 7)]?.map (·.body)) = some [9, 2] ∧ ChunkEntry.small.value = [1, 2] := by
  refine ⟨⟨by decide +kernel, writtenChunk.2.2, by decide +kernel, by decide +kernel⟩, ?_⟩
  decide +kernel

def paddedFile : Bytes := writtenChunk.1.take 110 ++ 1 :: writtenChunk.1.drop 110

def paddedBody : Bytes := (paddedFile.drop 61).take 50

theorem corrupt_rejected_padded : Corrupt .summed paddedFile paddedBody ∧ Rejected .summed paddedFile := by
  have hcorrupt : Corrupt .summed paddedFile paddedBody :=
    ⟨by decide +kernel, writtenChunk.2.2, by decide +kernel, by decide +kernel⟩
  exact ⟨hcorrupt, (corrupt_rejected hcorrupt).2 (by decide +kernel)⟩

end Xtable

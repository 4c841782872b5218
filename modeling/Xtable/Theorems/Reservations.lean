import Xtable.Theorems.SnapshotReads
import Xtable.Theorems.Snapshots

/-! `decode_body_entries` reserves a slot for each entry it is told to expect: for a read the width of the range of
    versions in the chunk's row, for a cold rebuild the count in the file's header. Neither is bounded by the body.
    Reading stays linear in the body exactly where the range spans no more versions than the entries have bytes, and
    the header counts no more entries than the body has bytes. -/

namespace Xtable

open Rebuild

/-- How many slots `decode_body_entries` reserves, told to expect this many entries. -/
def reservedSlots (expectedCount : UInt64) : Nat := expectedCount.toNat

/-- The number of versions from `lo` to `hi`, in the arithmetic of `u64`. -/
def versionSpan (lo : WithTop Nat) (hi : Nat) : Nat := (hi + 1 - lo.untopD 0) % 2 ^ 64

theorem reservedSlots_row (chunk : ChunkIndexEntry) {v : Nat} (hmin : chunk.commitVersionMin ≤ (v : WithTop Nat))
    (hmax : v ≤ chunk.commitVersionMax) :
    reservedSlots (Read.expectedCount chunk) = versionSpan chunk.commitVersionMin chunk.commitVersionMax := by
  obtain ⟨lo, hlo⟩ := WithTop.ne_top_iff_exists.1 (ne_top_of_le_ne_top WithTop.coe_ne_top hmin)
  rw [← hlo] at hmin
  have hle : lo ≤ v := WithTop.coe_le_coe.1 hmin
  simp only [reservedSlots, Read.expectedCount, versionSpan, ← hlo, UInt64.toNat_add, UInt64.toNat_sub,
    UInt64.toNat_ofNat']
  change ((2 ^ 64 - lo % 2 ^ 64 + chunk.commitVersionMax % 2 ^ 64) % 2 ^ 64 + 1) % 2 ^ 64 =
    (chunk.commitVersionMax + 1 - lo) % 2 ^ 64
  omega

/-! ## Flushed chunks -/

variable {c : Codecs} {mt : MemTable} {chunkId : String} {nowMs : Int64} {entries : List MemEntry} {file : Bytes}
  {header : ChunkHeader} {footer : ChunkFooter}

theorem MemTable.Built.range (h : mt.Built) {rk : RecordKey} {e : MemEntry} {v : Nat} (he : mt.map[rk]? = some e)
    (hv : e.commitVersion = (v : WithTop Nat)) : mt.versionMin ≤ (v : WithTop Nat) ∧ v ≤ mt.versionMax := h.reached.range he hv

theorem length_bodyBytes (c : Codecs) (es : List ChunkEntry) :
    (bodyBytes c es).length = (es.map fun e => payloadLen e + 4).sum := by
  have hlen : ∀ e, (entryBytes c e).length = payloadLen e + 4 := by
    intro e
    rw [entryBytes, List.length_append, entryPayload_length, leBytes_length]
  simp only [bodyBytes, List.length_flatMap, hlen]

theorem Flush.reserves (hbuilt : mt.Built) (hperm : entries.Perm mt.entries)
    (hfile : Flush.chunkFile c chunkId nowMs entries = .ok (some (file, header, footer))) :
    reservedSlots (Read.expectedCount (Flush.indexEntry c chunkId mt file header footer)) =
      versionSpan mt.versionMin mt.versionMax := by
  -- the file has an entry, so that the range is not empty
  obtain ⟨ce, hce, -⟩ := Flush.chunkFile_some hfile
  obtain ⟨e, he, hentry⟩ := List.mem_filterMap.1 (List.mem_of_mem_head? hce)
  obtain ⟨rk, hget⟩ := MemTable.mem_entries.1 (hperm.mem_iff.1 he)
  cases hv : e.commitVersion with
  | top => simp [Flush.chunkEntry, hv] at hentry
  | coe v =>
    obtain ⟨hmin, hmax⟩ := hbuilt.range hget hv
    exact reservedSlots_row (Flush.indexEntry c chunkId mt file header footer) hmin hmax

/-! ## Rebuilt chunks -/

theorem Rebuild.Chunk.reserves {ch : Chunk} (h : ch.entries ≠ []) :
    reservedSlots (Read.expectedCount ch.indexEntry) = versionSpan ch.versionMin ch.versionMax := by
  obtain ⟨e, he⟩ := List.exists_mem_of_ne_nil _ h
  have hmin : ch.versionMin ≤ (e.commitVersion.toNat : WithTop Nat) :=
    (foldl_min_le (fun e : ChunkEntry => (e.commitVersion.toNat : WithTop Nat)) ch.entries ⊤).2 e he
  have hmax : e.commitVersion.toNat ≤ ch.versionMax :=
    (foldl_max_spec (fun e : ChunkEntry => e.commitVersion.toNat) ch.entries 0).2.1 e he
  exact reservedSlots_row ch.indexEntry hmin hmax

theorem Rebuild.Chunk.reserves_empty {ch : Chunk} (h : ch.entries = []) :
    reservedSlots (Read.expectedCount ch.indexEntry) = 2 := by
  simp only [indexEntry, versionMin, versionMax, h]
  rfl

theorem decodeBodyEntries_nil {c : Codecs} {body : Bytes} {n : UInt64} (h : decodeBodyEntries c body n = .ok []) :
    body = [] := by
  rcases body with _ | ⟨b, body⟩
  · rfl
  · rw [decodeBodyEntries, List.length_cons, decodeEntries, if_pos (by simp)] at h
    split at h
    case h_1 => cases h
    case h_2 e offset _ =>
      cases hrest : decodeEntries c (b :: body) body.length offset with
      | error x | ok es => simp [hrest, Except.map] at h

/-- Decoding reserves at most one slot for each byte of the body exactly: for a read of a flushed chunk, if the range
of its memtable spans no more versions than the visible entries have bytes; for a read of a rebuilt one, if it has
entries, which span no more versions than the body has bytes; for the rebuild itself, if the header counts no more
entries than the body has bytes. -/
theorem decoding_reserves_linear (c : Codecs) :
    (∀ chunkId nowMs entries mt file header footer, mt.Built → entries.Perm mt.entries →
      Flush.chunkFile c chunkId nowMs entries = .ok (some (file, header, footer)) →
      Flush.BodyOf c file header footer (entries.filterMap Flush.chunkEntry) ∧
      (reservedSlots (Read.expectedCount (Flush.indexEntry c chunkId mt file header footer)) ≤
          (bodyBytes c (entries.filterMap Flush.chunkEntry)).length ↔
        versionSpan mt.versionMin mt.versionMax ≤
          ((mt.entries.filterMap Flush.chunkEntry).map fun e => payloadLen e + 4).sum)) ∧
    (∀ backend lo ch file body, scanObject c backend lo = .ok (some ch) → backend.objects[lo.key]? = some file →
      decompressBody c file = .ok body →
      (reservedSlots (Read.expectedCount ch.indexEntry) ≤ body.length ↔
        ch.entries ≠ [] ∧ versionSpan ch.versionMin ch.versionMax ≤ body.length) ∧
      (reservedSlots ch.header.recordCount ≤ body.length ↔ ch.header.recordCount.toNat ≤ body.length)) := by
  refine ⟨fun chunkId nowMs entries mt file header footer hbuilt hperm hfile => ?_,
    fun backend lo ch file body hscan hobject hbody => ⟨?_, Iff.rfl⟩⟩
  · refine ⟨(Flush.chunkFile_some hfile).bodyOf, ?_⟩
    rw [Flush.reserves hbuilt hperm hfile, length_bodyBytes, ((hperm.filterMap _).map _).sum_eq]
  · obtain ⟨-, bytes, body', hbytes, hbody', hentries⟩ := scanObject_eq_some hscan
    obtain rfl := Option.some.inj (hobject.symm.trans hbytes)
    obtain rfl := Except.ok.inj (hbody.symm.trans hbody')
    by_cases hempty : ch.entries = []
    · have hnil : body = [] := decodeBodyEntries_nil (n := 0) (hempty ▸ hentries 0)
      simp [Chunk.reserves_empty hempty, hempty, hnil]
    · rw [Chunk.reserves hempty]
      exact ⟨fun h => ⟨hempty, h⟩, And.right⟩

/-- A memtable in which one record is written at each of the first `n` versions. -/
def overwritten (n : Nat) : MemTable :=
  (List.range n).foldl (fun mt i => mt.putInvisible (nullEntry (i + 1))) { id := 0 }

theorem overwritten_built (n : Nat) : (overwritten n).Built := by
  have hputs : ∀ (l : List Nat) (mt : MemTable), mt.Built →
      (l.foldl (fun mt i => mt.putInvisible (nullEntry (i + 1))) mt).Built := by
    intro l
    induction l with
    | nil => exact fun _ h => h
    | cons i l ih => exact fun mt h => ih _ (h.put _)
  exact hputs _ _ (.new 0)

/-- The row of a memtable whose one record was written twice, and the slots for it. -/
theorem decoding_reserves_linear_twice : ∃ file header footer,
    Flush.chunkFile .stored "c" 0 [nullEntry 2] = .ok (some (file, header, footer)) ∧
    reservedSlots (Read.expectedCount (Flush.indexEntry .stored "c" (overwritten 2) file header footer)) = 2 ∧
    2 ≤ (bodyBytes .stored ([nullEntry 2].filterMap Flush.chunkEntry)).length := by
  have hany : ((Flush.chunkFile .stored "c" 0 [nullEntry 2]).toOption.bind id).any (fun _ => true) = true := by
    decide +kernel
  obtain ⟨⟨file, header, footer⟩, hfile, -⟩ := Flush.chunkFile_of_any hany
  have hperm : [nullEntry 2].Perm (overwritten 2).entries := by decide +kernel
  have hslots := Flush.reserves (overwritten_built 2) hperm hfile
  have hspan : versionSpan (overwritten 2).versionMin (overwritten 2).versionMax = 2 := by decide +kernel
  have hlinear := ((decoding_reserves_linear .stored).1 "c" 0 _ _ _ _ _ (overwritten_built 2) hperm hfile).2.2
    (by decide +kernel)
  rw [hslots, hspan] at hlinear
  exact ⟨file, header, footer, hfile, hslots.trans hspan, hlinear⟩

def miscounted : ChunkHeader where
  chunkId := "c"
  createdAtMs := 0
  compressedBodyLen := 0
  uncompressedLen := 0
  space := "s"
  table := "t"
  keyMin := []
  keyMax := []
  recordCount := 1000

/-- One record is written three hundred times before its flush, and the read of its one entry reserves three hundred
slots. A rebuild takes the count of a header as it is, and the row it writes for a chunk without entries counts two.
-/
theorem decoding_reserves_more :
    (∃ file header footer body, (overwritten 300).Built ∧ [nullEntry 300].Perm (overwritten 300).entries ∧
      Flush.chunkFile .stored "c" 0 [nullEntry 300] = .ok (some (file, header, footer)) ∧
      decompressBody .stored file = .ok body ∧ body.length < 300 ∧
      reservedSlots (Read.expectedCount (Flush.indexEntry .stored "c" (overwritten 300) file header footer)) = 300) ∧
    ∃ ch, scanObject .stored { objects := (∅ : Table String Bytes).insert "x.xtc" (miscounted.encode ++ leBytes 4 0) }
        ⟨"x.xtc", 0, ""⟩ = .ok (some ch) ∧
      decompressBody .stored (miscounted.encode ++ leBytes 4 0) = .ok [] ∧
      reservedSlots ch.header.recordCount = 1000 ∧ reservedSlots (Read.expectedCount ch.indexEntry) = 2 := by
  refine ⟨?_, ⟨⟨"x.xtc", 0, ""⟩, miscounted, []⟩, ?_, ?_, by decide, by decide⟩
  · have hany : ((Flush.chunkFile .stored "c" 0 [nullEntry 300]).toOption.bind id).any (fun out =>
        (decompressBody .stored out.1).toOption.any fun body => body.length < 300 ∧
          reservedSlots (Read.expectedCount (Flush.indexEntry .stored "c" (overwritten 300) out.1 out.2.1 out.2.2)) = 300) =
        true := by
      decide +kernel
    obtain ⟨⟨file, header, footer⟩, hfile, htest⟩ := Flush.chunkFile_of_any hany
    cases hbody : decompressBody .stored file with
    | error x => simp [hbody, Except.toOption] at htest
    | ok body =>
      rw [hbody] at htest
      exact ⟨file, header, footer, body, overwritten_built 300, by decide +kernel, hfile, hbody, of_decide_eq_true htest⟩
  · decide +kernel
  · decide +kernel

end Xtable

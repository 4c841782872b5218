import Xtable.Theorems.Rebuilt
import Xtable.Theorems.Decoding

/-! A read of a rebuilt store goes through the historical rows to the chunk that holds the newest visible entry, and
    finds it there. -/

namespace Xtable

open Rebuild

/-! ## The newest match in a chunk -/

theorem maxByKey_spec {α : Type} (f : α → Nat) (l : List α) :
    match Read.maxByKey f l with
    | none => l = []
    | some x => x ∈ l ∧ ∀ y ∈ l, f y ≤ f x := by
  induction l using List.reverseRecOn with
  | nil => rfl
  | append_singleton l a ih =>
    cases hbest : Read.maxByKey f l with
    | none =>
      rw [hbest] at ih
      subst ih
      simp [Read.maxByKey]
    | some x =>
      rw [hbest] at ih
      obtain ⟨hx, hmax⟩ := ih
      have hstep : Read.maxByKey f (l ++ [a]) = if f x ≤ f a then some a else some x := by
        rw [Read.maxByKey, List.foldl_append, ← Read.maxByKey, hbest]
        rfl
      rw [hstep]
      by_cases hle : f x ≤ f a
      · rw [if_pos hle]
        refine ⟨by simp, fun y hy => ?_⟩
        rcases List.mem_append.1 hy with hy | hy
        · exact (hmax y hy).trans hle
        · rw [List.mem_singleton.1 hy]
      · rw [if_neg hle]
        refine ⟨by simp [hx], fun y hy => ?_⟩
        rcases List.mem_append.1 hy with hy | hy
        · exact hmax y hy
        · rw [List.mem_singleton.1 hy]
          omega

theorem maxByKey_eq_some {α : Type} {f : α → Nat} {l : List α} {x : α} (hx : x ∈ l)
    (huniq : ∀ y ∈ l, f y ≤ f x ∧ (f y = f x → y = x)) : Read.maxByKey f l = some x := by
  have hspec := maxByKey_spec f l
  cases hbest : Read.maxByKey f l with
  | none =>
    rw [hbest] at hspec
    rw [hspec] at hx
    cases hx
  | some y =>
    rw [hbest] at hspec
    obtain ⟨hle, heq⟩ := huniq y hspec.1
    rw [heq (le_antisymm hle (hspec.2 x hx))]

/-- The chunk entry that a read of a record at a snapshot is to answer. -/
structure IsNewestAt (chunks : List Chunk) (rk : RecordKey) (snapshot : Nat) (e : ChunkEntry) : Prop where
  mem : e ∈ entriesOf chunks
  record : recordOf e = rk
  visible : e.commitVersion.toNat ≤ snapshot
  newest : ∀ e' ∈ entriesOf chunks, recordOf e' = rk → e'.commitVersion.toNat ≤ snapshot →
    e'.commitVersion.toNat ≤ e.commitVersion.toNat

section Reads

variable {c : Codecs} {backend : Backend} {listed : List ListedObject} {chunks : List Chunk}
  {order : List (RecordKey × PerKey) → List (RecordKey × PerKey)} {chains : Table String VersionChain}
  {rk : RecordKey} {snapshot : Nat} {e : ChunkEntry}

theorem chunkMatches_iff : Read.chunkMatches rk snapshot e = true ↔
    recordOf e = rk ∧ e.commitVersion.toNat ≤ snapshot := by
  obtain ⟨space, table, recordId⟩ := rk
  simp [Read.chunkMatches, recordOf, and_assoc]

theorem readFromChunk_newest (hb : Bucket c backend listed chunks) {ch : Chunk} (hch : ch ∈ chunks)
    (he : e ∈ ch.entries) (hnew : IsNewestAt chunks rk snapshot e) {idx : RecordIndexEntry}
    (hidx : idx.chunkId = ch.header.chunkId) :
    Read.readFromChunk c (filled order chunks chains {}) backend rk snapshot idx =
      .ok (some (Read.chunkResult e)) := by
  obtain ⟨lo, -, hscan⟩ := hb.decodes.of_mem hch
  obtain ⟨rfl, bytes, body, hbytes, hbody, hentries⟩ := scanObject_eq_some hscan
  have hhit : Read.maxByKey (·.commitVersion.toNat) (ch.entries.filter (Read.chunkMatches rk snapshot)) = some e := by
    refine maxByKey_eq_some (List.mem_filter.2 ⟨he, chunkMatches_iff.2 ⟨hnew.record, hnew.visible⟩⟩) fun e' he' => ?_
    obtain ⟨hmem, hmatch⟩ := List.mem_filter.1 he'
    obtain ⟨hrecord, hvisible⟩ := chunkMatches_iff.1 hmatch
    have hmem' : e' ∈ entriesOf chunks := mem_entriesOf.2 ⟨ch, hch, hmem⟩
    exact ⟨hnew.newest e' hmem' hrecord hvisible,
      fun heq => hb.toCoherent.entry_eq hmem' hnew.mem (hrecord.trans hnew.record.symm) heq⟩
  have hlookup : Read.lookupChunkForRecord (filled order chunks chains {}) idx = some ch.indexEntry := by
    rw [Read.lookupChunkForRecord, hidx]
    exact hb.toCoherent.getChunkIndex hch
  have hkey : backend.objects[ch.indexEntry.s3Key]? = some bytes := hbytes
  have hbloom : ch.indexEntry.bloom = none := rfl
  simp only [Read.readFromChunk, hlookup, hbloom, hkey, hbody, hentries, bind, Except.bind, pure, Except.pure, hhit,
    Option.any_none, Option.map_some, Bool.false_eq_true, if_false]

theorem fromIndex_newest (hb : Bucket c backend listed chunks) (hnew : IsNewestAt chunks rk snapshot e) :
    ∃ r, Read.fromIndex c (filled order chunks chains {}) backend rk snapshot = .ok (some r) ∧
      r.commitVersion = e.commitVersion.toNat ∧ r.deleted = e.deleted ∧ (e.deleted = false → r.body = e.value) := by
  obtain ⟨ch, hch, he⟩ := mem_entriesOf.1 hnew.mem
  have hfound : (⟨recordOf e, e, ch.lo.key, ch.header.chunkId, ch.lo.etag⟩ : HistoricalRecord) ∈ found chunks :=
    mem_found.2 ⟨ch, hch, e, he, rfl⟩
  have hrow : (filled order chunks chains {}).getRecordVersionAtSnapshot rk snapshot =
      some (recordIndexFromEntry e ch.header.chunkId, e.value) := by
    have hget : (filled order chunks chains {}).recordVersions[(rk, e.commitVersion.toNat)]? =
        some ⟨recordIndexFromEntry e ch.header.chunkId, e.value⟩ :=
      hb.toCoherent.recordVersions_eq_some.2 ⟨_, hfound, by simp only [HistoricalRecord.row, hnew.record]⟩
    refine Store.getRecordVersionAtSnapshot_eq_some hb.toCoherent.keyed hget hnew.visible fun u row' hrow' hu => ?_
    obtain ⟨e', he', hrecord, rfl⟩ := hb.toCoherent.entry_of_row hrow'
    exact hnew.newest e' he' hrecord hu
  have hsome : ((filled order chunks chains {}).getChunkIndex ch.header.chunkId).isNone = false := by
    rw [hb.toCoherent.getChunkIndex hch]
    rfl
  rw [Read.fromIndex, hrow]
  simp only
  cases hdeleted : e.deleted with
  | true =>
    rw [if_pos (show (recordIndexFromEntry e ch.header.chunkId).deleted = true from hdeleted)]
    exact ⟨_, rfl, rfl, rfl, fun h => by cases h⟩
  | false =>
    rw [if_neg (show ¬ (recordIndexFromEntry e ch.header.chunkId).deleted = true by simp [recordIndexFromEntry, hdeleted]),
      if_neg (by simp [recordIndexFromEntry, hsome]), readFromChunk_newest hb hch he hnew rfl]
    exact ⟨_, rfl, rfl, hdeleted, fun _ => rfl⟩

theorem fromIndex_none (hb : Bucket c backend listed chunks) (horder : ∀ l, (order l).Perm l)
    (hnone : ∀ e ∈ entriesOf chunks, recordOf e = rk → snapshot < e.commitVersion.toNat) :
    Read.fromIndex c (filled order chunks chains {}) backend rk snapshot = .ok none := by
  have hrow : (filled order chunks chains {}).getRecordVersionAtSnapshot rk snapshot = none := by
    refine Store.getRecordVersionAtSnapshot_eq_none hb.toCoherent.keyed fun u row' hrow' => ?_
    obtain ⟨e', he', hrecord, rfl⟩ := hb.toCoherent.entry_of_row hrow'
    exact hnone e' he' hrecord
  rw [Read.fromIndex, hrow]
  simp only
  cases hidx : (filled order chunks chains {}).getRecordIndex rk with
  | none => rfl
  | some idx =>
    obtain ⟨h, hh, hkey, rfl, -⟩ := getRecordIndex_filled horder hidx
    obtain ⟨hmem, hrecord⟩ := entry_mem_of_mem_found hh
    exact if_pos (hnone _ hmem (hrecord.symm.trans hkey))

end Reads

/-- A rebuild restores reads: of every record at every snapshot, and the counter of commit versions. -/
theorem rebuild_restores_reads {c : Codecs} {backend : Backend} {listed : List ListedObject} {chunks : List Chunk}
    (hb : Bucket c backend listed chunks) {order : List (RecordKey × PerKey) → List (RecordKey × PerKey)}
    (horder : ∀ l, (order l).Perm l) : ∃ report s,
    (rebuild c backend (.ok listed) order).run RebuildAct.exec {} = (.ok report, s) ∧
    (∀ rk snapshot,
      (∀ e, IsNewestAt chunks rk snapshot e → ∃ r, Read.readAtSnapshot c {} s backend rk snapshot = .ok (some r) ∧
        r.commitVersion = e.commitVersion.toNat ∧ r.deleted = e.deleted ∧ (e.deleted = false → r.body = e.value)) ∧
      ((∀ e ∈ entriesOf chunks, recordOf e = rk → snapshot < e.commitVersion.toNat) →
        Read.readAtSnapshot c {} s backend rk snapshot = .ok none)) ∧
    (∀ e ∈ entriesOf chunks, e.commitVersion.toNat ≤ s.globalVersion) ∧
    (s.globalVersion = 0 ∨ ∃ e ∈ entriesOf chunks, e.commitVersion.toNat = s.globalVersion) ∧
    ∀ e ∈ entriesOf chunks, e.commitVersion.toNat < s.nextGlobalVersion.1 := by
  obtain ⟨chains, -, hrun⟩ := hb.rebuild_ok order
  have hread : ∀ rk snapshot, Read.readAtSnapshot c {} (filled order chunks chains {}) backend rk snapshot =
      Read.fromIndex c (filled order chunks chains {}) backend rk snapshot := by
    intro rk snapshot
    have hactive : Read.fromMemTable ({} : MemTableSet).active rk snapshot .active = none := by
      simp [Read.fromMemTable, MemTable.getVisible]
    rw [Read.readAtSnapshot, hactive]
    rfl
  refine ⟨_, _, hrun, fun rk snapshot => ⟨fun e hnew => ?_, fun hnone => ?_⟩, fun e he => le_topVersion he,
    topVersion_attained chunks, fun e he => Nat.lt_succ_of_le (le_topVersion he)⟩
  · rw [hread]
    exact fromIndex_newest hb hnew
  · rw [hread]
    exact fromIndex_none hb horder hnone

/-! ### Two chunks with one record -/

def ChunkEntry.newer : ChunkEntry := { ChunkEntry.small with value := [3], commitVersion := 9 }

def sampleChunk (key chunkId : String) (es : List ChunkEntry) : Bytes × Chunk :=
  match writeChunk .stored chunkId "s" "t" 0 es with
  | .ok r => (r.1, ⟨⟨key, 0, ""⟩, r.2.1, es⟩)
  | .error _ => ([], ⟨⟨key, 0, ""⟩, .bare, es⟩)

def Backend.pair : Backend where
  objects := ((∅ : Table String Bytes).insert "a.xtc" (sampleChunk "a.xtc" "a" [.small]).1).insert "b.xtc"
    (sampleChunk "b.xtc" "b" [.newer]).1

def pairChunks : List Chunk := [(sampleChunk "b.xtc" "b" [.newer]).2, (sampleChunk "a.xtc" "a" [.small]).2]

theorem pair_bucket : Bucket .stored .pair [⟨"b.xtc", 0, ""⟩, ⟨"x", 0, ""⟩, ⟨"a.xtc", 0, ""⟩] pairChunks where
  decodes := by
    have hfilter : [(⟨"b.xtc", 0, ""⟩ : ListedObject), ⟨"x", 0, ""⟩, ⟨"a.xtc", 0, ""⟩].filter isChunk =
        [⟨"b.xtc", 0, ""⟩, ⟨"a.xtc", 0, ""⟩] := by decide +kernel
    rw [Decodes, hfilter]
    exact .cons (by decide +kernel) (.cons (by decide +kernel) .nil)
  ids := by decide +kernel
  plain := by decide +kernel
  bounded := by decide +kernel
  once := by decide +kernel

theorem rebuild_restores_reads_pair : ∃ report s,
    (rebuild .stored .pair (.ok [⟨"b.xtc", 0, ""⟩, ⟨"x", 0, ""⟩, ⟨"a.xtc", 0, ""⟩]) id).run RebuildAct.exec {} =
      (.ok report, s) ∧
    (∃ r, Read.readAtSnapshot .stored {} s .pair ("s", "t", "r") 8 = .ok (some r) ∧ r.commitVersion = 7) ∧
    (∃ r, Read.readAtSnapshot .stored {} s .pair ("s", "t", "r") 9 = .ok (some r) ∧ r.commitVersion = 9) ∧
    Read.readAtSnapshot .stored {} s .pair ("s", "t", "r") 6 = .ok none ∧ 9 < s.nextGlobalVersion.1 := by
  obtain ⟨report, s, hrun, hreads, -, -, hnext⟩ := rebuild_restores_reads pair_bucket fun l => List.Perm.refl l
  have hsmall : IsNewestAt pairChunks ("s", "t", "r") 8 .small :=
    ⟨by decide +kernel, rfl, by decide +kernel, by decide +kernel⟩
  have hnewer : IsNewestAt pairChunks ("s", "t", "r") 9 .newer :=
    ⟨by decide +kernel, rfl, by decide +kernel, by decide +kernel⟩
  obtain ⟨r, hr, hversion, -⟩ := (hreads _ _).1 _ hsmall
  obtain ⟨r', hr', hversion', -⟩ := (hreads _ _).1 _ hnewer
  exact ⟨report, s, hrun, ⟨r, hr, hversion⟩, ⟨r', hr', hversion'⟩, (hreads _ _).2 (by decide +kernel),
    hnext .newer (by decide +kernel)⟩

end Xtable

import Xtable.Tx.Node
import Xtable.Theorems.Alone
import Xtable.Theorems.Cut

/-! A flush drops the memtable, or writes it: the file goes to the bucket and the chunk index, the rows of the
    written versions point at it, and the WAL loses its oldest records. -/

namespace Xtable

open Server
open Prog (bind_eq pure_eq act_bind ret_bind run_act)

variable {c : Codecs} {w w' : World} {chunkId : String} {nowMs : Int64} {entries : List MemEntry} {mt : MemTable}

/-! ## Pointing rows at a chunk -/

/-- Point the row of one entry at a chunk. -/
def Store.point (chunkId : String) (s : Store) (e : MemEntry) : Store :=
  match e.commitVersion with
  | none => s
  | some cv => (s.updateRecordIndexChunkIdForVersion e.key cv chunkId).2

def Store.pointed (chunkId : String) (entries : List MemEntry) (s : Store) : Store := entries.foldl (Store.point chunkId) s

theorem updateRecordIndexAfterFlush_run (chunkId : String) (entries : List MemEntry) (w : World) :
    (Flush.updateRecordIndexAfterFlush chunkId entries).run World.exec w =
      (.ok (), { w with store := w.store.pointed chunkId entries }) := by
  unfold Flush.updateRecordIndexAfterFlush
  induction entries generalizing w with
  | nil => rfl
  | cons e rest ih =>
    cases hcv : e.commitVersion with
    | top =>
      have hskip : w.store.point chunkId e = w.store := by simp [Store.point, hcv]
      simp only [Prog.forEach, hcv]
      exact (ih w).trans (by rw [Store.pointed, Store.pointed, List.foldl_cons, hskip])
    | coe cv =>
      have hpoint : w.store.point chunkId e = (w.store.updateRecordIndexChunkIdForVersion e.key cv chunkId).2 := by
        simp [Store.point, hcv]
      simp only [Prog.forEach, hcv]
      refine (ih { w with store := (w.store.updateRecordIndexChunkIdForVersion e.key cv chunkId).2 }).trans ?_
      rw [Store.pointed, Store.pointed, List.foldl_cons, hpoint]

/-- The visible entries have one of the record at the version. -/
def Shows (entries : List MemEntry) (rk : RecordKey) (v : Nat) : Prop :=
  ∃ e ∈ entries, e.key = rk ∧ e.commitVersion = (v : WithTop Nat)

instance (entries : List MemEntry) (rk : RecordKey) (v : Nat) : Decidable (Shows entries rk v) :=
  inferInstanceAs (Decidable (∃ e ∈ entries, e.key = rk ∧ e.commitVersion = (v : WithTop Nat)))

/-- An index entry that points at a chunk. -/
def RecordIndexEntry.pointedAt (chunkId : String) (r : RecordIndexEntry) : RecordIndexEntry := { r with chunkId := chunkId }

theorem recordVersions_point (s : Store) (e : MemEntry) (rk : RecordKey) (v : Nat) :
    (s.point chunkId e).recordVersions[(rk, v)]? = (s.recordVersions[(rk, v)]?).map fun r =>
      if Shows [e] rk v then { r with entry := r.entry.pointedAt chunkId } else r := by
  unfold Store.point
  split
  case h_1 hcv =>
    have hno : ¬ Shows [e] rk v := by
      rintro ⟨e', he', -, hv⟩
      rw [List.mem_singleton.1 he', hcv] at hv
      cases hv
    simp [hno]
  case h_2 cv hcv =>
    have hshows : Shows [e] rk v ↔ (e.key, cv) = (rk, v) := by
      simp only [Shows, List.mem_singleton, exists_eq_left, Prod.mk.injEq, hcv]
      exact and_congr_right fun _ => WithTop.coe_inj
    simp only [hshows]
    unfold Store.updateRecordIndexChunkIdForVersion
    cases hrow : s.recordVersions[(e.key, cv)]? with
    | none =>
      by_cases heq : (e.key, cv) = (rk, v)
      · simp [← heq, hrow]
      · simp [heq]
    | some stored =>
      by_cases heq : (e.key, cv) = (rk, v)
      · simp [← heq, hrow, RecordIndexEntry.pointedAt]
      · simp [heq]

theorem recordVersions_pointed (entries : List MemEntry) (s : Store) (rk : RecordKey) (v : Nat) :
    (s.pointed chunkId entries).recordVersions[(rk, v)]? = (s.recordVersions[(rk, v)]?).map fun r =>
      if Shows entries rk v then { r with entry := r.entry.pointedAt chunkId } else r := by
  induction entries generalizing s with
  | nil =>
    have hno : ¬ Shows [] rk v := by rintro ⟨e, he, -⟩; cases he
    simp [Store.pointed, hno]
  | cons e rest ih =>
    have hshows : Shows (e :: rest) rk v ↔ Shows [e] rk v ∨ Shows rest rk v := by simp [Shows]
    have hrest := ih (s.point chunkId e)
    rw [recordVersions_point, Option.map_map] at hrest
    refine hrest.trans (congrFun (congrArg Option.map (funext fun r => ?_)) _)
    by_cases he : Shows [e] rk v <;> by_cases hr : Shows rest rk v <;>
      simp [hshows, he, hr, RecordIndexEntry.pointedAt]

theorem recordIndex_point (s : Store) (e : MemEntry) (rk : RecordKey) :
    (s.point chunkId e).recordIndex[rk]? = (s.recordIndex[rk]?).map fun r =>
      if Shows [e] rk r.entry.commitVersion then { r with entry := r.entry.pointedAt chunkId } else r := by
  unfold Store.point
  split
  case h_1 hcv =>
    have hno : ∀ v, ¬ Shows [e] rk v := by
      rintro v ⟨e', he', -, hv⟩
      rw [List.mem_singleton.1 he', hcv] at hv
      cases hv
    simp [hno]
  case h_2 cv hcv =>
    have hshows : ∀ v, Shows [e] rk v ↔ e.key = rk ∧ cv = v := by
      intro v
      simp only [Shows, List.mem_singleton, exists_eq_left, hcv]
      exact and_congr_right fun _ => WithTop.coe_inj
    simp only [hshows]
    unfold Store.updateRecordIndexChunkIdForVersion
    by_cases hkey : e.key = rk
    · subst hkey
      cases hrow : s.recordIndex[e.key]? with
      | none => simp [hrow]
      | some stored =>
        by_cases hv : stored.entry.commitVersion = cv
        · simp [hv, RecordIndexEntry.pointedAt]
        · simp [hv, hrow, Ne.symm hv]
    · have hsame : (fun r : StoredRecord => if e.key = rk ∧ cv = r.entry.commitVersion then
          { r with entry := r.entry.pointedAt chunkId } else r) = id := by
        funext r
        simp [hkey]
      rw [hsame, Option.map_id]
      cases s.recordIndex[e.key]? with
      | none => rfl
      | some stored =>
        simp only
        split
        · simp [hkey]
        · rfl

theorem recordIndex_pointed (entries : List MemEntry) (s : Store) (rk : RecordKey) :
    (s.pointed chunkId entries).recordIndex[rk]? = (s.recordIndex[rk]?).map fun r =>
      if Shows entries rk r.entry.commitVersion then { r with entry := r.entry.pointedAt chunkId } else r := by
  induction entries generalizing s with
  | nil =>
    have hno : ∀ v, ¬ Shows [] rk v := by rintro v ⟨e, he, -⟩; cases he
    simp [Store.pointed, hno]
  | cons e rest ih =>
    have hshows : ∀ v, Shows (e :: rest) rk v ↔ Shows [e] rk v ∨ Shows rest rk v := by simp [Shows]
    have hrest := ih (s.point chunkId e)
    rw [recordIndex_point, Option.map_map] at hrest
    refine hrest.trans (congrFun (congrArg Option.map (funext fun r => ?_)) _)
    by_cases he : Shows [e] rk r.entry.commitVersion <;> by_cases hr : Shows rest rk r.entry.commitVersion <;>
      simp [hshows, he, hr, RecordIndexEntry.pointedAt]

/-! ## The store after a flush -/

/-- A store without its WAL, its record rows and its chunks. -/
def Store.unfiled (s : Store) : Store :=
  { s with wal := ∅, lastWalSeq := 0, lastFlushedSeq := 0, recordIndex := ∅, recordVersions := ∅, chunkIndex := ∅ }

/-- A store after a flush of `mt` to the chunk. -/
def Store.flushed (chunkId : String) (chunk : ChunkIndexEntry) (mt : MemTable) (entries : List MemEntry) (s : Store) : Store :=
  ((((s.putChunkIndex chunkId chunk).pointed chunkId entries).appendWal
    (.memtableFlushed chunkId mt.latestSeq mt.versionMax)).2.setFlushedSeq mt.latestSeq).truncateWal mt.latestSeq |>.2

section Flushed

variable {chunk : ChunkIndexEntry} {s : Store} {rk : RecordKey} {v : Nat}

theorem unfiled_pointed (s : Store) : (s.pointed chunkId entries).unfiled = s.unfiled := by
  refine foldl_keeps Store.unfiled (fun s e => ?_) entries s
  unfold Store.point
  split <;> rfl

theorem unfiled_flushed : (s.flushed chunkId chunk mt entries).unfiled = s.unfiled :=
  unfiled_pointed (s.putChunkIndex chunkId chunk)

theorem recordVersions_flushed : (s.flushed chunkId chunk mt entries).recordVersions[(rk, v)]? =
    (s.recordVersions[(rk, v)]?).map fun r =>
      if Shows entries rk v then { r with entry := r.entry.pointedAt chunkId } else r :=
  recordVersions_pointed entries (s.putChunkIndex chunkId chunk) rk v

theorem recordIndex_flushed : (s.flushed chunkId chunk mt entries).recordIndex[rk]? =
    (s.recordIndex[rk]?).map fun r =>
      if Shows entries rk r.entry.commitVersion then { r with entry := r.entry.pointedAt chunkId } else r :=
  recordIndex_pointed entries (s.putChunkIndex chunkId chunk) rk

theorem chunkIndex_flushed : (s.flushed chunkId chunk mt entries).chunkIndex = s.chunkIndex.insert chunkId chunk := by
  have hpointed : ∀ s : Store, (s.pointed chunkId entries).chunkIndex = s.chunkIndex := by
    intro s
    refine foldl_keeps Store.chunkIndex (fun s e => ?_) entries s
    unfold Store.point
    split <;> rfl
  exact hpointed (s.putChunkIndex chunkId chunk)

theorem wal_pointed (s : Store) : (s.pointed chunkId entries).wal = s.wal ∧
    (s.pointed chunkId entries).lastWalSeq = s.lastWalSeq := by
  refine ⟨foldl_keeps Store.wal (fun s e => ?_) entries s, foldl_keeps Store.lastWalSeq (fun s e => ?_) entries s⟩ <;>
  · unfold Store.point
    split <;> rfl

theorem wal_flushed (seq : Nat) : (s.flushed chunkId chunk mt entries).wal[seq]? =
    if mt.latestSeq < seq then
      if s.lastWalSeq + 1 = seq then some (.memtableFlushed chunkId mt.latestSeq mt.versionMax) else s.wal[seq]?
    else none := by
  have hpointed : ((s.putChunkIndex chunkId chunk).pointed chunkId entries).wal = s.wal ∧
      ((s.putChunkIndex chunkId chunk).pointed chunkId entries).lastWalSeq = s.lastWalSeq := wal_pointed _
  obtain ⟨hwal, hseq⟩ := hpointed
  simp only [Store.flushed, Store.truncateWal, Store.setFlushedSeq, Store.appendWal, hwal, hseq]
  rw [Std.ExtTreeMap.getElem?_filter', Table.get_insert]
  have hfilter : ∀ o : Option WalRecord, o.filter (fun _ => decide (mt.latestSeq < seq)) = if mt.latestSeq < seq then o else none := by
    intro o
    by_cases hcut : mt.latestSeq < seq <;> cases o <;> simp [hcut]
  exact hfilter _

theorem lastWalSeq_flushed : (s.flushed chunkId chunk mt entries).lastWalSeq = s.lastWalSeq + 1 :=
  congrArg (· + 1) (wal_pointed (s.putChunkIndex chunkId chunk)).2

end Flushed

/-! ## Flushes -/

def World.dequeued (w : World) (rest : List MemTable) : World := { w with mems := { w.mems with flushing := rest } }

/-- A world after the memtable was written to a chunk. -/
def World.flushed (c : Codecs) (chunkId : String) (mt : MemTable) (entries : List MemEntry) (file : Bytes) (header : ChunkHeader)
    (footer : ChunkFooter) (w : World) : World :=
  { w with
    bucket := w.bucket.insert (Flush.s3Key c chunkId header) file
    store := w.store.flushed chunkId (Flush.indexEntry c chunkId mt file header footer) mt entries }

theorem flushOne_run (w : World) : (Flush.flushOne c chunkId nowMs entries mt).run World.exec w =
    if mt.earliestSeq = ⊤ ∨ mt.latestSeq = 0 then (.ok (), w)
    else match Flush.chunkFile c chunkId nowMs entries with
      | .error x => (.error x, w)
      | .ok none => (.ok (), w)
      | .ok (some (file, header, footer)) => (.ok (), w.flushed c chunkId mt entries file header footer) := by
  unfold Flush.flushOne
  split
  · rfl
  · cases Flush.chunkFile c chunkId nowMs entries with
    | error x => rfl
    | ok out =>
      cases out with
      | none => rfl
      | some out =>
        simp only [bind_eq, Prog.perform_bind, run_act, World.exec]
        rw [Prog.run_bind_ok World.exec (updateRecordIndexAfterFlush_run ..)]
        rfl

/-- What a flush does: it drops a memtable with nothing to write, writes one, or puts it back. -/
inductive FlushStep (c : Codecs) (w : World) : World → Prop where
  | dropped {mt : MemTable} {rest : List MemTable} (hqueue : w.mems.flushing = mt :: rest) : FlushStep c w (w.dequeued rest)
  | written {mt : MemTable} {rest : List MemTable} {chunkId : String} {nowMs : Int64} {entries : List MemEntry} {file : Bytes}
      {header : ChunkHeader} {footer : ChunkFooter} (hqueue : w.mems.flushing = mt :: rest) (hperm : entries.Perm mt.entries)
      (hfresh : w.freshChunkId chunkId = true) (hseq : ¬ (mt.earliestSeq = ⊤ ∨ mt.latestSeq = 0))
      (hfile : Flush.chunkFile c chunkId nowMs entries = .ok (some (file, header, footer))) :
      FlushStep c w ((w.dequeued rest).flushed c chunkId mt entries file header footer)
  | requeued {mt : MemTable} {rest : List MemTable} (hqueue : w.mems.flushing = mt :: rest) :
      FlushStep c w (w.dequeued (rest ++ [mt]))

theorem World.flush_cases (h : w.flush c chunkId nowMs entries = some w') : ∃ mt rest, w.mems.flushing = mt :: rest ∧
    (w' = w.dequeued rest ∨ w' = w.dequeued (rest ++ [mt]) ∨
      ∃ file header footer, entries.Perm mt.entries ∧ w.freshChunkId chunkId = true ∧
        ¬ (mt.earliestSeq = ⊤ ∨ mt.latestSeq = 0) ∧
        Flush.chunkFile c chunkId nowMs entries = .ok (some (file, header, footer)) ∧
        w' = (w.dequeued rest).flushed c chunkId mt entries file header footer) := by
  unfold World.flush at h
  cases hqueue : w.mems.flushing with
  | nil => simp [hqueue] at h
  | cons mt rest =>
    refine ⟨mt, rest, rfl, ?_⟩
    simp only [hqueue] at h
    split at h
    case isFalse => cases h
    case isTrue hadmit =>
      obtain ⟨hperm, hfresh⟩ := hadmit
      rw [flushOne_run] at h
      by_cases hseq : mt.earliestSeq = ⊤ ∨ mt.latestSeq = 0
      · rw [if_pos hseq] at h
        exact .inl (Option.some.inj h).symm
      · rw [if_neg hseq] at h
        cases hfile : Flush.chunkFile c chunkId nowMs entries with
        | error x =>
          rw [hfile] at h
          exact .inr (.inl (Option.some.inj h).symm)
        | ok out =>
          rw [hfile] at h
          cases out with
          | none => exact .inl (Option.some.inj h).symm
          | some out => exact .inr (.inr ⟨_, _, _, hperm, hfresh, hseq, rfl, (Option.some.inj h).symm⟩)

theorem FlushStep.of_flush (h : w.flush c chunkId nowMs entries = some w') : FlushStep c w w' := by
  obtain ⟨mt, rest, hqueue, rfl | rfl | ⟨file, header, footer, hperm, hfresh, hseq, hfile, rfl⟩⟩ := World.flush_cases h
  · exact .dropped hqueue
  · exact .requeued hqueue
  · exact .written hqueue hperm hfresh hseq hfile

end Xtable

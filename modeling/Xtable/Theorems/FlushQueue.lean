import Xtable.Theorems.Layers
import Xtable.Theorems.Publishing

/-! The flush loop takes the queue of immutable memtables as a batch and flushes it one by one, while commits put
    entries and memtables rotate; a memtable whose flush fails goes to the end of the queue. No visible entry gets
    lost. The queue stays ordered as long as no rotation falls between the taking of a batch and a failure in it. -/

namespace Xtable

/-- The process state, and what the flush loop has taken out of the queue and not flushed yet. -/
structure FlushLoop where
  world : World
  batch : List MemTable := []

inductive FlushOp where
  | put (entry : MemEntry) (aged : Bool)
  | publish (key : RecordKey) (commitVersion : Nat)
  /-- `maybe_rotate` or `try_rotate_active`. -/
  | rotate
  | takeImmutables
  | flush (chunkId : String) (nowMs : Int64) (entries : List MemEntry)
  /-- `flush_one` fails after `n` of its actions, or on the encoding of an entry. -/
  | failFlush (chunkId : String) (nowMs : Int64) (entries : List MemEntry) (n : Nat)

namespace FlushOp

def step (c : Codecs) : FlushOp → FlushLoop → Option FlushLoop
  | put entry aged, s => some { s with world := (s.world.exec (.memPutInvisible entry aged)).2 }
  | publish key commitVersion, s => some { s with world := (s.world.exec (.memPublish key commitVersion)).2 }
  | rotate, s => some { s with world := s.world.rotate }
  | takeImmutables, s =>
    -- the loop takes the next batch when it is done with the last
    if s.batch = [] then some ⟨s.world.dequeued [], s.world.mems.flushing⟩ else none
  | flush chunkId nowMs entries, s =>
    match s.batch with
    | [] => none
    | mt :: rest =>
      if entries.Perm mt.entries ∧ s.world.freshChunkId chunkId then
        match (Flush.flushOne c chunkId nowMs entries mt).run World.exec s.world with
        | (.ok _, w) => some ⟨w, rest⟩
        | (.error _, _) => none
      else none
  | failFlush chunkId nowMs entries n, s =>
    match s.batch with
    | [] => none
    | mt :: rest =>
      if entries.Perm mt.entries ∧ s.world.freshChunkId chunkId then
        match (Flush.flushOne c chunkId nowMs entries mt).advance World.exec n s.world with
        | (.ret _, _) => none
        | (_, w) => some ⟨w.requeue mt, rest⟩
      else none

def fails : FlushOp → Bool
  | failFlush .. => true
  | _ => false

end FlushOp

namespace FlushLoop

/-- A process starts with an empty memtable, over any store and bucket. -/
def start (w : World) : FlushLoop := { world := { w with mems := { memtableSizeBytes := w.mems.memtableSizeBytes } } }

/-- The memtables that have not been flushed. -/
def live (s : FlushLoop) : List MemTable := s.world.mems.active :: (s.world.mems.flushing ++ s.batch)

end FlushLoop

variable {c : Codecs} {s s' : FlushLoop} {op : FlushOp} {chunkId : String} {nowMs : Int64} {entries : List MemEntry}
  {mt : MemTable} {file : Bytes}

/-! ## What the steps do -/

/-- What `flush_one` does under its chunk id. -/
inductive FilingAct (c : Codecs) (chunkId : String) : Act → Prop where
  | object (header : ChunkHeader) (file : Bytes) : FilingAct c chunkId (.putObject (Flush.s3Key c chunkId header) file)
  | index (row : ChunkIndexEntry) : FilingAct c chunkId (.putChunkIndex chunkId row)
  | point (key : RecordKey) (v : Nat) : FilingAct c chunkId (.updateRecordIndexChunkIdForVersion key v chunkId)
  | log (r : WalRecord) : FilingAct c chunkId (.appendWal r)
  | note (seq : Nat) : FilingAct c chunkId (.setFlushedSeq seq)
  | cut (seq : Nat) : FilingAct c chunkId (.truncateWal seq)

theorem flushOne_files (c : Codecs) (chunkId : String) (nowMs : Int64) (entries : List MemEntry) (mt : MemTable) :
    (Flush.flushOne c chunkId nowMs entries mt).Only (FilingAct c chunkId) := by
  unfold Flush.flushOne
  split
  · trivial
  split
  · trivial
  · trivial
  refine Prog.Only.perform (.object _ _) fun _ => ?_
  refine Prog.Only.perform (.index _) fun _ => ?_
  refine (Prog.Only.forEach fun e _ => ?_).bind fun _ => ?_
  · split
    · trivial
    · exact Prog.Only.perform (.point _ _) fun _ => trivial
  refine Prog.Only.perform (.log _) fun _ => ?_
  refine Prog.Only.perform (.note _) fun _ => ?_
  exact Prog.Only.perform (.cut _) fun _ => trivial

/-- The chunk has a row in the index and the file under the key of the row. -/
def World.HasChunk (w : World) (chunkId : String) (file : Bytes) : Prop :=
  ∃ row, w.store.chunkIndex[chunkId]? = some row ∧ w.bucket[row.s3Key]? = some file

theorem World.freshChunkId_ne {w : World} {chunkId' : String} {row : ChunkIndexEntry}
    (hfresh : w.freshChunkId chunkId = true) (hrow : w.store.chunkIndex[chunkId']? = some row)
    (hfile : w.bucket[row.s3Key]? = some file) :
    chunkId ≠ chunkId' ∧ ∀ header, Flush.s3Key c chunkId header ≠ row.s3Key := by
  obtain ⟨-, hindex, hbucket⟩ := World.freshChunkId_spec (c := c) hfresh
  refine ⟨?_, fun header heq => ?_⟩
  · rintro rfl
    rw [hindex] at hrow
    cases hrow
  · rw [← heq, hbucket] at hfile
    cases hfile

theorem World.HasChunk.advance {w : World} {chunkId' : String} (h : w.HasChunk chunkId' file)
    (hfresh : w.freshChunkId chunkId = true) (nowMs : Int64) (entries : List MemEntry) (mt : MemTable) (n : Nat) :
    ((Flush.flushOne c chunkId nowMs entries mt).advance World.exec n w).2.HasChunk chunkId' file := by
  obtain ⟨row, hrow, hfile⟩ := h
  obtain ⟨hid, hkey⟩ := World.freshChunkId_ne (c := c) hfresh hrow hfile
  have hkept := (flushOne_files c chunkId nowMs entries mt).advance_keeps (h := World.exec)
    (I := fun w => w.store.chunkIndex[chunkId']? = some row ∧ w.bucket[row.s3Key]? = some file) ?_ ⟨hrow, hfile⟩ n
  · exact ⟨row, hkept⟩
  rintro a w ha ⟨hrow, hfile⟩
  cases ha with
  | object header body => exact ⟨hrow, by simpa [World.exec, hkey header] using hfile⟩
  | index row' => exact ⟨by simpa [World.exec, World.setStore, Store.putChunkIndex, hid] using hrow, hfile⟩
  | point | log | note | cut => exact ⟨hrow, hfile⟩

theorem World.HasChunk.flushed {w : World} {chunkId' : String} {file' : Bytes} {header : ChunkHeader}
    {footer : ChunkFooter} (h : w.HasChunk chunkId' file') (hfresh : w.freshChunkId chunkId = true) :
    (w.flushed c chunkId mt entries file header footer).HasChunk chunkId' file' := by
  obtain ⟨row, hrow, hfile⟩ := h
  obtain ⟨hid, hkey⟩ := World.freshChunkId_ne (c := c) hfresh hrow hfile
  refine ⟨row, ?_, ?_⟩
  · simpa [World.flushed, chunkIndex_flushed, hid] using hrow
  · simpa [World.flushed, hkey header] using hfile

theorem World.hasChunk_flushed {w : World} {header : ChunkHeader} {footer : ChunkFooter} :
    (w.flushed c chunkId mt entries file header footer).HasChunk chunkId file :=
  ⟨Flush.indexEntry c chunkId mt file header footer, by simp [World.flushed, chunkIndex_flushed],
    by simp [World.flushed, Flush.indexEntry]⟩

theorem mems_advance (c : Codecs) (chunkId : String) (nowMs : Int64) (entries : List MemEntry) (mt : MemTable) (n : Nat)
    (w : World) : ((Flush.flushOne c chunkId nowMs entries mt).advance World.exec n w).2.mems = w.mems := by
  refine (flushOne_files c chunkId nowMs entries mt).advance_keeps (h := World.exec) (I := fun w' => w'.mems = w.mems)
    (fun a w' ha hw' => ?_) rfl n
  cases ha <;> exact hw'

theorem FlushOp.flush_cases (h : (flush chunkId nowMs entries).step c s = some s') :
    ∃ mt rest, s.batch = mt :: rest ∧ s'.batch = rest ∧ s'.world.mems = s.world.mems ∧ entries.Perm mt.entries ∧
      s.world.freshChunkId chunkId = true ∧
      (s'.world = s.world ∧ (mt.earliestSeq = ⊤ ∨ mt.latestSeq = 0 ∨ Flush.chunkFile c chunkId nowMs entries = .ok none) ∨
        ∃ file header footer, Flush.chunkFile c chunkId nowMs entries = .ok (some (file, header, footer)) ∧
          s'.world = s.world.flushed c chunkId mt entries file header footer) := by
  simp only [step] at h
  split at h
  case h_1 => cases h
  case h_2 mt rest hbatch =>
    split at h
    case isFalse => cases h
    case isTrue hadmit =>
      refine ⟨mt, rest, hbatch, ?_⟩
      rw [flushOne_run] at h
      by_cases hseq : mt.earliestSeq = ⊤ ∨ mt.latestSeq = 0
      · rw [if_pos hseq] at h
        cases h
        exact ⟨rfl, rfl, hadmit.1, hadmit.2, .inl ⟨rfl, hseq.imp_right .inl⟩⟩
      · rw [if_neg hseq] at h
        match hfile : Flush.chunkFile c chunkId nowMs entries with
        | .error x => simp [hfile] at h
        | .ok none =>
          simp only [hfile] at h
          cases h
          exact ⟨rfl, rfl, hadmit.1, hadmit.2, .inl ⟨rfl, .inr (.inr rfl)⟩⟩
        | .ok (some (file, header, footer)) =>
          simp only [hfile] at h
          cases h
          exact ⟨rfl, rfl, hadmit.1, hadmit.2, .inr ⟨file, header, footer, rfl, rfl⟩⟩

theorem FlushOp.failFlush_cases {n : Nat} (h : (failFlush chunkId nowMs entries n).step c s = some s') :
    ∃ mt rest, s.batch = mt :: rest ∧ s'.batch = rest ∧
      s'.world.mems = { s.world.mems with flushing := s.world.mems.flushing ++ [mt] } ∧
      ∀ chunkId' file, s.world.HasChunk chunkId' file → s'.world.HasChunk chunkId' file := by
  simp only [step] at h
  split at h
  case h_1 => cases h
  case h_2 mt rest hbatch =>
    split at h
    case isFalse => cases h
    case isTrue hadmit =>
      have hmems := mems_advance c chunkId nowMs entries mt n s.world
      have hkeep : ∀ chunkId' file, s.world.HasChunk chunkId' file → _ := fun _ _ hfiled =>
        hfiled.advance (c := c) hadmit.2 nowMs entries mt n
      refine ⟨mt, rest, hbatch, ?_⟩
      split at h
      case h_1 => cases h
      case h_2 p w _ heq =>
        rw [heq] at hmems hkeep
        cases h
        refine ⟨rfl, ?_, hkeep⟩
        simp only [World.requeue]
        rw [hmems]

/-! ## The order of the queue -/

/-- The ids of the queue, of the active memtable and of the batch, when `k` was active as the batch was taken. -/
structure Rounds (queue : List Nat) (active : Nat) (batch : List Nat) (k : Nat) : Prop where
  ascending : (queue ++ [active]).Pairwise (· < ·)
  inOrder : batch.Pairwise (· < ·)
  taken : ∀ b ∈ batch, b < k
  since : k ≤ active
  /-- Without a rotation since then, the queue has only what failed of the batch before. -/
  failed : active = k → ∀ q ∈ queue, ∀ b ∈ batch, q < b

namespace Rounds

variable {queue batch : List Nat} {active b k : Nat}

theorem lt_active (h : Rounds queue active batch k) : ∀ q ∈ queue, q < active := by
  intro q hq
  exact (List.pairwise_append.1 h.ascending).2.2 q hq active (by simp)

theorem rotate (h : Rounds queue active batch k) : Rounds (queue ++ [active]) (active + 1) batch k where
  ascending := by
    refine List.pairwise_append.2 ⟨h.ascending, by simp, fun q hq a ha => ?_⟩
    obtain rfl := List.mem_singleton.1 ha
    rcases List.mem_append.1 hq with hq | hq
    · exact (h.lt_active q hq).trans (Nat.lt_succ_self _)
    · exact List.mem_singleton.1 hq ▸ Nat.lt_succ_self _
  inOrder := h.inOrder
  taken := h.taken
  since := h.since.trans (Nat.le_succ _)
  failed heq := absurd h.since (by omega)

theorem take (h : Rounds queue active [] k) : Rounds [] active queue active where
  ascending := by simp
  inOrder := (List.pairwise_append.1 h.ascending).1
  taken := h.lt_active
  since := le_rfl
  failed := by simp

theorem flush (h : Rounds queue active (b :: batch) k) : Rounds queue active batch k where
  ascending := h.ascending
  inOrder := (List.pairwise_cons.1 h.inOrder).2
  taken b' hb' := h.taken b' (List.mem_cons_of_mem _ hb')
  since := h.since
  failed heq q hq b' hb' := h.failed heq q hq b' (List.mem_cons_of_mem _ hb')

theorem fail (h : Rounds queue active (b :: batch) k) (hquiet : active = k) : Rounds (queue ++ [b]) active batch k where
  ascending := by
    rw [List.append_assoc]
    refine List.pairwise_append.2 ⟨(List.pairwise_append.1 h.ascending).1, ?_, fun q hq a ha => ?_⟩
    · have hlt : b < active := (h.taken b (by simp)).trans_le h.since
      simpa using hlt
    · rcases List.mem_append.1 ha with ha | ha
      · exact h.failed hquiet q hq a (List.mem_singleton.1 ha ▸ List.mem_cons_self)
      · exact List.mem_singleton.1 ha ▸ h.lt_active q hq
  inOrder := (List.pairwise_cons.1 h.inOrder).2
  taken b' hb' := h.taken b' (List.mem_cons_of_mem _ hb')
  since := h.since
  failed heq q hq b' hb' := by
    rcases List.mem_append.1 hq with hq | hq
    · exact h.failed heq q hq b' (List.mem_cons_of_mem _ hb')
    · exact List.mem_singleton.1 hq ▸ (List.pairwise_cons.1 h.inOrder).1 b' hb'

end Rounds

def MemTableSet.queued (m : MemTableSet) : List Nat := m.flushing.map (·.id)

theorem MemTableSet.queued_publish (m : MemTableSet) (key : RecordKey) (v : Nat) :
    (m.publish key v).queued = m.queued := by
  simp [queued, publish, Function.comp_def, id_publish]

theorem MemTableSet.putInvisible_cases (m : MemTableSet) (entry : MemEntry) (aged : Bool) :
    m.putInvisible entry aged = { m with active := m.active.putInvisible entry } ∨
      m.putInvisible entry aged = ({ m with active := m.active.putInvisible entry } : MemTableSet).rotate := by
  unfold putInvisible
  simp only
  split
  · exact .inr rfl
  · exact .inl rfl

namespace FlushLoop

def InRounds (s : FlushLoop) (k : Nat) : Prop :=
  Rounds s.world.mems.queued s.world.mems.active.id (s.batch.map (·.id)) k

/-- The id of the active memtable when the batch was taken, after a step. -/
def opened (k : Nat) (s : FlushLoop) : FlushOp → Nat
  | .takeImmutables => s.world.mems.active.id
  | _ => k

theorem InRounds.rotate {k : Nat} (h : s.InRounds k) : InRounds { s with world := s.world.rotate } k := by
  have hqueue : s.world.mems.rotate.queued = s.world.mems.queued ++ [s.world.mems.active.id] := by
    simp [MemTableSet.queued, MemTableSet.rotate]
  have hrotated := Rounds.rotate h
  rw [← hqueue] at hrotated
  exact hrotated

theorem InRounds.step {k : Nat} (h : s.InRounds k) (hquiet : op.fails = true → s.world.mems.active.id = k)
    (hstep : op.step c s = some s') : s'.InRounds (opened k s op) := by
  cases op with
  | put entry aged =>
    cases hstep
    have hput : InRounds { s with world := { s.world with
        mems := { s.world.mems with active := s.world.mems.active.putInvisible entry } } } k := h
    simp only [World.exec, opened]
    rcases s.world.mems.putInvisible_cases entry aged with heq | heq
    · rw [heq]
      exact hput
    · rw [heq]
      exact hput.rotate
  | publish key v =>
    cases hstep
    have hid : (s.world.mems.publish key v).active.id = s.world.mems.active.id := MemTableSet.id_publish _ _ _
    have hpublished := h
    rw [InRounds, ← MemTableSet.queued_publish s.world.mems key v, ← hid] at hpublished
    exact hpublished
  | rotate =>
    cases hstep
    exact h.rotate
  | takeImmutables =>
    simp only [FlushOp.step] at hstep
    split at hstep
    case isFalse => cases hstep
    case isTrue hbatch =>
      cases hstep
      rw [InRounds, hbatch] at h
      exact Rounds.take h
  | flush chunkId nowMs entries =>
    obtain ⟨mt, rest, hbatch, hrest, hmems, -⟩ := FlushOp.flush_cases hstep
    rw [InRounds, hbatch] at h
    rw [InRounds, hmems, hrest]
    exact Rounds.flush h
  | failFlush chunkId nowMs entries n =>
    obtain ⟨mt, rest, hbatch, hrest, hmems, -⟩ := FlushOp.failFlush_cases hstep
    rw [InRounds, hbatch] at h
    have hfailed := Rounds.fail h (hquiet rfl)
    rw [InRounds, hmems, hrest]
    simpa [MemTableSet.queued, opened] using hfailed

/-- The immutable memtables are oldest first, and all are older than the active one. -/
def Ascending (s : FlushLoop) : Prop := (s.world.mems.queued ++ [s.world.mems.active.id]).Pairwise (· < ·)

/-- No memtable rotates between the taking of a batch and the failure of one of its flushes: the active one still has
the id `k`. -/
def Quiet : Nat → List (FlushLoop × FlushOp × FlushLoop) → Prop
  | _, [] => True
  | k, x :: rest => (x.2.1.fails = true → x.1.world.mems.active.id = k) ∧ Quiet (opened k x.1 x.2.1) rest

theorem InRounds.run {hist : List (FlushLoop × FlushOp × FlushLoop)} {k : Nat} (h : s.InRounds k)
    (hrun : Run (FlushOp.step c) s hist s') (hquiet : Quiet k hist) : ∃ k', s'.InRounds k' := by
  induction hist generalizing s k with
  | nil => exact ⟨k, hrun.nil_inv ▸ h⟩
  | cons x rest ih =>
    obtain ⟨rfl, hstep, hrest⟩ := hrun.cons_inv
    exact ih (h.step hquiet.1 hstep) hrest hquiet.2

theorem InRounds.start (w : World) : (start w).InRounds 0 where
  ascending := by simp [FlushLoop.start, MemTableSet.queued]
  inOrder := by simp [FlushLoop.start]
  taken := by simp [FlushLoop.start]
  since := Nat.zero_le _
  failed := by simp [FlushLoop.start]

instance decidableQuiet (k : Nat) (hist : List (FlushLoop × FlushOp × FlushLoop)) : Decidable (Quiet k hist) :=
  match hist with
  | [] => .isTrue trivial
  | x :: rest => @instDecidableAnd _ _ inferInstance (decidableQuiet (opened k x.1 x.2.1) rest)

end FlushLoop

/-- In every run in which no memtable rotates between the moment a batch is taken and the failure of one of its
flushes, the queue is oldest first, and older than the active memtable. -/
theorem queue_oldest_first {hist : List (FlushLoop × FlushOp × FlushLoop)} {w : World}
    (hrun : Run (FlushOp.step c) (.start w) hist s) (hquiet : FlushLoop.Quiet 0 hist) : s.Ascending := by
  obtain ⟨k, hrounds⟩ := (FlushLoop.InRounds.start w).run hrun hquiet
  exact hrounds.ascending

/-- Two memtables are taken together; the flush of the first fails, and the second is written while a third rotates.
-/
def retriedFlush : List FlushOp :=
  [.put (sampleWrite 1 [1]) false, .rotate, .put (sampleWrite 2 [2]) true, .takeImmutables,
    .failFlush "a" 0 [sampleWrite 1 [1]] 1, .rotate, .flush "b" 0 [sampleWrite 2 [2]]]

theorem queue_oldest_first_retried : ∃ hist s, Run (FlushOp.step .stored) (.start {}) hist s ∧
    s.world.mems.queued = [0, 2] ∧ s.Ascending := by
  obtain ⟨s, hrun, hqueue⟩ := Run.exists_of_exec (FlushOp.step .stored) (.start {}) retriedFlush
    (fun s => s.world.mems.queued = [0, 2]) (by decide +kernel)
  exact ⟨_, s, hrun, of_decide_eq_true hqueue, queue_oldest_first hrun (by decide +kernel)⟩

/-- A memtable rotates while the batch is being flushed, and the flush fails: the older memtable stands behind the
newer one, and answers a read in its place. -/
theorem queue_out_of_order : ∃ hist s, Run (FlushOp.step .stored) (.start {}) hist s ∧
    s.world.mems.queued = [1, 0] ∧ s.world.mems.active.id = 2 ∧
    (Read.fromImmutables s.world.mems.flushing ("s", "t", "r") 2).map (·.commitVersion) = some 1 := by
  obtain ⟨s, hrun, hqueue⟩ := Run.exists_of_exec (FlushOp.step .stored) (.start {})
    [.put (sampleWrite 1 [1]) false, .rotate, .takeImmutables, .put (sampleWrite 2 [2]) false, .rotate,
      .failFlush "a" 0 [sampleWrite 1 [1]] 0]
    (fun s => s.world.mems.queued = [1, 0] ∧ s.world.mems.active.id = 2 ∧
      (Read.fromImmutables s.world.mems.flushing ("s", "t", "r") 2).map (·.commitVersion) = some 1) (by decide +kernel)
  exact ⟨_, s, hrun, of_decide_eq_true hqueue⟩

/-! ## No entry is lost -/

/-- The entry of one put, under any version. -/
def MemEntry.SameWrite (e' e : MemEntry) : Prop := e' = { e with commitVersion := e'.commitVersion }

/-- What a step makes of a memtable that is not flushed yet. -/
inductive Becomes (s : FlushLoop) : FlushOp → MemTable → MemTable → Prop where
  | same {op : FlushOp} (mt : MemTable) : Becomes s op mt mt
  | put (entry : MemEntry) (aged : Bool) :
      Becomes s (.put entry aged) s.world.mems.active (s.world.mems.active.putInvisible entry)
  | publish (key : RecordKey) (v : Nat) (mt : MemTable) : Becomes s (.publish key v) mt (mt.publish key v)

section Becomes

variable {mt mt' : MemTable} {key : RecordKey} {e e' : MemEntry}

theorem Becomes.id_eq (h : Becomes s op mt mt') : mt'.id = mt.id := by
  cases h with
  | same | put => rfl
  | publish key v => exact MemTableSet.id_publish _ _ _

theorem Becomes.built (h : Becomes s op mt mt') (hmt : mt.Built) : mt'.Built := by
  cases h with
  | same => exact hmt
  | put entry aged => exact hmt.put entry
  | publish key v => exact hmt.publish key v

theorem Becomes.entry (h : Becomes s op mt mt') (he : mt.map[key]? = some e) :
    (∃ e', mt'.map[key]? = some e' ∧ e'.SameWrite e ∧ (e.commitVersion ≠ ⊤ → e'.commitVersion ≠ ⊤)) ∨
      mt.id = s.world.mems.active.id ∧ ∃ entry aged, op = .put entry aged ∧ entry.key = key := by
  cases h with
  | same => exact .inl ⟨e, he, rfl, fun h => h⟩
  | put entry aged =>
    by_cases hkey : entry.key = key
    · exact .inr ⟨rfl, entry, aged, rfl, hkey⟩
    · exact .inl ⟨e, by simpa [MemTable.putInvisible, hkey] using he, rfl, fun h => h⟩
  | publish key' v =>
    rw [MemTableSet.get_publish]
    by_cases hkey : key' = key
    · refine .inl ⟨{ e with commitVersion := (v : WithTop Nat) }, ?_, rfl, fun _ => WithTop.coe_ne_top⟩
      rw [if_pos hkey, he]
      rfl
    · exact .inl ⟨e, by rw [if_neg hkey, he], rfl, fun h => h⟩

theorem Becomes.entry_of (h : Becomes s op mt mt') (he : mt'.map[key]? = some e') :
    (∃ e, mt.map[key]? = some e ∧ e'.SameWrite e) ∨
      mt.id = s.world.mems.active.id ∧ ∃ aged, op = .put e' aged ∧ e'.key = key := by
  cases h with
  | same => exact .inl ⟨e', he, rfl⟩
  | put entry aged =>
    simp only [MemTable.putInvisible, Table.get_insert] at he
    split at he
    case isTrue hkey =>
      cases he
      exact .inr ⟨rfl, aged, rfl, hkey⟩
    case isFalse => exact .inl ⟨e', he, rfl⟩
  | publish key' v =>
    rw [MemTableSet.get_publish] at he
    split at he
    case isTrue =>
      obtain ⟨e, hold, rfl⟩ := Option.map_eq_some_iff.1 he
      exact .inl ⟨e, hold, rfl⟩
    case isFalse => exact .inl ⟨e', he, rfl⟩

end Becomes

namespace FlushLoop

theorem mem_live : mt ∈ s.live ↔ mt = s.world.mems.active ∨ mt ∈ s.world.mems.flushing ∨ mt ∈ s.batch := by
  simp [live]

theorem mem_live_rotate {m : MemTableSet} (h : mt ∈ live { s with world := { s.world with mems := m.rotate } }) :
    mt = m.active ∨ mt ∈ m.flushing ∨ mt ∈ s.batch ∨ mt = { id := m.active.id + 1 } := by
  simp only [mem_live, MemTableSet.rotate, List.mem_append, List.mem_singleton] at h
  tauto

theorem mem_live_put {entry : MemEntry} {aged : Bool}
    (h : mt ∈ live { s with world := (s.world.exec (.memPutInvisible entry aged)).2 }) :
    mt = s.world.mems.active.putInvisible entry ∨ mt ∈ s.world.mems.flushing ∨ mt ∈ s.batch ∨
      mt = { id := s.world.mems.active.id + 1 } := by
  simp only [World.exec] at h
  rcases s.world.mems.putInvisible_cases entry aged with heq | heq
  · rw [heq, mem_live] at h
    tauto
  · rw [heq] at h
    exact mem_live_rotate h

theorem mem_live_of_put {entry : MemEntry} (aged : Bool)
    (h : mt = s.world.mems.active.putInvisible entry ∨ mt ∈ s.world.mems.flushing ∨ mt ∈ s.batch) :
    mt ∈ live { s with world := (s.world.exec (.memPutInvisible entry aged)).2 } := by
  rw [mem_live]
  simp only [World.exec]
  rcases s.world.mems.putInvisible_cases entry aged with heq | heq
  · rw [heq]
    exact h
  · rw [heq]
    simp only [MemTableSet.rotate, List.mem_append, List.mem_singleton]
    tauto

theorem live_of_step (hstep : op.step c s = some s') {mt' : MemTable} (hmt' : mt' ∈ s'.live) :
    (∃ mt ∈ s.live, Becomes s op mt mt') ∨ mt' = { id := s.world.mems.active.id + 1 } := by
  cases op with
  | put entry aged =>
    cases hstep
    rcases mem_live_put hmt' with rfl | hmt' | hmt' | rfl
    · exact .inl ⟨_, mem_live.2 (.inl rfl), .put entry aged⟩
    · exact .inl ⟨mt', mem_live.2 (.inr (.inl hmt')), .same mt'⟩
    · exact .inl ⟨mt', mem_live.2 (.inr (.inr hmt')), .same mt'⟩
    · exact .inr rfl
  | publish key v =>
    cases hstep
    rcases mem_live.1 hmt' with rfl | hmt' | hmt'
    · exact .inl ⟨_, mem_live.2 (.inl rfl), .publish key v _⟩
    · obtain ⟨mt, hmt, rfl⟩ := List.mem_map.1 hmt'
      exact .inl ⟨mt, mem_live.2 (.inr (.inl hmt)), .publish key v mt⟩
    · exact .inl ⟨mt', mem_live.2 (.inr (.inr hmt')), .same mt'⟩
  | rotate =>
    cases hstep
    rcases mem_live_rotate hmt' with rfl | hmt' | hmt' | rfl
    · exact .inl ⟨_, mem_live.2 (.inl rfl), .same _⟩
    · exact .inl ⟨mt', mem_live.2 (.inr (.inl hmt')), .same mt'⟩
    · exact .inl ⟨mt', mem_live.2 (.inr (.inr hmt')), .same mt'⟩
    · exact .inr rfl
  | takeImmutables =>
    simp only [FlushOp.step] at hstep
    split at hstep
    case isFalse => cases hstep
    case isTrue =>
      cases hstep
      refine .inl ⟨mt', mem_live.2 ?_, .same mt'⟩
      rcases mem_live.1 hmt' with hmt' | hmt' | hmt'
      · exact .inl hmt'
      · cases hmt'
      · exact .inr (.inl hmt')
  | flush chunkId nowMs entries =>
    obtain ⟨mt, rest, hbatch, hrest, hmems, -⟩ := FlushOp.flush_cases hstep
    refine .inl ⟨mt', mem_live.2 ?_, .same mt'⟩
    rw [mem_live, hmems, hrest] at hmt'
    rw [hbatch, List.mem_cons]
    tauto
  | failFlush chunkId nowMs entries n =>
    obtain ⟨mt, rest, hbatch, hrest, hmems, -⟩ := FlushOp.failFlush_cases hstep
    refine .inl ⟨mt', mem_live.2 ?_, .same mt'⟩
    simp only [mem_live, hmems, hrest, List.mem_append, List.mem_singleton] at hmt'
    rw [hbatch, List.mem_cons]
    tauto

theorem becomes_of_step (hstep : op.step c s = some s') (hmt : mt ∈ s.live) :
    (∃ mt' ∈ s'.live, Becomes s op mt mt') ∨
      ∃ chunkId nowMs entries rest, op = .flush chunkId nowMs entries ∧ s.batch = mt :: rest := by
  cases op with
  | put entry aged =>
    cases hstep
    refine .inl ?_
    rcases mem_live.1 hmt with rfl | hmt | hmt
    · exact ⟨_, mem_live_of_put aged (.inl rfl), .put entry aged⟩
    · exact ⟨mt, mem_live_of_put aged (.inr (.inl hmt)), .same mt⟩
    · exact ⟨mt, mem_live_of_put aged (.inr (.inr hmt)), .same mt⟩
  | publish key v =>
    cases hstep
    refine .inl ?_
    rcases mem_live.1 hmt with rfl | hmt | hmt
    · exact ⟨_, mem_live.2 (.inl rfl), .publish key v _⟩
    · exact ⟨_, mem_live.2 (.inr (.inl (List.mem_map_of_mem hmt))), .publish key v mt⟩
    · exact ⟨mt, mem_live.2 (.inr (.inr hmt)), .same mt⟩
  | rotate =>
    cases hstep
    refine .inl ⟨mt, mem_live.2 ?_, .same mt⟩
    rw [mem_live] at hmt
    simp only [World.rotate, MemTableSet.rotate, List.mem_append, List.mem_singleton]
    tauto
  | takeImmutables =>
    simp only [FlushOp.step] at hstep
    split at hstep
    case isFalse => cases hstep
    case isTrue hbatch =>
      cases hstep
      refine .inl ⟨mt, mem_live.2 ?_, .same mt⟩
      rw [mem_live, hbatch] at hmt
      rcases hmt with hmt | hmt | hmt
      · exact .inl hmt
      · exact .inr (.inr hmt)
      · cases hmt
  | flush chunkId nowMs entries =>
    obtain ⟨mt₀, rest, hbatch, hrest, hmems, -⟩ := FlushOp.flush_cases hstep
    have hstay : mt = mt₀ ∨ mt ∈ s'.live := by
      rw [mem_live, hbatch, List.mem_cons] at hmt
      rw [mem_live, hmems, hrest]
      tauto
    rcases hstay with rfl | hstay
    · exact .inr ⟨chunkId, nowMs, entries, rest, rfl, hbatch⟩
    · exact .inl ⟨mt, hstay, .same mt⟩
  | failFlush chunkId nowMs entries n =>
    obtain ⟨mt₀, rest, hbatch, hrest, hmems, -⟩ := FlushOp.failFlush_cases hstep
    refine .inl ⟨mt, mem_live.2 ?_, .same mt⟩
    rw [mem_live, hbatch, List.mem_cons] at hmt
    simp only [hmems, hrest, List.mem_append, List.mem_singleton]
    tauto

/-- The memtables that are not flushed yet were filled by puts, and the active one is the newest. -/
structure Sound (s : FlushLoop) : Prop where
  built : ∀ mt ∈ s.live, mt.Built
  older : ∀ mt, mt ∈ s.world.mems.flushing ∨ mt ∈ s.batch → mt.id < s.world.mems.active.id

theorem Sound.of_start (w : World) : (start w).Sound where
  built mt hmt := by
    obtain rfl := List.mem_singleton.1 hmt
    exact .new 0
  older mt hmt := by
    rcases hmt with hmt | hmt <;> cases hmt

theorem Sound.older_rotate (h : s.Sound) (hmt : mt ∈ s.world.mems.rotate.flushing ∨ mt ∈ s.batch) :
    mt.id < s.world.mems.active.id + 1 := by
  simp only [MemTableSet.rotate, List.mem_append, List.mem_singleton, or_assoc] at hmt
  rcases hmt with hmt | rfl | hmt
  · exact (h.older mt (.inl hmt)).trans (Nat.lt_succ_self _)
  · exact Nat.lt_succ_self _
  · exact (h.older mt (.inr hmt)).trans (Nat.lt_succ_self _)

theorem Sound.step (h : s.Sound) (hstep : op.step c s = some s') : s'.Sound := by
  refine ⟨fun mt' hmt' => ?_, fun mt hmt => ?_⟩
  · rcases live_of_step hstep hmt' with ⟨mt, hmt, hbecomes⟩ | rfl
    · exact hbecomes.built (h.built mt hmt)
    · exact .new _
  cases op with
  | put entry aged =>
    cases hstep
    have hput : Sound { s with world := { s.world with
        mems := { s.world.mems with active := s.world.mems.active.putInvisible entry } } } := by
      refine ⟨fun mt hmt => ?_, h.older⟩
      rcases mem_live.1 hmt with rfl | hmt | hmt
      · exact (h.built _ (mem_live.2 (.inl rfl))).put entry
      · exact h.built mt (mem_live.2 (.inr (.inl hmt)))
      · exact h.built mt (mem_live.2 (.inr (.inr hmt)))
    simp only [World.exec] at hmt ⊢
    rcases s.world.mems.putInvisible_cases entry aged with heq | heq
    · rw [heq] at hmt ⊢
      exact hput.older mt hmt
    · rw [heq] at hmt ⊢
      exact hput.older_rotate hmt
  | publish key v =>
    cases hstep
    simp only [World.exec, MemTableSet.publish, MemTableSet.id_publish]
    rcases hmt with hmt | hmt
    · obtain ⟨mt₀, hmt₀, rfl⟩ := List.mem_map.1 hmt
      rw [MemTableSet.id_publish]
      exact h.older mt₀ (.inl hmt₀)
    · exact h.older mt (.inr hmt)
  | rotate =>
    cases hstep
    exact h.older_rotate hmt
  | takeImmutables =>
    simp only [FlushOp.step] at hstep
    split at hstep
    case isFalse => cases hstep
    case isTrue =>
      cases hstep
      rcases hmt with hmt | hmt
      · cases hmt
      · exact h.older mt (.inl hmt)
  | flush chunkId nowMs entries =>
    obtain ⟨mt₀, rest, hbatch, hrest, hmems, -⟩ := FlushOp.flush_cases hstep
    rw [hmems, hrest] at hmt
    rw [hmems]
    exact h.older mt (hmt.imp_right fun hmt => hbatch ▸ List.mem_cons_of_mem _ hmt)
  | failFlush chunkId nowMs entries n =>
    obtain ⟨mt₀, rest, hbatch, hrest, hmems, -⟩ := FlushOp.failFlush_cases hstep
    simp only [hmems, hrest, List.mem_append, List.mem_singleton] at hmt
    rw [hmems]
    refine h.older mt ?_
    rw [hbatch, List.mem_cons]
    tauto

variable {e : MemEntry} {id : Nat}

/-- The memtable with the id has the entry, if it has one under its key. -/
def Only (s : FlushLoop) (id : Nat) (e : MemEntry) : Prop :=
  ∀ mt ∈ s.live, mt.id = id → ∀ e', mt.map[e.key]? = some e' → e'.SameWrite e

/-- The step does not put the key into the memtable with the id. -/
def Spares (id : Nat) (key : RecordKey) (s : FlushLoop) (op : FlushOp) : Prop :=
  ∀ entry aged, op = .put entry aged → entry.key = key → s.world.mems.active.id ≠ id

theorem SameWrite.trans {e₁ e₂ e₃ : MemEntry} (h : e₁.SameWrite e₂) (h' : e₂.SameWrite e₃) : e₁.SameWrite e₃ := by
  unfold MemEntry.SameWrite at *
  rw [h, h']

theorem Only.step (h : s.Only id e) (hspares : Spares id e.key s op) (hstep : op.step c s = some s') :
    s'.Only id e := by
  intro mt' hmt' hid e' he'
  rcases live_of_step hstep hmt' with ⟨mt, hmt, hbecomes⟩ | rfl
  · have hid' : mt.id = id := hbecomes.id_eq.symm.trans hid
    rcases hbecomes.entry_of he' with ⟨e₀, he₀, hsame⟩ | ⟨hactive, aged, rfl, hkey⟩
    · exact SameWrite.trans hsame (h mt hmt hid' e₀ he₀)
    · exact absurd (hactive.symm.trans hid') (hspares e' aged rfl hkey)
  · simp at he'

theorem Only.of_put {aged : Bool} (h : s.Sound) (hstep : (FlushOp.put e aged).step c s = some s') :
    s'.Only s.world.mems.active.id e := by
  cases hstep
  intro mt hmt hid e' he'
  rcases mem_live_put hmt with rfl | hmt | hmt | rfl
  · simp only [MemTable.putInvisible, Table.get_insert, if_true] at he'
    cases he'
    rfl
  · exact absurd hid (h.older mt (.inl hmt)).ne
  · exact absurd hid (h.older mt (.inr hmt)).ne
  · simp at he'

def Shown (s : FlushLoop) (id : Nat) (e : MemEntry) : Prop :=
  ∃ mt ∈ s.live, mt.id = id ∧ ∃ e', mt.map[e.key]? = some e' ∧ e'.SameWrite e ∧ e'.commitVersion ≠ ⊤

/-- The entry is among those written to a chunk that is uploaded and has a row in the chunk index. -/
def Uploaded (c : Codecs) (s : FlushLoop) (e : MemEntry) : Prop :=
  ∃ chunkId nowMs entries file header footer,
    Flush.chunkFile c chunkId nowMs entries = .ok (some (file, header, footer)) ∧ s.world.HasChunk chunkId file ∧
    ∃ ce ∈ entries.filterMap Flush.chunkEntry,
      (ce.space, ce.table, ce.recordId) = e.key ∧ ce.value = e.value ∧ ce.txnId = e.txnId

theorem Uploaded.of_flush {rest : List MemTable} {e' : MemEntry}
    (hstep : (FlushOp.flush chunkId nowMs entries).step c s = some s') (hbatch : s.batch = mt :: rest)
    (hbuilt : mt.Built) (hseq : 1 ≤ e.walSeq) (he' : mt.map[e.key]? = some e') (hsame : e'.SameWrite e)
    (hvisible : e'.commitVersion ≠ ⊤) : s'.Uploaded c e := by
  obtain ⟨mt₀, rest₀, hbatch₀, -, -, hperm, hfresh, hworld⟩ := FlushOp.flush_cases hstep
  obtain ⟨rfl, -⟩ := List.cons.inj (hbatch.symm.trans hbatch₀)
  obtain ⟨v, hv⟩ := WithTop.ne_top_iff_exists.1 hvisible
  have hmem : e' ∈ entries := hperm.mem_iff.2 (MemTable.mem_entries.2 ⟨e.key, he'⟩)
  have hwritten : ∃ ce ∈ entries.filterMap Flush.chunkEntry,
      (ce.space, ce.table, ce.recordId) = e.key ∧ ce.value = e.value ∧ ce.txnId = e.txnId := by
    refine ⟨_, List.mem_filterMap.2 ⟨e', hmem, by rw [Flush.chunkEntry, ← hv]⟩, ?_⟩
    rw [hsame]
    exact ⟨rfl, rfl, rfl⟩
  obtain ⟨-, hearliest, hlatest⟩ := hbuilt.entry he'
  have hwal : e'.walSeq = e.walSeq := by rw [hsame]
  rcases hworld with ⟨-, hnothing⟩ | ⟨file, header, footer, hfile, hworld⟩
  · exfalso
    rcases hnothing with htop | hzero | hnone
    · rw [htop, top_le_iff] at hearliest
      exact absurd hearliest (WithTop.coe_ne_top)
    · omega
    · obtain ⟨ce, hce, -⟩ := hwritten
      rw [Flush.chunkFile_none hnone] at hce
      cases hce
  · refine ⟨chunkId, nowMs, entries, file, header, footer, hfile, ?_, hwritten⟩
    rw [hworld]
    exact World.hasChunk_flushed

theorem hasChunk_of_step (hstep : op.step c s = some s') {chunkId : String} (h : s.world.HasChunk chunkId file) :
    s'.world.HasChunk chunkId file := by
  cases op with
  | put | publish | rotate =>
    cases hstep
    exact h
  | takeImmutables =>
    simp only [FlushOp.step] at hstep
    split at hstep
    case isFalse => cases hstep
    case isTrue =>
      cases hstep
      exact h
  | flush chunkId' nowMs entries =>
    obtain ⟨_, _, -, -, -, -, hfresh, ⟨hworld, -⟩ | ⟨_, _, _, -, hworld⟩⟩ := FlushOp.flush_cases hstep
    · exact hworld ▸ h
    · exact hworld ▸ h.flushed hfresh
  | failFlush chunkId' nowMs entries n =>
    obtain ⟨_, _, -, -, -, hkeep⟩ := FlushOp.failFlush_cases hstep
    exact hkeep chunkId file h

theorem kept_step (hsound : s.Sound) (hseq : 1 ≤ e.walSeq) (hspares : Spares id e.key s op)
    (hstep : op.step c s = some s') (h : s.Shown id e ∨ s.Uploaded c e) : s'.Shown id e ∨ s'.Uploaded c e := by
  rcases h with ⟨mt, hmt, hid, e₁, he₁, hsame, hvisible⟩ | ⟨chunkId, nowMs, entries, file, header, footer, hfile, hchunk, hce⟩
  · rcases becomes_of_step hstep hmt with ⟨mt', hmt', hbecomes⟩ | ⟨chunkId, nowMs, entries, rest, rfl, hbatch⟩
    · rcases hbecomes.entry he₁ with ⟨e₂, he₂, hsame₂, hvisible₂⟩ | ⟨hactive, entry, aged, rfl, hkey⟩
      · exact .inl ⟨mt', hmt', hbecomes.id_eq.trans hid, e₂, he₂, SameWrite.trans hsame₂ hsame, hvisible₂ hvisible⟩
      · exact absurd (hactive.symm.trans hid) (hspares entry aged rfl hkey)
    · exact .inr (.of_flush hstep hbatch (hsound.built mt hmt) hseq he₁ hsame hvisible)
  · exact .inr ⟨chunkId, nowMs, entries, file, header, footer, hfile, hasChunk_of_step hstep hchunk, hce⟩

end FlushLoop

open FlushLoop in
/-- A visible entry that was put with a WAL sequence number and is not replaced in its memtable is in a memtable that
is not flushed yet (the active one, one of the queue or of the batch), or in an uploaded chunk that the chunk index
has a row of. -/
theorem committed_entry_kept {hist before after : List (FlushLoop × FlushOp × FlushLoop)} {w : World} {u u' : FlushLoop}
    {e : MemEntry} {aged : Bool} (hrun : Run (FlushOp.step c) (start w) hist s)
    (hhist : hist = before ++ (u, .put e aged, u') :: after) (hseq : 1 ≤ e.walSeq)
    (hlast : ∀ x ∈ after, Spares u.world.mems.active.id e.key x.1 x.2.1)
    (hvisible : ∃ x ∈ (u, .put e aged, u') :: after, ∃ mt ∈ x.2.2.live, mt.id = u.world.mems.active.id ∧
      ∃ e', mt.map[e.key]? = some e' ∧ e'.commitVersion ≠ ⊤) :
    (∃ mt ∈ s.live, ∃ e', mt.map[e.key]? = some e' ∧ e'.SameWrite e ∧ e'.commitVersion ≠ ⊤) ∨ s.Uploaded c e := by
  subst hhist
  obtain ⟨u₀, hbefore, hrest⟩ := hrun.of_append
  obtain ⟨rfl, hput, hafter⟩ := hrest.cons_inv
  simp only at hput hafter
  generalize hid : u.world.mems.active.id = id at hlast hvisible
  have hsound : u.Sound := (hbefore.invariant (I := Sound) (C := fun _ _ => True) (.of_start w)
    (fun _ _ _ h _ hstep => h.step hstep) fun _ _ => trivial).1
  have hput' : u'.Sound ∧ u'.Only id e := ⟨hsound.step hput, hid ▸ .of_put hsound hput⟩
  -- until the entry is visible, its memtable has no other entry under the key
  have honly : ∀ front v, Run (FlushOp.step c) u' front v → (∀ x ∈ front, Spares id e.key x.1 x.2.1) →
      v.Sound ∧ v.Only id e := fun front v hfront hspared =>
    (hfront.invariant (I := fun s => s.Sound ∧ s.Only id e) (C := Spares id e.key) hput'
      (fun _ _ _ h hspares hstep => ⟨h.1.step hstep, h.2.step hspares hstep⟩) hspared).1
  -- from then on it is kept
  have hkept : ∀ back v, Run (FlushOp.step c) v back s → (∀ x ∈ back, Spares id e.key x.1 x.2.1) → v.Sound → v.Shown id e →
      s.Shown id e ∨ s.Uploaded c e := fun back v hback hspared hv hshown =>
    (hback.invariant (I := fun s => s.Sound ∧ (s.Shown id e ∨ s.Uploaded c e)) (C := Spares id e.key) ⟨hv, .inl hshown⟩
      (fun _ _ _ h hspares hstep => ⟨h.1.step hstep, kept_step h.1 hseq hspares hstep h.2⟩) hspared).1.2
  obtain ⟨x, hx, mt, hmt, hmtid, e', he', hev⟩ := hvisible
  have hend : s.Shown id e ∨ s.Uploaded c e := by
    rcases List.mem_cons.1 hx with rfl | hx
    · exact hkept after u' hafter hlast hput'.1 ⟨mt, hmt, hmtid, e', he', hput'.2 mt hmt hmtid e' he', hev⟩
    · obtain ⟨front, back, rfl, hfront, hback⟩ := hafter.split_of_mem hx
      have hspared : ∀ y ∈ front ++ [x], Spares id e.key y.1 y.2.1 := by
        intro y hy
        refine hlast y ?_
        rcases List.mem_append.1 hy with hy | hy
        · exact List.mem_append_left _ hy
        · exact List.mem_append_right _ (List.mem_singleton.1 hy ▸ List.mem_cons_self)
      obtain ⟨hv, hvonly⟩ := honly (front ++ [x]) x.2.2 (hfront.snoc (hafter.step_of_mem x hx)) hspared
      exact hkept back x.2.2 hback (fun y hy => hlast y (by simp [hy])) hv
        ⟨mt, hmt, hmtid, e', he', hvonly mt hmt hmtid e' he', hev⟩
  rcases hend with ⟨mt', hmt', -, hshown⟩ | huploaded
  · exact .inl ⟨mt', hmt', hshown⟩
  · exact .inr huploaded

/-- The flush of a visible entry fails after the upload, and succeeds under a second chunk id. -/
theorem committed_entry_kept_retried : ∃ hist s, Run (FlushOp.step .stored) (.start {}) hist s ∧ s.batch = [] ∧
    s.world.mems.queued = [] ∧
    ((∃ mt ∈ s.live, ∃ e', mt.map[(sampleWrite 1 [1]).key]? = some e' ∧ e'.SameWrite (sampleWrite 1 [1]) ∧
      e'.commitVersion ≠ ⊤) ∨ s.Uploaded .stored (sampleWrite 1 [1])) := by
  obtain ⟨u, v, s, hrun, hend⟩ := Run.exists_middle_of_exec (FlushOp.step .stored) (.start {}) []
    (.put (sampleWrite 1 [1]) true)
    [.takeImmutables, .failFlush "a" 0 [sampleWrite 1 [1]] 1, .takeImmutables, .flush "b" 0 [sampleWrite 1 [1]]]
    (fun _ s => s.batch.isEmpty && s.world.mems.queued = []) (by decide +kernel)
  simp only [Bool.and_eq_true, List.isEmpty_iff, decide_eq_true_eq] at hend
  refine ⟨_, s, hrun, hend.1, hend.2, committed_entry_kept hrun rfl (le_refl 1) ?_ ?_⟩
  · intro x hx entry aged hop
    have hmem := label_mem_of_mem_history hx
    rw [hop] at hmem
    simp at hmem
  · have hput : (FlushOp.put (sampleWrite 1 [1]) true).step .stored u = some v :=
      hrun.step_of_mem (u, .put (sampleWrite 1 [1]) true, v) (by simp)
    obtain rfl := Option.some.inj hput
    refine ⟨_, List.mem_cons_self, _, FlushLoop.mem_live_of_put true (.inl rfl), rfl, sampleWrite 1 [1], ?_, ?_⟩
    · simp [MemTable.putInvisible]
    · exact WithTop.coe_ne_top

end Xtable

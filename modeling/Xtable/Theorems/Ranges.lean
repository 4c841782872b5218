import Xtable.Tx.Site
import Xtable.Theorems.Archive
import Xtable.Theorems.Reservations

/-! A memtable counts in every version that it shows, and the row of a chunk takes its range from the memtable, or
    from the entries that a rebuild has decoded. The range holds the versions of the object, as long as no put comes
    after the flush has read it. -/

namespace Xtable

open Rebuild

variable {c : Codecs} {mt : MemTable}

/-! ## Rows and the objects they lead to -/

/-- What readers decode from a file. -/
def Stores (c : Codecs) (file : Bytes) (es : List ChunkEntry) : Prop :=
  ∃ body, decompressBody c file = .ok body ∧ ∀ n, decodeBodyEntries c body n = .ok es

theorem Stores.unique {file : Bytes} {es es' : List ChunkEntry} (h : Stores c file es) (h' : Stores c file es') :
    es = es' := by
  obtain ⟨body, hbody, hentries⟩ := h
  obtain ⟨body', hbody', hentries'⟩ := h'
  cases hbody.symm.trans hbody'
  exact Except.ok.inj ((hentries 0).symm.trans (hentries' 0))

namespace ChunkIndexEntry

/-- The versions of the entries are in the range of the row. -/
def Covers (row : ChunkIndexEntry) (es : List ChunkEntry) : Prop :=
  ∀ e ∈ es, row.commitVersionMin ≤ (e.commitVersion.toNat : WithTop Nat) ∧ e.commitVersion.toNat ≤ row.commitVersionMax

/-- The row leads to an object that has entries, all of them in its range. -/
def Bounds (c : Codecs) (bucket : Table String Bytes) (row : ChunkIndexEntry) : Prop :=
  ∃ file es, bucket[row.s3Key]? = some file ∧ Stores c file es ∧ es ≠ [] ∧ row.Covers es

theorem Covers.least_le {row : ChunkIndexEntry} {es : List ChunkEntry} (h : row.Covers es) (hne : es ≠ [])
    (hwidth : row.commitVersionMax < 2 ^ 64) :
    UInt64.ofNat (row.commitVersionMin.untopD (2 ^ 64 - 1)) ≤ UInt64.ofNat row.commitVersionMax := by
  obtain ⟨e, he⟩ := List.exists_mem_of_ne_nil es hne
  obtain ⟨hmin, hmax⟩ := h e he
  obtain ⟨lo, hlo⟩ := WithTop.ne_top_iff_exists.1 (ne_top_of_le_ne_top WithTop.coe_ne_top hmin)
  rw [← hlo] at hmin ⊢
  have hle : lo ≤ row.commitVersionMax := (WithTop.coe_le_coe.1 hmin).trans hmax
  rw [WithTop.untopD_coe, UInt64.le_iff_toNat_le, UInt64.toNat_ofNat_of_lt' (hle.trans_lt hwidth),
    UInt64.toNat_ofNat_of_lt' hwidth]
  exact hle

theorem Bounds.insert {bucket : Table String Bytes} {row : ChunkIndexEntry} {name : String} {file : Bytes}
    (h : row.Bounds c bucket) (hname : bucket[name]? = none) : row.Bounds c (bucket.insert name file) := by
  obtain ⟨file', es, hobject, hrest⟩ := h
  refine ⟨file', es, ?_, hrest⟩
  have hne : name ≠ row.s3Key := by
    rintro rfl
    rw [hname] at hobject
    cases hobject
  simpa [hne] using hobject

end ChunkIndexEntry

theorem MemTable.Built.covers {chunkId : String} {entries : List MemEntry} (h : mt.Built)
    (hperm : entries.Perm mt.entries) (hfits : Flush.Fits c chunkId entries) (file : Bytes) (header : ChunkHeader)
    (footer : ChunkFooter) :
    (Flush.indexEntry c chunkId mt file header footer).Covers (entries.filterMap Flush.chunkEntry) := by
  intro e he
  obtain ⟨m, hm, hversion⟩ := h.uploads hperm hfits he
  exact h.range hm hversion

theorem Rebuild.Chunk.covers (ch : Chunk) : ch.indexEntry.Covers ch.entries := fun e he =>
  ⟨(foldl_min_le (fun e : ChunkEntry => (e.commitVersion.toNat : WithTop Nat)) ch.entries ⊤).2 e he,
    (foldl_max_spec (fun e : ChunkEntry => e.commitVersion.toNat) ch.entries 0).2.1 e he⟩

/-! ## A flush in progress -/

/-- What is left of a flush: all of it, under a fresh name; the row, once the object is there; or actions that file
nothing. -/
inductive Filing (c : Codecs) (bucket : Table String Bytes) : Server Unit → Prop where
  | upload {chunkId : String} {file : Bytes} {es : List ChunkEntry} {row : ChunkIndexEntry} {rest : Server Unit}
      (hname : bucket[row.s3Key]? = none) (hfile : Stores c file es) (hne : es ≠ []) (hcovers : row.Covers es)
      (hrest : rest.Only fun a => a.files = false) :
      Filing c bucket (.act (.putObject row.s3Key file) fun _ => .act (.putChunkIndex chunkId row) fun _ => rest)
  | index {chunkId : String} {row : ChunkIndexEntry} {rest : Server Unit} (hrow : row.Bounds c bucket)
      (hrest : rest.Only fun a => a.files = false) : Filing c bucket (.act (.putChunkIndex chunkId row) fun _ => rest)
  | rest {p : Server Unit} (hp : p.Only fun a => a.files = false) : Filing c bucket p

theorem updateRecordIndexAfterFlush_spares (chunkId : String) (entries : List MemEntry) :
    (Flush.updateRecordIndexAfterFlush chunkId entries).Only fun a => a.files = false := by
  refine Prog.Only.forEach fun e _ => ?_
  split
  · trivial
  · exact Prog.Only.perform rfl fun _ => trivial

theorem Filing.of_flushOne {w : World} {chunkId : String} {entries : List MemEntry} (hzstd : c.Unzips)
    (hbuilt : mt.Built) (hperm : entries.Perm mt.entries) (hfits : Flush.Fits c chunkId entries)
    (hfresh : w.freshChunkId chunkId = true) (nowMs : Int64) :
    Filing c w.bucket (Flush.flushOne c chunkId nowMs entries mt) := by
  unfold Flush.flushOne
  split
  · exact .rest trivial
  split
  · exact .rest trivial
  · exact .rest trivial
  case h_3 file header footer hfile =>
    have hfileOf := Flush.chunkFile_some hfile
    have hne : entries.filterMap Flush.chunkEntry ≠ [] := by
      obtain ⟨e, he, -⟩ := hfileOf
      exact List.ne_nil_of_mem (List.mem_of_mem_head? he)
    have hdecodes := hfileOf.decodes hzstd hfits.chunkId hfits.fields hfits.footer
    obtain ⟨-, -, hobjects⟩ := World.freshChunkId_spec (c := c) hfresh
    have hcovers := hbuilt.covers hperm hfits file header footer
    refine .upload (hobjects header) ⟨_, (hdecodes 0).1, fun n => (hdecodes n).2⟩ hne hcovers ?_
    refine (updateRecordIndexAfterFlush_spares chunkId entries).bind fun _ => ?_
    refine Prog.Only.perform rfl fun _ => ?_
    refine Prog.Only.perform rfl fun _ => ?_
    exact Prog.Only.perform rfl fun _ => trivial

/-! ## Steps -/

theorem World.exec_spares {a : Act} (ha : a.files = false) (w : World) :
    (w.exec a).2.bucket = w.bucket ∧ (w.exec a).2.store.chunkIndex = w.store.chunkIndex := by
  cases a
  case putObject | putChunkIndex => cases ha
  case unregisterSnapshot snapshot =>
    refine ⟨rfl, ?_⟩
    change (w.store.unregisterSnapshot snapshot).chunkIndex = _
    unfold Store.unregisterSnapshot
    dsimp only
    split <;> rfl
  case compareAndSetTxnStatus t expected next =>
    rcases World.exec_compareAndSet w t expected next with ⟨r, -, -, heq⟩ | ⟨-, heq⟩ <;> rw [heq] <;> exact ⟨rfl, rfl⟩
  case appendChainEntriesBulk entries =>
    refine ⟨rfl, ?_⟩
    change (w.store.appendChainEntriesBulk entries).2.chunkIndex = _
    unfold Store.appendChainEntriesBulk
    split <;> rfl
  all_goals exact ⟨rfl, rfl⟩

/-- The memtables of the set have been filled by puts and publications. -/
def MemTableSet.Built (m : MemTableSet) : Prop := ∀ mt ∈ m.active :: m.flushing, mt.Built

theorem MemTableSet.Built.rotate {m : MemTableSet} (h : m.Built) : m.rotate.Built := by
  intro mt hmt
  rcases List.mem_cons.1 hmt with rfl | hmt
  · exact .new _
  rcases List.mem_append.1 hmt with hmt | hmt
  · exact h mt (List.mem_cons_of_mem _ hmt)
  · obtain rfl := List.mem_singleton.1 hmt
    exact h _ List.mem_cons_self

theorem MemTableSet.Built.putInvisible {m : MemTableSet} (h : m.Built) (e : MemEntry) (aged : Bool) :
    (m.putInvisible e aged).Built := by
  have hput : MemTableSet.Built { m with active := m.active.putInvisible e } := by
    intro mt hmt
    rcases List.mem_cons.1 hmt with rfl | hmt
    · exact .put (h _ List.mem_cons_self) e
    · exact h mt (List.mem_cons_of_mem _ hmt)
  unfold MemTableSet.putInvisible
  simp only
  split
  · exact hput.rotate
  · exact hput

theorem MemTableSet.Built.publish {m : MemTableSet} (h : m.Built) (key : RecordKey) (v : Nat) : (m.publish key v).Built := by
  intro mt hmt
  rcases List.mem_cons.1 hmt with rfl | hmt
  · exact .publish (h _ List.mem_cons_self) key v
  · obtain ⟨mt', hmt', rfl⟩ := List.mem_map.1 hmt
    exact .publish (h mt' (List.mem_cons_of_mem _ hmt')) key v

theorem World.exec_built (a : Act) {w : World} (h : w.mems.Built) : (w.exec a).2.mems.Built := by
  cases a
  case memPutInvisible e aged => exact h.putInvisible e aged
  case memPublish key v => exact h.publish key v
  all_goals exact h

namespace Daemon

/-- The memtables of a process are built, the objects have entries, and the rows bound them; so will the row of the
flush in progress. -/
structure Ranged (c : Codecs) (d : Daemon) : Prop where
  mems : d.pool.state.mems.Built
  taken : ∀ mt ∈ d.taken, mt.Built
  flushing : ∀ mt p, d.flushing = some (mt, p) → mt.Built ∧ Filing c d.pool.state.bucket p
  objects : ∀ (name : String) file, d.pool.state.bucket[name]? = some file → ∃ es, es ≠ [] ∧ Stores c file es
  rows : ∀ (chunkId : String) row, d.pool.state.store.chunkIndex[chunkId]? = some row → row.Bounds c d.pool.state.bucket

namespace Ranged

variable {env : Env} {c : Codecs} {d d' : Daemon}

theorem start : Ranged c {} where
  mems mt hmt := by
    obtain rfl := List.mem_singleton.1 hmt
    exact .new 0
  taken := nofun
  flushing := nofun
  objects name file hfile := by simp [Pool.idle] at hfile
  rows chunkId row hrow := by simp [Pool.idle] at hrow

theorem started (h : d.Ranged c) {s : Store}
    (hrows : ∀ (chunkId : String) row, s.chunkIndex[chunkId]? = some row → row.Bounds c d.pool.state.bucket) :
    Ranged c (started { d.pool.state with store := s }) where
  mems := (start (c := c)).mems
  taken := nofun
  flushing := nofun
  objects := h.objects
  rows := hrows

theorem act (h : d.Ranged c) {a : Act} (ha : a.files = false) : Ranged c (d.setState (d.pool.state.exec a).2) where
  mems := World.exec_built a h.mems
  taken := h.taken
  flushing mt p hp := by
    obtain ⟨hbuilt, hfiling⟩ := h.flushing mt p hp
    refine ⟨hbuilt, ?_⟩
    simpa only [setState, (World.exec_spares ha d.pool.state).1] using hfiling
  objects name file hfile := h.objects name file (by simpa only [setState, (World.exec_spares ha d.pool.state).1] using hfile)
  rows chunkId row hrow := by
    simp only [setState, (World.exec_spares ha d.pool.state).1, (World.exec_spares ha d.pool.state).2] at hrow ⊢
    exact h.rows chunkId row hrow

theorem moved (h : d.Ranged c) (hbucket : d'.pool.state.bucket = d.pool.state.bucket)
    (hrows : d'.pool.state.store.chunkIndex = d.pool.state.store.chunkIndex) (hmems : d'.pool.state.mems.Built)
    (htaken : ∀ mt ∈ d'.taken, mt.Built) (hflushing : d'.flushing = none ∨ d'.flushing = d.flushing) : d'.Ranged c where
  mems := hmems
  taken := htaken
  flushing mt p hp := by
    rcases hflushing with hnone | hsame
    · rw [hnone] at hp
      cases hp
    · rw [hbucket]
      exact h.flushing mt p (hsame ▸ hp)
  objects := hbucket ▸ h.objects
  rows := hbucket ▸ hrows ▸ h.rows

theorem pushBack (h : d.Ranged c) (hmt : mt.Built) : (d.pushBack mt).Ranged c := by
  refine h.moved rfl rfl (fun mt' hmt' => ?_) h.taken (.inl rfl)
  rcases List.mem_cons.1 hmt' with rfl | hmt'
  · exact h.mems _ List.mem_cons_self
  rcases List.mem_append.1 hmt' with hmt' | hmt'
  · exact h.mems mt' (List.mem_cons_of_mem _ hmt')
  · obtain rfl := List.mem_singleton.1 hmt'
    exact hmt

theorem flushAct (h : d.Ranged c) {a : Act} {k : a.Res → Server Unit} (hp : d.flushing = some (mt, .act a k)) :
    Ranged c { d.setState (d.pool.state.exec a).2 with flushing := some (mt, k (d.pool.state.exec a).1) } := by
  obtain ⟨hbuilt, hfiling⟩ := h.flushing mt _ hp
  cases hfiling with
  | @upload chunkId file es row rest hname hfile hne hcovers hrest =>
    have hbucket : (d.pool.state.bucket.insert row.s3Key file)[row.s3Key]? = some file := by simp
    refine ⟨h.mems, h.taken, fun mt' p' hp' => ?_, fun name file' hobject => ?_, fun id row' hrow => ?_⟩
    · obtain ⟨rfl, rfl⟩ := Prod.mk.inj (Option.some.inj hp')
      exact ⟨hbuilt, .index ⟨file, es, hbucket, hfile, hne, hcovers⟩ hrest⟩
    · simp only [setState, World.exec, Table.get_insert] at hobject
      split at hobject
      · cases hobject
        exact ⟨es, hne, hfile⟩
      · exact h.objects name file' hobject
    · exact (h.rows id row' hrow).insert hname
  | @index chunkId row rest hrow hrest =>
    refine ⟨h.mems, h.taken, fun mt' p' hp' => ?_, h.objects, fun id row' hrow' => ?_⟩
    · obtain ⟨rfl, rfl⟩ := Prod.mk.inj (Option.some.inj hp')
      exact ⟨hbuilt, .rest hrest⟩
    · simp only [setState, World.exec, World.setStore, Store.putChunkIndex, Table.get_insert] at hrow' ⊢
      split at hrow'
      · cases hrow'
        exact hrow
      · exact h.rows id row' hrow'
  | rest hrest =>
    have hact := h.act hrest.1
    refine ⟨hact.mems, hact.taken, fun mt' p' hp' => ?_, hact.objects, hact.rows⟩
    obtain ⟨rfl, rfl⟩ := Prod.mk.inj (Option.some.inj hp')
    exact ⟨hbuilt, .rest (hrest.2 _)⟩

theorem rebuilding (h : d.Ranged c) (listed : List ListedObject)
    (order : List (RecordKey × PerKey) → List (RecordKey × PerKey)) (n : Nat) (chunkId : String) (row : ChunkIndexEntry)
    (hrow : (rebuilding c listed order n d.pool.state).chunkIndex[chunkId]? = some row) : row.Bounds c d.pool.state.bucket := by
  unfold Daemon.rebuilding rebuild at hrow
  cases hscan : scanObjects c { objects := d.pool.state.bucket } listed with
  | error x =>
    simp only [hscan] at hrow
    cases n <;> exact h.rows chunkId row hrow
  | ok chunks =>
    simp only [hscan] at hrow
    have hchunks : ∀ ch ∈ chunks, ch.indexEntry.Bounds c d.pool.state.bucket := by
      intro ch hch
      obtain ⟨hall, rfl⟩ := scanObjects_eq_ok.1 hscan
      obtain ⟨lo, hlo, hch⟩ := List.mem_flatMap.1 hch
      obtain ⟨found, hfound⟩ := hall lo hlo
      rw [chunkAt, hfound] at hch
      obtain rfl := Option.mem_toList.1 hch
      obtain ⟨hname, file, body, hobject, hbody, hentries⟩ := scanObject_eq_some hfound
      have hstores : Stores c file ch.entries := ⟨body, hbody, hentries⟩
      obtain ⟨es, hne, hes⟩ := h.objects lo.key file hobject
      refine ⟨file, ch.entries, ?_, hstores, hstores.unique hes ▸ hne, ch.covers⟩
      rw [← hobject, ← hname]
      rfl
    refine persist_only.advance_keeps (h := RebuildAct.exec)
      (I := fun s => ∀ row, s.chunkIndex[chunkId]? = some row → row.Bounds c d.pool.state.bucket)
      (fun a s ha hs => ?_) (h.rows chunkId) n row hrow
    cases a with
    | putChunkIndex id entry =>
      intro row' hrow'
      obtain ⟨ch, hch, heq⟩ := List.mem_map.1 ha
      obtain ⟨rfl, rfl⟩ := Prod.mk.inj heq
      simp only [RebuildAct.exec, Store.putChunkIndex, Table.get_insert] at hrow'
      split at hrow'
      · cases hrow'
        exact hchunks ch hch
      · exact hs row' hrow'
    | putRecordIndex | putVersionsBulk | setGlobalVersion => exact hs
    | putRecordVersionsBulk updates =>
      have hframe : ∀ (updates : List (RecordKey × RecordIndexEntry × Bytes)) (s : Store),
          (s.putRecordVersionsBulk updates).chunkIndex = s.chunkIndex := by
        intro updates
        induction updates with
        | nil => exact fun _ => rfl
        | cons u updates ih => exact fun s => ih _
      simpa only [RebuildAct.exec, hframe] using hs
    | appendChainEntriesBulk entries =>
      simp only [RebuildAct.exec, Store.appendChainEntriesBulk]
      split <;> exact hs

end Ranged

end Daemon

/-! ## Runs -/

/-- No put comes late, and what is flushed fits the chunk format. -/
def SiteEvent.OnTime (c : Codecs) : SiteEvent → Prop
  | flushLate .. => False
  | loop (.flushOne chunkId _ entries) => Flush.Fits c chunkId entries
  | _ => True

theorem Daemon.Ranged.step {env : Env} {d d' : Daemon} {ev : SiteEvent} (hzstd : c.Unzips)
    (h : d.Ranged c) (hev : ev.OnTime c) (hstep : ev.step env c d = some d') : d'.Ranged c := by
  cases ev with
  | act a =>
    simp only [SiteEvent.step] at hstep
    split at hstep
    · cases hstep
    case isFalse ha =>
      cases hstep
      exact h.act (by simpa using ha)
  | flushLate => exact hev.elim
  | crash =>
    cases hstep
    exact h.started h.rows
  | loseStore =>
    cases hstep
    exact h.started fun chunkId row hrow => by simp at hrow
  | rebuild listed order n =>
    cases hstep
    exact h.started (h.rebuilding listed order n)
  | loop ev =>
    cases ev with
    | run ev | restart nowMs order => cases hstep
    | rotate =>
      cases hstep
      exact h.moved rfl rfl h.mems.rotate h.taken (.inr rfl)
    | takeImmutables =>
      simp only [SiteEvent.step, DaemonEvent.ofLoop, if_true, Daemon.step] at hstep
      split at hstep
      · cases hstep
        refine h.moved rfl rfl (fun mt hmt => ?_) (fun mt hmt => h.mems mt (List.mem_cons_of_mem _ hmt)) (.inr rfl)
        obtain rfl := List.mem_singleton.1 hmt
        exact h.mems _ List.mem_cons_self
      · cases hstep
    | flushOne chunkId nowMs entries =>
      simp only [SiteEvent.step, DaemonEvent.ofLoop, if_true, Daemon.step] at hstep
      split at hstep
      case h_1 mt rest hflushing htaken =>
        split at hstep
        · rename_i hcond
          cases hstep
          have hmt : mt.Built := h.taken mt (htaken ▸ List.mem_cons_self)
          refine ⟨h.mems, fun mt' hmt' => h.taken mt' (htaken ▸ List.mem_cons_of_mem _ hmt'), fun mt' p hp => ?_,
            h.objects, h.rows⟩
          obtain ⟨rfl, rfl⟩ := Prod.mk.inj (Option.some.inj hp)
          exact ⟨hmt, .of_flushOne hzstd hmt hcond.1 hev hcond.2 nowMs⟩
        · cases hstep
      · cases hstep
    | flushAct =>
      simp only [SiteEvent.step, DaemonEvent.ofLoop, if_true, Daemon.step] at hstep
      split at hstep
      case h_1 mt a k hp =>
        cases hstep
        exact h.flushAct hp
      · cases hstep
    | flushFault =>
      simp only [SiteEvent.step, DaemonEvent.ofLoop, if_true, Daemon.step] at hstep
      split at hstep
      case h_1 mt a k hp =>
        obtain ⟨hmt, -⟩ := h.flushing mt _ hp
        unfold Daemon.fault at hstep
        split at hstep
        case h_5 =>
          cases hstep
          refine ⟨h.mems, h.taken, fun mt' p hp' => ?_, h.objects, h.rows⟩
          obtain ⟨rfl, rfl⟩ := Prod.mk.inj (Option.some.inj hp')
          exact ⟨hmt, .rest trivial⟩
        case h_6 => cases hstep
        all_goals
          cases hstep
          exact h.pushBack hmt
      · cases hstep
    | flushEnd =>
      simp only [SiteEvent.step, DaemonEvent.ofLoop, if_true, Daemon.step] at hstep
      split at hstep
      · cases hstep
        exact h.moved rfl rfl h.mems h.taken (.inl rfl)
      case h_2 mt x hp =>
        cases hstep
        exact h.pushBack (h.flushing mt _ hp).1
      · cases hstep

theorem Daemon.Ranged.of_run {env : Env} {d : Daemon} {hist : List (Daemon × SiteEvent × Daemon)} (hzstd : c.Unzips)
    (hrun : Run (SiteEvent.step env c) {} hist d) (hev : ∀ x ∈ hist, x.2.1.OnTime c) : d.Ranged c :=
  (hrun.invariant (I := Daemon.Ranged c) (C := fun _ ev => ev.OnTime c) .start
    (fun _ _ _ hI hC hstep => hI.step hzstd hC hstep) hev).1

/-- The ranges of a memtable have the versions of its visible entries and the WAL sequences of all its entries. If no
put comes late and what is flushed fits the format, the row of a chunk that a record row leads to has the versions of
all entries in its object in its range, so that a read subtracts the lower end from the upper end without underflow.
-/
theorem ranges_bound_contents {c : Codecs}
    (hzstd : ∀ body compressed, c.zstdEncode body = .ok compressed → c.zstdDecode compressed = .ok body) :
    (∀ mt : MemTable, mt.Reached → ∀ e ∈ mt.entries,
      (∀ v : Nat, e.commitVersion = (v : WithTop Nat) → mt.versionMin ≤ (v : WithTop Nat) ∧ v ≤ mt.versionMax) ∧
      mt.earliestSeq ≤ (e.walSeq : WithTop Nat) ∧ e.walSeq ≤ mt.latestSeq) ∧
    (∀ env hist d, Run (SiteEvent.step env c) {} hist d → (∀ x ∈ hist, x.2.1.OnTime c) →
      ∀ idx chunk, Read.lookupChunkForRecord d.pool.state.store idx = some chunk →
        (chunk.commitVersionMax < 2 ^ 64 →
          UInt64.ofNat (chunk.commitVersionMin.untopD (2 ^ 64 - 1)) ≤ UInt64.ofNat chunk.commitVersionMax) ∧
        ∃ file es, d.pool.state.bucket[chunk.s3Key]? = some file ∧ Stores c file es ∧ chunk.Covers es) := by
  constructor
  · intro mt hmt e he
    obtain ⟨rk, hget⟩ := MemTable.mem_entries.1 he
    exact ⟨fun v hv => hmt.range hget hv, (hmt.entry hget).2⟩
  · intro env hist d hrun hev idx chunk hchunk
    obtain ⟨file, es, hobject, hstores, hne, hcovers⟩ := (Daemon.Ranged.of_run hzstd hrun hev).rows idx.chunkId chunk hchunk
    exact ⟨hcovers.least_le hne, file, es, hobject, hstores, hcovers⟩

def committedRow : Act :=
  .putRecordIndexWithBody ("s", "t", "r") ⟨1, false, "_xtable/s/t/r.json", 0, "T"⟩ "null" (utf8 "null")

def flushedRecord : List SiteEvent :=
  [.act .nextGlobalVersion, .act (.memPutInvisible (nullEntry 1) false), .act (.memPublish ("s", "t", "r") 1), .act committedRow,
    .loop .rotate, .loop .takeImmutables, .loop (.flushOne "c" 0 [nullEntry 1]), .loop .flushAct, .loop .flushAct, .loop .flushAct]

/-- The memtable rotates, empty, between the two halves of a put, and its flush begins before the put has counted in
its version. -/
def flushedLate : List SiteEvent :=
  [.act .nextGlobalVersion, .loop .rotate, .loop .takeImmutables, .flushLate "c" 0 [nullEntry 1] (nullEntry 1) true,
    .act committedRow, .loop .flushAct, .loop .flushAct, .loop .flushAct]

def Daemon.chunkOf (d : Daemon) : Option (ChunkIndexEntry × List Nat) := do
  let row ← d.pool.state.store.recordIndex[("s", "t", "r")]?
  let chunk ← Read.lookupChunkForRecord d.pool.state.store row.entry
  match scanObject .stored { objects := d.pool.state.bucket } ⟨chunk.s3Key, 0, ""⟩ with
  | .ok (some ch) => some (chunk, ch.entries.map (·.commitVersion.toNat))
  | _ => none

theorem Daemon.exists_chunkOf {d : Daemon} {p : ChunkIndexEntry × List Nat → Bool} (h : d.chunkOf.any p = true) :
    ∃ row chunk file es, d.pool.state.store.recordIndex[("s", "t", "r")]? = some row ∧
      Read.lookupChunkForRecord d.pool.state.store row.entry = some chunk ∧ d.pool.state.bucket[chunk.s3Key]? = some file ∧
      Stores .stored file es ∧ p (chunk, es.map (·.commitVersion.toNat)) = true := by
  obtain ⟨x, hx, hp⟩ := (Option.any_eq_true _ _).1 h
  simp only [chunkOf, Option.bind_eq_bind, Option.bind_eq_some_iff] at hx
  obtain ⟨row, hrow, chunk, hchunk, hx⟩ := hx
  split at hx
  case h_2 => cases hx
  case h_1 ch hscan =>
    cases hx
    obtain ⟨-, file, body, hobject, hbody, hentries⟩ := scanObject_eq_some hscan
    exact ⟨row, chunk, file, ch.entries, hrow, hchunk, hobject, ⟨body, hbody, hentries⟩, hp⟩

theorem ranges_bound_contents_flushed : ∃ hist d row chunk, Run (SiteEvent.step .sample .stored) {} hist d ∧
    (∀ x ∈ hist, x.2.1.OnTime .stored) ∧ d.pool.state.store.recordIndex[("s", "t", "r")]? = some row ∧
    Read.lookupChunkForRecord d.pool.state.store row.entry = some chunk ∧ chunk.commitVersionMax < 2 ^ 64 ∧
    UInt64.ofNat (chunk.commitVersionMin.untopD (2 ^ 64 - 1)) ≤ UInt64.ofNat chunk.commitVersionMax ∧
    ∃ file es, d.pool.state.bucket[chunk.s3Key]? = some file ∧ Stores .stored file es ∧ chunk.Covers es := by
  obtain ⟨d, hrun, htest⟩ := Run.exists_of_exec (SiteEvent.step .sample .stored) {} flushedRecord
    (fun d : Daemon => d.chunkOf.any fun x : ChunkIndexEntry × List Nat => decide (x.1.commitVersionMax < 2 ^ 64)) (by decide +kernel)
  obtain ⟨row, chunk, file, es, hrow, hchunk, -, -, hwidth⟩ := Daemon.exists_chunkOf htest
  have hev : ∀ x ∈ history (SiteEvent.step .sample .stored) flushedRecord {}, x.2.1.OnTime .stored := by
    intro x hx
    have hmem := label_mem_of_mem_history hx
    simp only [flushedRecord, List.mem_cons, List.not_mem_nil, or_false] at hmem
    rcases hmem with h | h | h | h | h | h | h | h | h | h <;> rw [h]
    case inr.inr.inr.inr.inr.inr.inl => exact nullEntry_fits (.inl rfl)
    all_goals trivial
  obtain ⟨hle, hcontents⟩ := (ranges_bound_contents Codecs.stored_lossless.zstd).2 .sample _ d hrun hev row.entry chunk hchunk
  have hwidth := of_decide_eq_true hwidth
  exact ⟨_, d, row, chunk, hrun, hev, hrow, hchunk, hwidth, hle hwidth, hcontents⟩

/-- A record whose put comes late: the range of its chunk is that of an empty memtable, so that the difference of its ends
underflows, and the version of the record is above it. -/
theorem ranges_miss_late_put : ∃ hist d row chunk, Run (SiteEvent.step .sample .stored) {} hist d ∧
    d.pool.state.store.recordIndex[("s", "t", "r")]? = some row ∧
    Read.lookupChunkForRecord d.pool.state.store row.entry = some chunk ∧ chunk.commitVersionMax < 2 ^ 64 ∧
    UInt64.ofNat chunk.commitVersionMax < UInt64.ofNat (chunk.commitVersionMin.untopD (2 ^ 64 - 1)) ∧
    ∃ file es e, d.pool.state.bucket[chunk.s3Key]? = some file ∧ Stores .stored file es ∧ e ∈ es ∧
      chunk.commitVersionMax < e.commitVersion.toNat := by
  obtain ⟨d, hrun, htest⟩ := Run.exists_of_exec (SiteEvent.step .sample .stored) {} flushedLate
    (fun d : Daemon => d.chunkOf.any fun x : ChunkIndexEntry × List Nat => decide (x.1.commitVersionMin = ⊤ ∧ x.1.commitVersionMax = 0 ∧ 1 ∈ x.2)) (by decide +kernel)
  obtain ⟨row, chunk, file, es, hrow, hchunk, hobject, hstores, htest⟩ := Daemon.exists_chunkOf htest
  obtain ⟨hmin, hmax, hone⟩ := of_decide_eq_true htest
  obtain ⟨e, he, hversion⟩ := List.mem_map.1 hone
  refine ⟨_, d, row, chunk, hrun, hrow, hchunk, ?_, ?_, file, es, e, hobject, hstores, he, ?_⟩
  · rw [hmax]
    decide
  · rw [hmin, hmax]
    decide
  · rw [hmax, hversion]
    decide

end Xtable

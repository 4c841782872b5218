import Xtable.Theorems.ChunkReads
import Xtable.Theorems.NodeRuns
import Xtable.Schema.Space

/-! A memtable takes the commits of all tables, and its chunk is named after whichever entry is met first. If every
    write finds only entries of its own table in the active memtable, each chunk is of one table. -/

namespace Xtable

open Coordinator

variable {env : Env} {c : Codecs} {w w' : World}

/-- A write finds only entries of its own table in the active memtable. -/
def MemTableSet.sameTable (m : MemTableSet) (rk : RecordKey) : Bool :=
  m.active.map.toList.all fun x => x.1.1 = rk.1 && x.1.2.1 = rk.2.1

/-- The entries of a memtable are of one table, under their own keys. -/
def MemTable.OneTable (mt : MemTable) : Prop :=
  ∃ space table, ∀ (rk : RecordKey) e, mt.map[rk]? = some e → e.key = rk ∧ rk.1 = space ∧ rk.2.1 = table

def MemTableSet.OneTable (m : MemTableSet) : Prop := ∀ mt ∈ m.active :: m.flushing, mt.OneTable

theorem MemTable.OneTable.publish {mt : MemTable} (h : mt.OneTable) (key : RecordKey) (v : Nat) : (mt.publish key v).OneTable := by
  obtain ⟨space, table, hof⟩ := h
  refine ⟨space, table, fun rk e he => ?_⟩
  rw [MemTableSet.get_publish] at he
  split at he
  case isTrue =>
    obtain ⟨e', he', rfl⟩ := Option.map_eq_some_iff.1 he
    exact hof rk e' he'
  case isFalse => exact hof rk e he

namespace MemTableSet.OneTable

variable {m : MemTableSet}

theorem rotate (h : m.OneTable) : m.rotate.OneTable := by
  intro mt hmt
  rcases List.mem_cons.1 hmt with rfl | hmt
  · exact ⟨"", "", fun rk e he => by simp [MemTableSet.rotate] at he⟩
  · rcases List.mem_append.1 hmt with hmt | hmt
    · exact h mt (List.mem_cons_of_mem _ hmt)
    · exact h mt (List.mem_singleton.1 hmt ▸ List.mem_cons_self)

theorem put (h : m.OneTable) {e : MemEntry} (htest : m.sameTable e.key = true) (aged : Bool) : (m.putInvisible e aged).OneTable := by
  have hactive : (m.active.putInvisible e).OneTable := by
    obtain ⟨space, table, hof⟩ := h m.active List.mem_cons_self
    refine ⟨e.key.1, e.key.2.1, fun rk e' he' => ?_⟩
    simp only [MemTable.putInvisible, Table.get_insert] at he'
    split at he'
    case isTrue hkey =>
      cases he'
      exact ⟨hkey, by rw [hkey], by rw [hkey]⟩
    case isFalse =>
      have hsame := List.all_eq_true.1 htest (rk, e') (Table.mem_toList.2 he')
      simp only [Bool.and_eq_true, decide_eq_true_eq] at hsame
      exact ⟨(hof rk e' he').1, hsame⟩
  have hput : ({ m with active := m.active.putInvisible e } : MemTableSet).OneTable := by
    intro mt hmt
    rcases List.mem_cons.1 hmt with rfl | hmt
    · exact hactive
    · exact h mt (List.mem_cons_of_mem _ hmt)
  unfold MemTableSet.putInvisible
  simp only
  split
  · exact hput.rotate
  · exact hput

theorem publish (h : m.OneTable) (key : RecordKey) (v : Nat) : (m.publish key v).OneTable := by
  intro mt hmt
  rcases List.mem_cons.1 hmt with rfl | hmt
  · exact (h m.active List.mem_cons_self).publish key v
  · obtain ⟨mt', hmt', rfl⟩ := List.mem_map.1 hmt
    exact (h mt' (List.mem_cons_of_mem _ hmt')).publish key v

theorem step {op : NodeOp} (h : w.mems.OneTable) (hs : Structured w) (htest : op.eachPut sameTable w = true)
    (hstep : NodeStep env c w op w') : w'.mems.OneTable := by
  refine hstep.mems_keep hs htest h (fun t row bodies aged _ m x _ hm hx => ?_) (fun hm => hm.rotate) fun queue hqueue => ?_
  · have hkey : m.sameTable (memEntry t (w.nextVersion row) bodies x.1 x.2).key = true := hx
    exact (hm.put hkey (aged x.1)).publish _ _
  · intro mt hmt
    rcases List.mem_cons.1 hmt with rfl | hmt
    · exact h _ List.mem_cons_self
    · exact h mt (List.mem_cons_of_mem _ (hqueue mt hmt))

end MemTableSet.OneTable

/-- What a chunk says of its table: in its header, in its row and in its object key. -/
structure Flush.OfTable (c : Codecs) (chunkId : String) (mt : MemTable) (file : Bytes) (header : ChunkHeader) (footer : ChunkFooter)
    (space table : String) : Prop where
  stated : header.space = space ∧ header.table = table
  row : (indexEntry c chunkId mt file header footer).space = space ∧ (indexEntry c chunkId mt file header footer).table = table
  object : (indexEntry c chunkId mt file header footer).s3Key = "_xtable/" ++ space ++ "/" ++ table ++ "/" ++
    toString (computeShard c header.keyMin) ++ "/" ++ chunkId ++ ".xtc"

theorem MemTable.OneTable.chunk {mt : MemTable} (h : mt.OneTable) {entries : List MemEntry} (hperm : entries.Perm mt.entries)
    {chunkId : String} {nowMs : Int64} {file : Bytes} {header : ChunkHeader} {footer : ChunkFooter}
    (hfile : Flush.chunkFile c chunkId nowMs entries = .ok (some (file, header, footer))) {ce : ChunkEntry}
    (hce : ce ∈ entries.filterMap Flush.chunkEntry) : Flush.OfTable c chunkId mt file header footer ce.space ce.table := by
  obtain ⟨space, table, hof⟩ := h
  have hentry : ∀ ce ∈ entries.filterMap Flush.chunkEntry, ce.space = space ∧ ce.table = table := by
    intro ce hce
    obtain ⟨e, he, hchunk⟩ := List.mem_filterMap.1 hce
    obtain ⟨rk, hget⟩ := MemTable.mem_entries.1 (hperm.mem_iff.1 he)
    obtain ⟨hkey, hspace, htable⟩ := hof rk e hget
    obtain ⟨v, -, rfl⟩ := Flush.chunkEntry_eq_some hchunk
    exact ⟨hkey ▸ hspace, hkey ▸ htable⟩
  -- the first entry names the chunk
  obtain ⟨e₀, he₀, compressed, footerBytes, hfinal⟩ := Flush.chunkFile_some hfile
  obtain ⟨hspace₀, htable₀⟩ := hentry e₀ (List.mem_of_mem_head? he₀)
  obtain ⟨hspace, htable⟩ := hentry ce hce
  have hheader : header.space = ce.space ∧ header.table = ce.table :=
    ⟨hfinal.space.trans (hspace₀.trans hspace.symm), hfinal.table.trans (htable₀.trans htable.symm)⟩
  exact ⟨hheader, hheader, by rw [Flush.indexEntry, Flush.s3Key, hheader.1, hheader.2]⟩

/-- A chunk belongs to one table, in every run in which a write finds only entries of its own table in the active
memtable. -/
theorem chunks_hold_one_table (env : Env) (c : Codecs) {hist : List (World × NodeOp × World)} {w : World}
    (hrun : Run (NodeOp.step env c) {} hist w) (hwhole : ∀ x ∈ hist, x.2.1.whole = true)
    (htables : ∀ x ∈ hist, x.2.1.eachPut MemTableSet.sameTable x.1 = true) {mt : MemTable}
    (hmt : mt ∈ w.mems.active :: w.mems.flushing) {entries : List MemEntry} (hperm : entries.Perm mt.entries)
    {chunkId : String} {nowMs : Int64} {file : Bytes} {header : ChunkHeader} {footer : ChunkFooter}
    (hfile : Flush.chunkFile c chunkId nowMs entries = .ok (some (file, header, footer))) :
    ∀ ce ∈ entries.filterMap Flush.chunkEntry, Flush.OfTable c chunkId mt file header footer ce.space ce.table := by
  have hempty : MemTableSet.OneTable {} := by
    intro mt hmt
    obtain rfl := List.mem_singleton.1 hmt
    exact ⟨"", "", fun rk e he => by simp at he⟩
  obtain ⟨⟨-, hone⟩, -⟩ := hrun.invariant (I := fun w => Orderly w ∧ w.mems.OneTable)
    (C := fun w (op : NodeOp) => op.whole = true ∧ op.eachPut MemTableSet.sameTable w = true) ⟨.empty, hempty⟩
    (fun w op w' hw hop hstep =>
      ⟨hw.1.step (.of_step hop.1 hstep), hw.2.step hw.1.structured hop.2 (NodeStep.of_step hop.1 hstep)⟩)
    fun x hx => ⟨hwhole x hx, htables x hx⟩
  exact fun ce hce => (hone mt hmt).chunk hperm hfile hce

def writeTables (tables : List String) : List NodeOp :=
  .request (.call (.begin "T" none 0)) :: tables.map (fun t => .request (.upsertRecord "T" "s" t "r" none .null)) ++
    [.request (.commitTxn "T" fun _ => false), .rotate]

theorem chunks_hold_one_table_single : ∃ hist w, Run (NodeOp.step .sample .stored) {} hist w ∧
    ∃ mt ∈ w.mems.flushing, ∃ file header footer,
      Flush.chunkFile .stored "c" 0 mt.entries = .ok (some (file, header, footer)) ∧
      ∃ ce ∈ mt.entries.filterMap Flush.chunkEntry, ce.table = "a" ∧
        Flush.OfTable .stored "c" mt file header footer ce.space ce.table := by
  obtain ⟨w, hrun, htest⟩ := Run.exists_of_exec (guarded (fun w op => op.whole && op.eachPut MemTableSet.sameTable w)
    (NodeOp.step .sample .stored)) {} (writeTables ["a"])
    (fun w => w.mems.flushing.any fun mt => (mt.entries.filterMap Flush.chunkEntry).any (·.table = "a") &&
      ((Flush.chunkFile .stored "c" 0 mt.entries).toOption.bind id).any fun _ => true) (by decide +kernel)
  obtain ⟨hrun, hguard⟩ := hrun.of_guarded
  obtain ⟨mt, hmt, htest⟩ := List.any_eq_true.1 htest
  obtain ⟨hentry, hsome⟩ := Bool.and_eq_true_iff.1 htest
  obtain ⟨ce, hce, htable⟩ := List.any_eq_true.1 hentry
  obtain ⟨⟨file, header, footer⟩, hok, -⟩ := Flush.chunkFile_of_any hsome
  have hcond := fun x hx => Bool.and_eq_true_iff.1 (hguard x hx)
  exact ⟨_, w, hrun, mt, hmt, file, header, footer, hok, ce, hce, of_decide_eq_true htable,
    chunks_hold_one_table .sample .stored hrun (fun x hx => (hcond x hx).1) (fun x hx => (hcond x hx).2)
      (List.mem_cons_of_mem _ hmt) (.refl _) hok ce hce⟩

/-- A commit to two tables is flushed to one chunk, under the name of one of them. -/
theorem chunk_mixes_tables : ∃ hist w, Run (NodeOp.step .sample .stored) {} hist w ∧ (∀ x ∈ hist, x.2.1.whole = true) ∧
    ∃ mt ∈ w.mems.flushing, ∃ file header footer,
      Flush.chunkFile .stored "c" 0 mt.entries = .ok (some (file, header, footer)) ∧ header.table = "a" ∧
      (Flush.indexEntry .stored "c" mt file header footer).table = "a" ∧
      ∃ ce ∈ mt.entries.filterMap Flush.chunkEntry, ce.table = "b" := by
  obtain ⟨w, hrun, htest⟩ := Run.exists_of_exec (guarded (fun _ op => op.whole) (NodeOp.step .sample .stored)) {}
    (writeTables ["a", "b"]) (fun w => w.mems.flushing.any fun mt =>
      (mt.entries.filterMap Flush.chunkEntry).any (·.table = "b") &&
      ((Flush.chunkFile .stored "c" 0 mt.entries).toOption.bind id).any (·.2.1.table = "a")) (by decide +kernel)
  obtain ⟨hrun, hwhole⟩ := hrun.of_guarded
  obtain ⟨mt, hmt, htest⟩ := List.any_eq_true.1 htest
  obtain ⟨hentry, hsome⟩ := Bool.and_eq_true_iff.1 htest
  obtain ⟨ce, hce, htable⟩ := List.any_eq_true.1 hentry
  obtain ⟨⟨file, header, footer⟩, hok, hheader⟩ := Flush.chunkFile_of_any hsome
  have hheader : header.table = "a" := of_decide_eq_true hheader
  exact ⟨_, w, hrun, hwhole, mt, hmt, file, header, footer, hok, hheader, hheader, ce, hce, of_decide_eq_true htable⟩

end Xtable

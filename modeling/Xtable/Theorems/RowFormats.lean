import Xtable.Schema.Space
import Xtable.Storage.Rows

/-! A row with a body is the bytes of its entry and those of the body's text, so an entry reads back from either
    shape. The rows of `Store` are what the bytes stand for: each function of the record tables does the same to
    both. -/

namespace Xtable

/-! ## The record tables of a store -/

namespace Store

def replaces (t : Store) (rk : RecordKey) (version : Nat) : Bool :=
  match t.recordIndex[rk]? with
  | none => true
  | some current => decide (current.entry.commitVersion ≤ version)

theorem putRecordIndexWithBody_eq (t : Store) (rk : RecordKey) (entry : RecordIndexEntry) (bodyJson : String) (body : Bytes) :
    t.putRecordIndexWithBody rk entry bodyJson body =
      putRecordVersion (if t.replaces rk entry.commitVersion then
        { t with recordIndex := t.recordIndex.insert rk ⟨entry, bodyJson⟩ } else t) rk entry body := by
  have hdef : t.putRecordIndexWithBody rk entry bodyJson body =
      { t with
        recordIndex := if t.replaces rk entry.commitVersion then t.recordIndex.insert rk ⟨entry, bodyJson⟩ else t.recordIndex
        recordVersions := t.recordVersions.insert (rk, entry.commitVersion) ⟨entry, body⟩ } := rfl
  rw [hdef]
  split <;> rfl

/-- The part of an update that is about the latest row. -/
def pointLatest (t : Store) (rk : RecordKey) (commitVersion : Nat) (newChunkId : String) : Bool × Store :=
  match t.recordIndex[rk]? with
  | some stored =>
    if stored.entry.commitVersion = commitVersion then
      (true, { t with recordIndex := t.recordIndex.insert rk { stored with entry := { stored.entry with chunkId := newChunkId } } })
    else (false, t)
  | none => (false, t)

/-- The part of an update that is about the row of the version. -/
def pointVersion (t : Store) (rk : RecordKey) (commitVersion : Nat) (newChunkId : String) : Bool × Store :=
  match t.recordVersions[(rk, commitVersion)]? with
  | some stored =>
    (true, { t with recordVersions :=
      t.recordVersions.insert (rk, commitVersion) { stored with entry := { stored.entry with chunkId := newChunkId } } })
  | none => (false, t)

theorem updateRecordIndexChunkIdForVersion_eq (t : Store) (rk : RecordKey) (commitVersion : Nat) (newChunkId : String) :
    t.updateRecordIndexChunkIdForVersion rk commitVersion newChunkId =
      ((t.pointLatest rk commitVersion newChunkId).1 ||
        ((t.pointLatest rk commitVersion newChunkId).2.pointVersion rk commitVersion newChunkId).1,
        ((t.pointLatest rk commitVersion newChunkId).2.pointVersion rk commitVersion newChunkId).2) := by
  have hversions : (t.pointLatest rk commitVersion newChunkId).2.recordVersions = t.recordVersions := by
    unfold pointLatest
    split
    · split <;> rfl
    · rfl
  unfold pointVersion
  rw [hversions]
  unfold updateRecordIndexChunkIdForVersion pointLatest
  cases t.recordIndex[rk]? with
  | none => cases t.recordVersions[(rk, commitVersion)]? <;> rfl
  | some stored =>
    by_cases hv : stored.entry.commitVersion = commitVersion <;>
      cases t.recordVersions[(rk, commitVersion)]? <;> simp [hv]

end Store

namespace Rows

open Bincode (Blob Text Codec)

/-! ## Rows -/

/-- A latest row, in one of its shapes. -/
inductive Row where
  | stored (r : StoredRecord)
  | bare (e : RecordIndexEntry)

namespace Row

def bytes : Row → Bytes
  | stored r => StoredRecord.codec.serialize r
  | bare e => RecordIndexEntry.codec.serialize e

def entry : Row → RecordIndexEntry
  | stored r => r.entry
  | bare e => e

def pointedAt (chunkId : Text) : Row → Row
  | stored r => stored { r with entry := { r.entry with chunkId := chunkId } }
  | bare e => bare { e with chunkId := chunkId }

@[simp] theorem deserialize_entry (row : Row) : RecordIndexEntry.codec.deserialize row.bytes = .ok row.entry := by
  cases row with
  | stored r => exact RecordIndexEntry.codec.deserialize_append r.entry (Codec.text.serialize r.bodyJson)
  | bare e => exact RecordIndexEntry.codec.deserialize_serialize e

@[simp] theorem deserialize_stored (r : StoredRecord) : StoredRecord.codec.deserialize (stored r).bytes = .ok r :=
  StoredRecord.codec.deserialize_serialize r

@[simp] theorem deserialize_bare (e : RecordIndexEntry) : StoredRecord.codec.deserialize (bare e).bytes = .error .eof := by
  rw [StoredRecord.codec, Codec.iso_deserialize, bytes, Codec.prod_deserialize_front _ Codec.text_asks]
  rfl

end Row

/-! ## What the bytes stand for -/

/-- An entry as `Store` has it. -/
def RecordIndexEntry.model (e : RecordIndexEntry) : Xtable.RecordIndexEntry :=
  ⟨e.commitVersion.toNat, e.deleted, e.chunkId.1, e.schemaVersion.toNat, e.txnId.1⟩

def StoredRecordVersion.model (r : StoredRecordVersion) : Xtable.StoredRecordVersion := ⟨r.entry.model, r.body.1⟩

def StoredRecordVersion.pointedAt (chunkId : Text) (r : StoredRecordVersion) : StoredRecordVersion :=
  { r with entry := { r.entry with chunkId := chunkId } }

/-- A row without a body stands for one with an empty text. -/
def Row.model : Row → Xtable.StoredRecord
  | stored r => ⟨r.entry.model, r.bodyJson.1⟩
  | bare e => ⟨e.model, ""⟩

@[simp] theorem Row.model_entry (row : Row) : row.model.entry = row.entry.model := by
  cases row <;> rfl

theorem Row.model_pointedAt (row : Row) (chunkId : Text) : (row.pointedAt chunkId).model =
    { row.model with entry := { row.model.entry with chunkId := chunkId.1 } } := by
  cases row <;> rfl

/-! ## One row -/

section Point

variable {j : Serde} {s : RowStore} {rk : RecordKey} {v : UInt64} {id : Text}

theorem pointLatest_none (hs : s.recordIndex[rk]? = none) : s.pointLatest rk v id = .ok (false, s) := by
  unfold RowStore.pointLatest
  rw [hs]

theorem pointLatest_row {row : Row} (hs : s.recordIndex[rk]? = some row.bytes) :
    s.pointLatest rk v id = .ok (if row.entry.commitVersion = v then
      (true, { s with recordIndex := s.recordIndex.insert rk (row.pointedAt id).bytes }) else (false, s)) := by
  unfold RowStore.pointLatest
  rw [hs]
  cases row with
  | stored r =>
    by_cases hv : r.entry.commitVersion = v <;> simp [Row.entry, Row.pointedAt, Row.bytes, hv]
  | bare e =>
    by_cases hv : e.commitVersion = v <;> simp [Row.entry, Row.pointedAt, hv]
    rfl

theorem pointVersion_none (hs : s.recordVersions[(rk, v.toNat)]? = none) : s.pointVersion j rk v id = .ok (false, s) := by
  unfold RowStore.pointVersion
  rw [hs]

theorem pointVersion_row {r : StoredRecordVersion}
    (hs : s.recordVersions[(rk, v.toNat)]? = some (StoredRecordVersion.codec.serialize r)) :
    s.pointVersion j rk v id = .ok (true, { s with
      recordVersions := s.recordVersions.insert (rk, v.toNat) (StoredRecordVersion.codec.serialize (r.pointedAt id)) }) := by
  unfold RowStore.pointVersion
  rw [hs]
  simp [Serde.decode, StoredRecordVersion.pointedAt, bind, Except.bind, pure, Except.pure]

theorem update_of_parts {a b : Bool} {s₁ s₂ : RowStore} (hlatest : s.pointLatest rk v id = .ok (a, s₁))
    (hversion : s₁.pointVersion j rk v id = .ok (b, s₂)) :
    s.updateRecordIndexChunkIdForVersion j rk v id = .ok (a || b, s₂) := by
  simp [RowStore.updateRecordIndexChunkIdForVersion, hlatest, hversion, bind, Except.bind, pure, Except.pure]

theorem getRecordIndex_row {row : Row} (hs : s.recordIndex[rk]? = some row.bytes) :
    s.getRecordIndex j rk = .ok (some row.entry) := by
  simp [RowStore.getRecordIndex, hs, Serde.decode, bind, Except.bind, pure, Except.pure]

end Point

/-! ## All rows -/

/-- The tables of bytes stand for the record tables of a store: both are made of the same rows. -/
structure RowStore.Models (s : RowStore) (t : Store) : Prop where
  latest : ∃ rows : Table RecordKey Row,
    s.recordIndex = rows.map (fun _ => Row.bytes) ∧ t.recordIndex = rows.map (fun _ => Row.model)
  versions : ∃ rows : Table (RecordKey × Nat) StoredRecordVersion,
    s.recordVersions = rows.map (fun _ => StoredRecordVersion.codec.serialize) ∧
      t.recordVersions = rows.map (fun _ => StoredRecordVersion.model)

namespace RowStore.Models

variable {j : Serde} {s s' : RowStore} {t t' : Store} {rk : RecordKey} {entry : RecordIndexEntry}

theorem latest_row (h : s.Models t) (rk : RecordKey) :
    ∃ row : Option Row, s.recordIndex[rk]? = row.map Row.bytes ∧ t.recordIndex[rk]? = row.map Row.model := by
  obtain ⟨rows, hs, ht⟩ := h.latest
  exact ⟨rows[rk]?, by simp [hs], by simp [ht]⟩

theorem version_row (h : s.Models t) (k : RecordKey × Nat) :
    ∃ r : Option StoredRecordVersion, s.recordVersions[k]? = r.map StoredRecordVersion.codec.serialize ∧
      t.recordVersions[k]? = r.map StoredRecordVersion.model := by
  obtain ⟨rows, hs, ht⟩ := h.versions
  exact ⟨rows[k]?, by simp [hs], by simp [ht]⟩

/-! ## Writes -/

theorem empty : Models {} {} :=
  ⟨⟨∅, Std.ExtTreeMap.ext_getElem? (by simp), Std.ExtTreeMap.ext_getElem? (by simp)⟩,
    ⟨∅, Std.ExtTreeMap.ext_getElem? (by simp), Std.ExtTreeMap.ext_getElem? (by simp)⟩⟩

section

variable (h : s.Models t)

include h

theorem setLatest (rk : RecordKey) (row : Row) : Models { s with recordIndex := s.recordIndex.insert rk row.bytes }
    { t with recordIndex := t.recordIndex.insert rk row.model } := by
  obtain ⟨rows, hs, ht⟩ := h.latest
  exact ⟨⟨rows.insert rk row, by rw [hs, Table.map_insert], by rw [ht, Table.map_insert]⟩, h.versions⟩

theorem setVersion (k : RecordKey × Nat) (r : StoredRecordVersion) :
    Models { s with recordVersions := s.recordVersions.insert k (StoredRecordVersion.codec.serialize r) }
      { t with recordVersions := t.recordVersions.insert k r.model } := by
  obtain ⟨rows, hs, ht⟩ := h.versions
  exact ⟨h.latest, ⟨rows.insert k r, by rw [hs, Table.map_insert], by rw [ht, Table.map_insert]⟩⟩

theorem putRecordIndex (rk : RecordKey) (entry : RecordIndexEntry) :
    (s.putRecordIndex rk entry).Models (t.putRecordIndex rk entry.model) := h.setLatest rk (.bare entry)

theorem putRecordVersion (rk : RecordKey) (entry : RecordIndexEntry) (body : Blob) :
    (s.putRecordVersion rk entry body).Models (t.putRecordVersion rk entry.model body.1) :=
  h.setVersion (rk, entry.commitVersion.toNat) ⟨entry, body⟩

theorem putRecordVersionsBulk (updates : List (RecordKey × RecordIndexEntry × Blob)) :
    (s.putRecordVersionsBulk updates).Models
      (t.putRecordVersionsBulk (updates.map fun u => (u.1, u.2.1.model, u.2.2.1))) := by
  induction updates generalizing s t with
  | nil => exact h
  | cons u updates ih => exact ih (h.putRecordVersion u.1 u.2.1 u.2.2)

theorem replaceLatest (rk : RecordKey) (entry : RecordIndexEntry) :
    s.replaceLatest rk entry = .ok (t.replaces rk entry.model.commitVersion) := by
  obtain ⟨row, hs, ht⟩ := h.latest_row rk
  unfold RowStore.replaceLatest Store.replaces
  rw [hs, ht]
  cases row with
  | none => rfl
  | some row =>
    have hversion : currentVersion row.bytes = .ok row.entry.commitVersion := by
      cases row <;> simp [currentVersion, Row.entry]
    simp [hversion, bind, Except.bind, pure, Except.pure, RecordIndexEntry.model, UInt64.le_iff_toNat_le]

theorem putRecordIndexWithBody (rk : RecordKey) (entry : RecordIndexEntry) (body : Value) :
    ∃ s', s.putRecordIndexWithBody j rk entry body = .ok s' ∧
      s'.Models (t.putRecordIndexWithBody rk entry.model (j.toText body).1 (utf8 (j.toText body).1)) := by
  rw [Store.putRecordIndexWithBody_eq, RowStore.putRecordIndexWithBody, h.replaceLatest rk entry]
  cases t.replaces rk entry.model.commitVersion with
  | false => exact ⟨_, rfl, h.putRecordVersion rk entry (j.toVec body)⟩
  | true => exact ⟨_, rfl, (h.setLatest rk (.stored ⟨entry, j.toText body⟩)).putRecordVersion rk entry (j.toVec body)⟩

theorem pointLatest (rk : RecordKey) (v : UInt64) (id : Text) :
    ∃ s', s.pointLatest rk v id = .ok ((t.pointLatest rk v.toNat id.1).1, s') ∧
      s'.Models (t.pointLatest rk v.toNat id.1).2 := by
  obtain ⟨row, hs, ht⟩ := h.latest_row rk
  unfold Store.pointLatest
  rw [ht]
  cases row with
  | none => exact ⟨s, pointLatest_none hs, h⟩
  | some row =>
    rw [pointLatest_row hs]
    have hiff : row.model.entry.commitVersion = v.toNat ↔ row.entry.commitVersion = v := by
      rw [Row.model_entry, ← UInt64.toNat_inj]
      rfl
    by_cases hv : row.entry.commitVersion = v
    · simp only [Option.map_some, hiff, hv, if_true]
      refine ⟨_, rfl, ?_⟩
      rw [← Row.model_pointedAt]
      exact h.setLatest rk (row.pointedAt id)
    · simp only [Option.map_some, hiff, hv, if_false]
      exact ⟨s, rfl, h⟩

theorem pointVersion (rk : RecordKey) (v : UInt64) (id : Text) :
    ∃ s', s.pointVersion j rk v id = .ok ((t.pointVersion rk v.toNat id.1).1, s') ∧
      s'.Models (t.pointVersion rk v.toNat id.1).2 := by
  obtain ⟨r, hs, ht⟩ := h.version_row (rk, v.toNat)
  unfold Store.pointVersion
  rw [ht]
  cases r with
  | none => exact ⟨s, pointVersion_none hs, h⟩
  | some r => exact ⟨_, pointVersion_row hs, h.setVersion (rk, v.toNat) (r.pointedAt id)⟩

theorem updateRecordIndexChunkIdForVersion (rk : RecordKey) (v : UInt64) (id : Text) :
    ∃ s', s.updateRecordIndexChunkIdForVersion j rk v id = .ok ((t.updateRecordIndexChunkIdForVersion rk v.toNat id.1).1, s') ∧
      s'.Models (t.updateRecordIndexChunkIdForVersion rk v.toNat id.1).2 := by
  obtain ⟨s₁, hlatest, h₁⟩ := h.pointLatest rk v id
  obtain ⟨s₂, hversion, h₂⟩ := h₁.pointVersion rk v id
  rw [Store.updateRecordIndexChunkIdForVersion_eq]
  exact ⟨s₂, update_of_parts hlatest hversion, h₂⟩

theorem deleteRecordIndex (rk : RecordKey) :
    (s.deleteRecordIndex rk).Models { t with recordIndex := t.recordIndex.erase rk } := by
  obtain ⟨rows, hs, ht⟩ := h.latest
  exact ⟨⟨rows.erase rk, by rw [RowStore.deleteRecordIndex, hs, Table.map_erase], by rw [ht, Table.map_erase]⟩, h.versions⟩

theorem eraseRecordVersions (keys : List (RecordKey × Nat)) : ∃ t', (s.eraseRecordVersions keys).Models t' := by
  induction keys generalizing s t with
  | nil => exact ⟨t, h⟩
  | cons k keys ih =>
    obtain ⟨rows, hs, ht⟩ := h.versions
    have hone : Models { s with recordVersions := s.recordVersions.erase k }
        { t with recordVersions := t.recordVersions.erase k } :=
      ⟨h.latest, ⟨rows.erase k, by rw [hs, Table.map_erase], by rw [ht, Table.map_erase]⟩⟩
    exact ih hone

theorem run (op : RowOp) : ∃ s' t', op.run j s = .ok s' ∧ s'.Models t' := by
  cases op with
  | putRecordIndex rk entry => exact ⟨_, _, rfl, h.putRecordIndex rk entry⟩
  | putRecordIndexWithBody rk entry body =>
    obtain ⟨s', hs', h'⟩ := h.putRecordIndexWithBody (j := j) rk entry body
    exact ⟨s', _, hs', h'⟩
  | putRecordVersion rk entry body => exact ⟨_, _, rfl, h.putRecordVersion rk entry body⟩
  | putRecordVersionsBulk updates => exact ⟨_, _, rfl, h.putRecordVersionsBulk updates⟩
  | updateRecordIndexChunkIdForVersion rk v id =>
    obtain ⟨s', hs', h'⟩ := h.updateRecordIndexChunkIdForVersion (j := j) rk v id
    exact ⟨s', _, by rw [RowOp.run, hs']; rfl, h'⟩
  | deleteRecordIndex rk => exact ⟨_, _, rfl, h.deleteRecordIndex rk⟩
  | eraseRecordVersions keys =>
    obtain ⟨t', h'⟩ := h.eraseRecordVersions keys
    exact ⟨_, t', rfl, h'⟩

end

theorem of_run {hist : List (RowStore × RowOp × RowStore)} (hrun : Run (RowOp.step j) {} hist s) : ∃ t, s.Models t := by
  induction hrun with
  | nil => exact ⟨_, empty⟩
  | snoc _ hstep ih =>
    obtain ⟨t, ht⟩ := ih
    obtain ⟨s', t', hs', h'⟩ := ht.run (j := j) _
    rw [RowOp.step, hs'] at hstep
    cases hstep
    exact ⟨t', h'⟩

/-! ## Reads -/

theorem iterRecordIndex_rows (h : s.Models t) (space table : String) :
    ∃ rows : Table RecordKey Row, s.recordIndex = rows.map (fun _ => Row.bytes) ∧
      t.recordIndex = rows.map (fun _ => Row.model) ∧
      s.iterRecordIndex j space table =
        .ok ((rows.toList.filter fun x => x.1.1 = space && x.1.2.1 = table).map fun x => (x.1.2.2, x.2.entry)) := by
  obtain ⟨rows, hs, ht⟩ := h.latest
  refine ⟨rows, hs, ht, ?_⟩
  have hlist : s.recordIndex.toList = rows.toList.map fun x => (x.1, x.2.bytes) := by
    rw [hs, Std.ExtTreeMap.toList_map]
  have hdecode : ∀ l : List (RecordKey × Row),
      (l.map fun x => (x.1, x.2.bytes)).mapM (fun x => do return (x.1.2.2, ← j.decode RecordIndexEntry.codec x.2)) =
        (.ok (l.map fun x => (x.1.2.2, x.2.entry)) : Except XtableError _) := by
    intro l
    induction l with
    | nil => rfl
    | cons x l ih =>
      have hx : j.decode RecordIndexEntry.codec x.2.bytes = .ok x.2.entry := by simp [Serde.decode]
      rw [List.map_cons, List.mapM_cons, ih, hx]
      rfl
  -- the keys of one table are in the order of their record ids
  have hsorted : ((rows.toList.filter fun x => x.1.1 = space && x.1.2.1 = table).map
      fun x => (x.1.2.2, x.2.entry)).Pairwise fun a b => a.1 ≤ b.1 := by
    have hkeys : rows.toList.Pairwise fun a b => compare a.1 b.1 = .lt := Std.ExtTreeMap.ordered_keys_toList
    rw [List.pairwise_map]
    refine (hkeys.filter _).imp_of_mem fun {a b} ha hb hlt => ?_
    have ha' : a.1.1 = space ∧ a.1.2.1 = table := by simpa using (List.mem_filter.1 ha).2
    have hb' : b.1.1 = space ∧ b.1.2.1 = table := by simpa using (List.mem_filter.1 hb).2
    obtain ⟨⟨space₁, table₁, rid₁⟩, row₁⟩ := a
    obtain ⟨⟨space₂, table₂, rid₂⟩, row₂⟩ := b
    obtain ⟨rfl, rfl⟩ := ha'
    obtain ⟨rfl, rfl⟩ := hb'
    rw [compare_pair, compare_pair] at hlt
    exact (compare_lt_iff_lt.1 hlt).le
  unfold RowStore.iterRecordIndex
  simp only [hlist, List.filter_map]
  rw [show ((fun x : RecordKey × Bytes => decide (x.1.1 = space) && decide (x.1.2.1 = table)) ∘
    fun x : RecordKey × Row => (x.1, x.2.bytes)) = fun x => x.1.1 = space && x.1.2.1 = table from rfl, hdecode]
  exact congrArg Except.ok hsorted.insertionSort_eq

end RowStore.Models

/-! ## Rows of a run -/

/-- The text of the body is read back. -/
structure Serde.RoundTrips (j : Serde) (body : Value) : Prop where
  text : (j.toText body).1 ≠ ""
  back : j.fromStr (j.toText body).1 = .ok body

/-- The three readers of latest rows find the entry and the body under the key. -/
structure RowStore.Finds (j : Serde) (s : RowStore) (rk : RecordKey) (e : RecordIndexEntry) (body : Value) : Prop where
  entry : s.getRecordIndex j rk = .ok (some e)
  listed : ∃ rows, s.iterRecordIndex j rk.1 rk.2.1 = .ok rows ∧ ∀ e', (rk.2.2, e') ∈ rows ↔ e' = e
  withBody : s.getRecordIndexWithBody j rk = .ok (some (e, body))

variable {j : Serde} {s : RowStore} {t : Store} {rk : RecordKey}

theorem RowStore.Models.listed (h : s.Models t) {row : Row} (hrow : s.recordIndex[rk]? = some row.bytes) :
    ∃ rows, s.iterRecordIndex j rk.1 rk.2.1 = .ok rows ∧ ∀ e', (rk.2.2, e') ∈ rows ↔ e' = row.entry := by
  obtain ⟨rows, hs, -, hiter⟩ := h.iterRecordIndex_rows (j := j) rk.1 rk.2.1
  obtain ⟨row', hget, hbytes⟩ : ∃ row', rows[rk]? = some row' ∧ row'.bytes = row.bytes := by
    simpa [hs] using hrow
  have hentry : row'.entry = row.entry := by
    have hread := row.deserialize_entry
    rw [← hbytes, row'.deserialize_entry] at hread
    exact Except.ok.inj hread
  refine ⟨_, hiter, fun e' => ?_⟩
  simp only [List.mem_map, List.mem_filter, Bool.and_eq_true, decide_eq_true_eq, Prod.mk.injEq]
  constructor
  · rintro ⟨x, ⟨hx, hspace, htable⟩, hrid, rfl⟩
    have hkey : x.1 = rk := Prod.ext hspace (Prod.ext htable hrid)
    have hmem : rows[x.1]? = some x.2 := Table.mem_toList.1 hx
    rw [hkey, hget] at hmem
    rw [← Option.some.inj hmem, hentry]
  · rintro rfl
    exact ⟨(rk, row'), ⟨Table.mem_toList.2 hget, rfl, rfl⟩, rfl, hentry⟩

theorem RowStore.Models.finds_stored (h : s.Models t) {e : RecordIndexEntry} {body : Value} (hbody : j.RoundTrips body)
    (hrow : s.recordIndex[rk]? = some (Row.stored ⟨e, j.toText body⟩).bytes) : s.Finds j rk e body := by
  refine ⟨getRecordIndex_row hrow, h.listed hrow, ?_⟩
  simp [RowStore.getRecordIndexWithBody, hrow, hbody.text, hbody.back]

theorem RowStore.Models.finds_bare (h : s.Models t) {e : RecordIndexEntry}
    (hrow : s.recordIndex[rk]? = some (Row.bare e).bytes) : s.Finds j rk e .null := by
  refine ⟨getRecordIndex_row hrow, h.listed hrow, ?_⟩
  simp [RowStore.getRecordIndexWithBody, hrow, Row.entry]

theorem RowStore.Models.update_effect (h : s.Models t) {row : Row} (hrow : s.recordIndex[rk]? = some row.bytes) (v : UInt64)
    (id : Text) : ∃ found s', s.updateRecordIndexChunkIdForVersion j rk v id = .ok (found, s') ∧
      s'.recordIndex = s.recordIndex.insert rk (if row.entry.commitVersion = v then row.pointedAt id else row).bytes ∧
      (s'.recordVersions = s.recordVersions ∧ s.recordVersions[(rk, v.toNat)]? = none ∨
        ∃ r, s.recordVersions[(rk, v.toNat)]? = some (StoredRecordVersion.codec.serialize r) ∧
          s'.recordVersions =
            s.recordVersions.insert (rk, v.toNat) (StoredRecordVersion.codec.serialize (r.pointedAt id))) := by
  -- a row that is not the version is written as it was
  obtain ⟨a, s₁, hlatest, hindex, hversions⟩ : ∃ a s₁, s.pointLatest rk v id = .ok (a, s₁) ∧
      s₁.recordIndex = s.recordIndex.insert rk (if row.entry.commitVersion = v then row.pointedAt id else row).bytes ∧
      s₁.recordVersions = s.recordVersions := by
    rw [pointLatest_row hrow]
    by_cases hv : row.entry.commitVersion = v
    · simp only [hv, if_true]
      exact ⟨_, _, rfl, rfl, rfl⟩
    · simp only [hv, if_false]
      exact ⟨_, _, rfl, (Table.insert_self hrow).symm, rfl⟩
  obtain ⟨r, hr, -⟩ := h.version_row (rk, v.toNat)
  cases r with
  | none =>
    have hnone : s₁.recordVersions[(rk, v.toNat)]? = none := by rw [hversions, hr]; rfl
    exact ⟨_, s₁, update_of_parts hlatest (pointVersion_none hnone), hindex, .inl ⟨hversions, hr⟩⟩
  | some r =>
    have hsome : s₁.recordVersions[(rk, v.toNat)]? = some (StoredRecordVersion.codec.serialize r) := by rw [hversions, hr]; rfl
    exact ⟨_, _, update_of_parts hlatest (pointVersion_row hsome), hindex, .inr ⟨r, hr, by rw [hversions]⟩⟩

theorem RowStore.Models.written (h : s.Models t) (rk : RecordKey) (e : RecordIndexEntry) (body : Value) :
    ∃ s', s.putRecordIndexWithBody j rk e body = .ok s' ∧
      (s'.recordIndex[rk]? = some (StoredRecord.codec.serialize ⟨e, j.toText body⟩) ∨
        s'.recordIndex = s.recordIndex ∧
          ∃ row : Row, s.recordIndex[rk]? = some row.bytes ∧ e.commitVersion < row.entry.commitVersion) := by
  rw [RowStore.putRecordIndexWithBody, h.replaceLatest rk e]
  cases hreplaces : t.replaces rk e.model.commitVersion with
  | true => exact ⟨_, rfl, .inl (by simp [RowStore.putRecordVersion])⟩
  | false =>
    refine ⟨_, rfl, .inr ⟨by simp [RowStore.putRecordVersion], ?_⟩⟩
    obtain ⟨row, hs, ht⟩ := h.latest_row rk
    unfold Store.replaces at hreplaces
    rw [ht] at hreplaces
    cases row with
    | none => cases hreplaces
    | some row =>
      refine ⟨row, hs, UInt64.lt_iff_toNat_lt.2 ?_⟩
      simpa [RecordIndexEntry.model] using hreplaces

/-- In every state of the record tables, each write stores its shape; a row with a body is found with both, and a row
without one, which never decodes as the longer shape, with its entry and no body; pointing a version at a chunk keeps
the shape of its rows and all of their fields but the chunk id. -/
theorem row_shapes_unconfused {hist : List (RowStore × RowOp × RowStore)} (hrun : Run (RowOp.step j) {} hist s) (rk : RecordKey)
    (e : RecordIndexEntry) :
    (s.putRecordIndex rk e).recordIndex[rk]? = some (RecordIndexEntry.codec.serialize e) ∧
    (∀ body, ∃ s', s.putRecordIndexWithBody j rk e body = .ok s' ∧
      (s'.recordIndex[rk]? = some (StoredRecord.codec.serialize ⟨e, j.toText body⟩) ∨
        s'.recordIndex = s.recordIndex ∧
          ∃ row : Row, s.recordIndex[rk]? = some row.bytes ∧ e.commitVersion < row.entry.commitVersion)) ∧
    (∀ body, j.RoundTrips body →
      s.recordIndex[rk]? = some (StoredRecord.codec.serialize ⟨e, j.toText body⟩) → s.Finds j rk e body) ∧
    (s.recordIndex[rk]? = some (RecordIndexEntry.codec.serialize e) →
      (∀ r, StoredRecord.codec.deserialize (RecordIndexEntry.codec.serialize e) ≠ .ok r) ∧ s.Finds j rk e .null) ∧
    (∀ row : Row, s.recordIndex[rk]? = some row.bytes → ∀ v id,
      ∃ found s', s.updateRecordIndexChunkIdForVersion j rk v id = .ok (found, s') ∧
        s'.recordIndex = s.recordIndex.insert rk (if row.entry.commitVersion = v then row.pointedAt id else row).bytes ∧
        (s'.recordVersions = s.recordVersions ∧ s.recordVersions[(rk, v.toNat)]? = none ∨
          ∃ r, s.recordVersions[(rk, v.toNat)]? = some (StoredRecordVersion.codec.serialize r) ∧
            s'.recordVersions =
              s.recordVersions.insert (rk, v.toNat) (StoredRecordVersion.codec.serialize (r.pointedAt id)))) := by
  obtain ⟨t, h⟩ := RowStore.Models.of_run hrun
  refine ⟨by simp [RowStore.putRecordIndex], h.written rk e, fun body hbody hrow => h.finds_stored hbody hrow,
    fun hrow => ⟨?_, h.finds_bare hrow⟩, fun row hrow v id => h.update_effect hrow v id⟩
  intro r hr
  have hbare : StoredRecord.codec.deserialize (RecordIndexEntry.codec.serialize e) = .error .eof := Row.deserialize_bare e
  rw [hbare] at hr
  cases hr

/-- Two rows of one table, one of each shape. -/
theorem row_shapes_unconfused_two : ∃ (j : Serde) (hist : List (RowStore × RowOp × RowStore)) (s : RowStore) (e : RecordIndexEntry),
    Run (RowOp.step j) {} hist s ∧ j.RoundTrips (.bool true) ∧
      s.recordIndex[("s", "t", "1")]? = some (StoredRecord.codec.serialize ⟨e, j.toText (.bool true)⟩) ∧
      s.recordIndex[("s", "t", "2")]? = some (RecordIndexEntry.codec.serialize e) ∧
      s.Finds j ("s", "t", "1") e (.bool true) ∧ s.Finds j ("s", "t", "2") e .null := by
  let j : Serde := ⟨fun _ => ⟨"true", by decide⟩, fun _ => .ok (.bool true), fun _ => ""⟩
  let e : RecordIndexEntry := ⟨7, false, ⟨"spaces/s", by decide⟩, 1, ⟨"txn", by decide⟩, 0⟩
  have hbody : j.RoundTrips (.bool true) := ⟨by decide, rfl⟩
  obtain ⟨s, hput, hrow⟩ := RowStore.Models.empty.written (j := j) ("s", "t", "1") e (.bool true)
  have hfirst : s.recordIndex[("s", "t", "1")]? = some (StoredRecord.codec.serialize ⟨e, j.toText (.bool true)⟩) := by
    rcases hrow with hrow | ⟨-, row, hnone, -⟩
    · exact hrow
    · simp at hnone
  have hstep : RowOp.step j (.putRecordIndexWithBody ("s", "t", "1") e (.bool true)) {} = some s := by
    rw [RowOp.step, RowOp.run, hput]
    rfl
  have hrun := (Run.nil.snoc hstep).snoc
    (show RowOp.step j (.putRecordIndex ("s", "t", "2") e) s = some (s.putRecordIndex ("s", "t", "2") e) from rfl)
  have hone : (s.putRecordIndex ("s", "t", "2") e).recordIndex[("s", "t", "1")]? =
      some (StoredRecord.codec.serialize ⟨e, j.toText (.bool true)⟩) := by
    simp [RowStore.putRecordIndex, hfirst]
  have htwo : (s.putRecordIndex ("s", "t", "2") e).recordIndex[("s", "t", "2")]? = some (RecordIndexEntry.codec.serialize e) := by
    simp [RowStore.putRecordIndex]
  exact ⟨j, _, _, e, hrun, hbody, hone, htwo, (row_shapes_unconfused hrun ("s", "t", "1") e).2.2.1 _ hbody hone,
    ((row_shapes_unconfused hrun ("s", "t", "2") e).2.2.2.1 htwo).2⟩

end Rows

end Xtable

import Xtable.Storage.Store

/-! The commit of a version puts its row, and the flush of a memtable points that row at a chunk. As long as a row
    is put before it is moved, the order does not matter. -/

namespace Xtable

/-- A call that changes the rows of one record. `body` is written as JSON text, to both tables. -/
inductive RowCall where
  | put (entry : RecordIndexEntry) (bodyJson : String)
  | move (commitVersion : Nat) (chunkId : String)
  deriving DecidableEq

namespace RowCall

def version : RowCall → Nat
  | put entry _ => entry.commitVersion
  | move commitVersion _ => commitVersion

def apply (rk : RecordKey) (s : Store) : RowCall → Store
  | put entry bodyJson => s.putRecordIndexWithBody rk entry bodyJson (utf8 bodyJson)
  | move commitVersion chunkId => (s.updateRecordIndexChunkIdForVersion rk commitVersion chunkId).2

/-- What a call makes of the row of its version. -/
def onRow (row : Option StoredRecordVersion) : RowCall → Option StoredRecordVersion
  | put entry bodyJson => some ⟨entry, utf8 bodyJson⟩
  | move _ chunkId => row.map fun r => { r with entry := { r.entry with chunkId := chunkId } }

variable {rk rk' : RecordKey} {s : Store}

theorem apply_recordVersions (c : RowCall) (rk : RecordKey) (s : Store) :
    (c.apply rk s).recordVersions[(rk, c.version)]? = c.onRow s.recordVersions[(rk, c.version)]? := by
  cases c with
  | put entry bodyJson => simp [apply, Store.putRecordIndexWithBody, version, onRow]
  | move u chunkId =>
    simp only [apply, Store.updateRecordIndexChunkIdForVersion, version, onRow]
    cases hrow : s.recordVersions[(rk, u)]? <;> simp [hrow]

theorem apply_recordVersions_of_ne (c : RowCall) {v : Nat} (hne : (rk, c.version) ≠ (rk', v)) :
    (c.apply rk s).recordVersions[(rk', v)]? = s.recordVersions[(rk', v)]? := by
  cases c with
  | put entry bodyJson =>
    have hne : (rk, entry.commitVersion) ≠ (rk', v) := hne
    simp [apply, Store.putRecordIndexWithBody, hne]
  | move u chunkId =>
    have hne : (rk, u) ≠ (rk', v) := hne
    simp only [apply, Store.updateRecordIndexChunkIdForVersion]
    cases hrow : s.recordVersions[(rk, u)]? <;> simp [hne]

theorem apply_recordIndex_of_ne (c : RowCall) (hne : rk ≠ rk') : (c.apply rk s).recordIndex[rk']? = s.recordIndex[rk']? := by
  cases c with
  | put entry bodyJson =>
    simp only [apply, Store.putRecordIndexWithBody]
    split
    · simp [hne]
    · split <;> simp [hne]
  | move u chunkId =>
    simp only [apply, Store.updateRecordIndexChunkIdForVersion]
    split
    · split <;> simp [hne]
    · rfl

theorem apply_rest (c : RowCall) (rk : RecordKey) (s : Store) : c.apply rk s =
    { s with recordIndex := (c.apply rk s).recordIndex, recordVersions := (c.apply rk s).recordVersions } := by
  cases c <;> rfl

end RowCall

theorem utf8_injective : Function.Injective utf8 := by
  intro a b h
  have hdata : a.toUTF8.data = b.toUTF8.data := Array.toList_inj.1 h
  exact String.toByteArray_inj.1 (ByteArray.ext hdata)

/-- The index row of a record is that of its newest version. -/
structure Store.Indexed (s : Store) (rk : RecordKey) : Prop where
  absent : s.recordIndex[rk]? = none → ∀ v : Nat, s.recordVersions[(rk, v)]? = none
  row : ∀ r, s.recordIndex[rk]? = some r → s.recordVersions[(rk, r.entry.commitVersion)]? = some ⟨r.entry, utf8 r.bodyJson⟩
  newest : ∀ r, s.recordIndex[rk]? = some r → ∀ (v : Nat) row, s.recordVersions[(rk, v)]? = some row → v ≤ r.entry.commitVersion

namespace Store.Indexed

variable {s : Store} {rk : RecordKey}

theorem put (h : s.Indexed rk) (entry : RecordIndexEntry) (bodyJson : String) :
    ((RowCall.put entry bodyJson).apply rk s).Indexed rk := by
  have hrows : ∀ v : Nat, ((RowCall.put entry bodyJson).apply rk s).recordVersions[(rk, v)]? =
      if entry.commitVersion = v then some ⟨entry, utf8 bodyJson⟩ else s.recordVersions[(rk, v)]? := fun v => by
    simp [RowCall.apply, Store.putRecordIndexWithBody]
  by_cases hkept : ∃ r, s.recordIndex[rk]? = some r ∧ entry.commitVersion < r.entry.commitVersion
  · -- an older version leaves the index row as it is
    obtain ⟨r, hr, hlt⟩ := hkept
    have hindex : ((RowCall.put entry bodyJson).apply rk s).recordIndex[rk]? = some r := by
      simp [RowCall.apply, Store.putRecordIndexWithBody, hr, not_le.2 hlt]
    refine ⟨fun hnone => ?_, fun r' hr' => ?_, fun r' hr' v row hrow => ?_⟩
    · rw [hindex] at hnone
      cases hnone
    · cases hindex.symm.trans hr'
      rw [hrows, if_neg hlt.ne]
      exact h.row r hr
    · cases hindex.symm.trans hr'
      rw [hrows] at hrow
      split at hrow
      case isTrue heq => exact heq ▸ hlt.le
      case isFalse => exact h.newest r hr v row hrow
  · have hindex : ((RowCall.put entry bodyJson).apply rk s).recordIndex[rk]? = some ⟨entry, bodyJson⟩ := by
      simp only [RowCall.apply, Store.putRecordIndexWithBody]
      cases hr : s.recordIndex[rk]? with
      | none => simp
      | some r =>
        have hle : r.entry.commitVersion ≤ entry.commitVersion := not_lt.1 fun hlt => hkept ⟨r, hr, hlt⟩
        simp [hle]
    refine ⟨fun hnone => ?_, fun r' hr' => ?_, fun r' hr' v row hrow => ?_⟩
    · rw [hindex] at hnone
      cases hnone
    · cases hindex.symm.trans hr'
      rw [hrows, if_pos rfl]
    · cases hindex.symm.trans hr'
      rw [hrows] at hrow
      split at hrow
      case isTrue heq => exact heq.ge
      case isFalse =>
        cases hr : s.recordIndex[rk]? with
        | none => simp [h.absent hr v] at hrow
        | some r => exact (h.newest r hr v row hrow).trans (not_lt.1 fun hlt => hkept ⟨r, hr, hlt⟩)

theorem move (h : s.Indexed rk) (u : Nat) (chunkId : String) : ((RowCall.move u chunkId).apply rk s).Indexed rk := by
  have hrows : ∀ v : Nat, ((RowCall.move u chunkId).apply rk s).recordVersions[(rk, v)]? =
      if u = v then (RowCall.move u chunkId).onRow s.recordVersions[(rk, v)]? else s.recordVersions[(rk, v)]? := fun v => by
    split
    case isTrue heq => exact heq ▸ RowCall.apply_recordVersions (.move u chunkId) rk s
    case isFalse hne => exact RowCall.apply_recordVersions_of_ne (.move u chunkId) fun heq => hne (Prod.mk.inj heq).2
  have hversions : ∀ (v : Nat) row, ((RowCall.move u chunkId).apply rk s).recordVersions[(rk, v)]? = some row →
      ∃ row', s.recordVersions[(rk, v)]? = some row' := fun v row hrow => by
    rw [hrows] at hrow
    split at hrow
    · obtain ⟨row', hrow', -⟩ := Option.map_eq_some_iff.1 hrow
      exact ⟨row', hrow'⟩
    · exact ⟨row, hrow⟩
  cases hr : s.recordIndex[rk]? with
  | none =>
    have hindex : ((RowCall.move u chunkId).apply rk s).recordIndex[rk]? = none := by
      simp [RowCall.apply, Store.updateRecordIndexChunkIdForVersion, hr]
    refine ⟨fun _ v => ?_, by simp [hindex], by simp [hindex]⟩
    cases hrow : ((RowCall.move u chunkId).apply rk s).recordVersions[(rk, v)]? with
    | none => rfl
    | some row =>
      obtain ⟨row', hrow'⟩ := hversions v row hrow
      simp [h.absent hr v] at hrow'
  | some r =>
    have hindex : ((RowCall.move u chunkId).apply rk s).recordIndex[rk]? = some (if r.entry.commitVersion = u then
        { r with entry := { r.entry with chunkId := chunkId } } else r) := by
      by_cases hu : r.entry.commitVersion = u <;>
        simp [RowCall.apply, Store.updateRecordIndexChunkIdForVersion, hr, hu]
    refine ⟨by simp [hindex], fun r' hr' => ?_, fun r' hr' v row hrow => ?_⟩
    · cases hindex.symm.trans hr'
      by_cases hu : r.entry.commitVersion = u
      · have hrow := h.row r hr
        rw [hu] at hrow
        simp [hrows, hu, hrow, RowCall.onRow]
      · simp [hrows, hu, Ne.symm hu, h.row r hr]
    · cases hindex.symm.trans hr'
      obtain ⟨row', hrow'⟩ := hversions v row hrow
      have hle := h.newest r hr v row' hrow'
      split <;> exact hle

theorem apply (h : s.Indexed rk) (c : RowCall) : (c.apply rk s).Indexed rk := by
  cases c with
  | put entry bodyJson => exact h.put entry bodyJson
  | move u chunkId => exact h.move u chunkId

theorem run (h : s.Indexed rk) (l : List RowCall) : (l.foldl (RowCall.apply rk) s).Indexed rk := by
  induction l generalizing s with
  | nil => exact h
  | cons c rest ih => exact ih (h.apply c)

theorem index_eq (h : s.Indexed rk) {v : Nat} {entry : RecordIndexEntry} {bodyJson : String}
    (hrow : s.recordVersions[(rk, v)]? = some ⟨entry, utf8 bodyJson⟩)
    (hnewest : ∀ (u : Nat) row, s.recordVersions[(rk, u)]? = some row → u ≤ v) : s.recordIndex[rk]? = some ⟨entry, bodyJson⟩ := by
  cases hr : s.recordIndex[rk]? with
  | none => simp [h.absent hr v] at hrow
  | some r =>
    obtain rfl : v = r.entry.commitVersion := le_antisymm (h.newest r hr v _ hrow) (hnewest _ _ (h.row r hr))
    have heq := Option.some.inj ((h.row r hr).symm.trans hrow)
    obtain ⟨rentry, rjson⟩ := r
    obtain ⟨rfl, hbody⟩ : rentry = entry ∧ utf8 rjson = utf8 bodyJson := by simpa using heq
    rw [utf8_injective hbody]

end Store.Indexed

/-! ## Orders of calls -/

/-- A version of a record: its row, and the chunk that a flush moves it to, if there is one. -/
structure RowWrite where
  entry : RecordIndexEntry
  bodyJson : String
  moved : Option String

namespace RowWrite

variable {ws : List RowWrite} {x : RowWrite}

def version (x : RowWrite) : Nat := x.entry.commitVersion

def calls (x : RowWrite) : List RowCall := .put x.entry x.bodyJson :: x.moved.toList.map (.move x.version)

/-- The entry with the chunk that it ends up in. -/
def final (x : RowWrite) : RecordIndexEntry := { x.entry with chunkId := x.moved.getD x.entry.chunkId }

theorem version_of_mem_calls {c : RowCall} (h : c ∈ x.calls) : c.version = x.version := by
  rcases List.mem_cons.1 h with rfl | h
  · rfl
  · obtain ⟨chunkId, -, rfl⟩ := List.mem_map.1 h
    rfl

theorem foldl_calls (x : RowWrite) (row : Option StoredRecordVersion) :
    x.calls.foldl RowCall.onRow row = some ⟨x.final, utf8 x.bodyJson⟩ := by
  obtain ⟨entry, bodyJson, _ | chunkId⟩ := x <;> rfl

theorem filter_flatMap_calls (hdistinct : (ws.map version).Nodup) (hx : x ∈ ws) :
    (ws.flatMap calls).filter (fun c => c.version = x.version) = x.calls := by
  induction ws with
  | nil => cases hx
  | cons y rest ih =>
    rw [List.map_cons, List.nodup_cons] at hdistinct
    rw [List.flatMap_cons, List.filter_append]
    have hnone : ∀ z : RowWrite, ∀ l : List RowWrite, z.version ∉ l.map version →
        (l.flatMap calls).filter (fun c => c.version = z.version) = [] := by
      intro z l hz
      refine List.filter_eq_nil_iff.2 fun c hc => ?_
      obtain ⟨y, hy, hc⟩ := List.mem_flatMap.1 hc
      rw [version_of_mem_calls hc, decide_eq_true_eq]
      exact fun heq => hz (heq ▸ List.mem_map_of_mem hy)
    have hall : ∀ z : RowWrite, z.calls.filter (fun c => c.version = z.version) = z.calls := by
      intro z
      refine List.filter_eq_self.2 fun c hc => ?_
      rw [version_of_mem_calls hc, decide_eq_true_eq]
    rcases List.mem_cons.1 hx with rfl | hx
    · rw [hall, hnone x rest hdistinct.1, List.append_nil]
    · have hne : y.version ≠ x.version := fun heq => hdistinct.1 (heq ▸ List.mem_map_of_mem hx)
      have hfirst : y.calls.filter (fun c => c.version = x.version) = [] := by
        refine List.filter_eq_nil_iff.2 fun c hc => ?_
        rw [version_of_mem_calls hc, decide_eq_true_eq]
        exact hne
      rw [hfirst, List.nil_append, ih hdistinct.2 hx]

end RowWrite

/-- An order of the calls that moves a row after it was put. -/
structure Schedule (ws : List RowWrite) (l : List RowCall) : Prop where
  perm : l.Perm (ws.flatMap RowWrite.calls)
  after : ∀ x ∈ ws, x.calls.Sublist l

namespace Schedule

variable {ws : List RowWrite} {l : List RowCall} {s : Store} {rk : RecordKey}

theorem filter_eq (h : Schedule ws l) (hdistinct : (ws.map RowWrite.version).Nodup) {x : RowWrite} (hx : x ∈ ws) :
    l.filter (fun c => c.version = x.version) = x.calls := by
  have hperm := h.perm.filter fun c => decide (c.version = x.version)
  have hcalls := RowWrite.filter_flatMap_calls hdistinct hx
  rw [hcalls] at hperm
  have hsub := (h.after x hx).filter fun c => decide (c.version = x.version)
  have hself : x.calls.filter (fun c => decide (c.version = x.version)) = x.calls :=
    List.filter_eq_self.2 fun c hc => by rw [RowWrite.version_of_mem_calls hc, decide_eq_true_eq]
  rw [hself] at hsub
  exact (hsub.eq_of_length hperm.length_eq.symm).symm

theorem filter_eq_nil (h : Schedule ws l) {v : Nat} (hv : ∀ x ∈ ws, x.version ≠ v) : l.filter (fun c => c.version = v) = [] := by
  refine List.filter_eq_nil_iff.2 fun c hc => ?_
  obtain ⟨x, hx, hc⟩ := List.mem_flatMap.1 (h.perm.mem_iff.1 hc)
  rw [RowWrite.version_of_mem_calls hc, decide_eq_true_eq]
  exact hv x hx

end Schedule

theorem recordVersions_run (l : List RowCall) (s : Store) (rk : RecordKey) (v : Nat) :
    (l.foldl (RowCall.apply rk) s).recordVersions[(rk, v)]? =
      (l.filter fun c => c.version = v).foldl RowCall.onRow s.recordVersions[(rk, v)]? := by
  induction l generalizing s with
  | nil => rfl
  | cons c rest ih =>
    rw [List.foldl_cons, ih, List.filter_cons]
    by_cases hv : c.version = v
    · subst hv
      simp [RowCall.apply_recordVersions]
    · have hne : (rk, c.version) ≠ (rk, v) := fun heq => hv (Prod.mk.inj heq).2
      simp [hv, RowCall.apply_recordVersions_of_ne c hne]

theorem rest_run (l : List RowCall) (s : Store) (rk : RecordKey) :
    l.foldl (RowCall.apply rk) s = { s with
      recordIndex := (l.foldl (RowCall.apply rk) s).recordIndex
      recordVersions := (l.foldl (RowCall.apply rk) s).recordVersions } ∧
    ∀ rk', rk' ≠ rk → (l.foldl (RowCall.apply rk) s).recordIndex[rk']? = s.recordIndex[rk']? ∧
      ∀ v : Nat, (l.foldl (RowCall.apply rk) s).recordVersions[(rk', v)]? = s.recordVersions[(rk', v)]? := by
  induction l generalizing s with
  | nil => exact ⟨rfl, fun _ _ => ⟨rfl, fun _ => rfl⟩⟩
  | cons c rest ih =>
    obtain ⟨hstore, hothers⟩ := ih (c.apply rk s)
    refine ⟨?_, fun rk' hne => ?_⟩
    · rw [List.foldl_cons, hstore, c.apply_rest rk s]
    · obtain ⟨hindex, hversions⟩ := hothers rk' hne
      refine ⟨hindex.trans (c.apply_recordIndex_of_ne hne.symm), fun v => (hversions v).trans ?_⟩
      exact c.apply_recordVersions_of_ne fun heq => hne (Prod.mk.inj heq).1.symm

/-- The rows of a record that had none, after the calls for its versions in any order: one row a version, with its
body and the chunk it was moved to, and the index row of the newest. Other rows are as before, and every order ends in
the same state. -/
theorem record_rows_commute {s : Store} {rk : RecordKey} (hindex : s.recordIndex[rk]? = none)
    (hversions : ∀ v : Nat, s.recordVersions[(rk, v)]? = none) {ws : List RowWrite} (hdistinct : (ws.map RowWrite.version).Nodup)
    {l : List RowCall} (h : Schedule ws l) :
    (∀ x ∈ ws, (l.foldl (RowCall.apply rk) s).recordVersions[(rk, x.version)]? = some ⟨x.final, utf8 x.bodyJson⟩) ∧
    (∀ v, (∀ x ∈ ws, x.version ≠ v) → (l.foldl (RowCall.apply rk) s).recordVersions[(rk, v)]? = none) ∧
    (∀ x ∈ ws, (∀ y ∈ ws, y.version ≤ x.version) →
      (l.foldl (RowCall.apply rk) s).recordIndex[rk]? = some ⟨x.final, x.bodyJson⟩) ∧
    (ws = [] → (l.foldl (RowCall.apply rk) s).recordIndex[rk]? = none) ∧
    (∀ rk', rk' ≠ rk → (l.foldl (RowCall.apply rk) s).recordIndex[rk']? = s.recordIndex[rk']? ∧
      ∀ v : Nat, (l.foldl (RowCall.apply rk) s).recordVersions[(rk', v)]? = s.recordVersions[(rk', v)]?) ∧
    ∀ l', Schedule ws l' → l'.foldl (RowCall.apply rk) s = l.foldl (RowCall.apply rk) s := by
  have hindexed : s.Indexed rk := ⟨fun _ => hversions, by simp [hindex], by simp [hindex]⟩
  have hrow : ∀ l, Schedule ws l → ∀ x ∈ ws,
      (l.foldl (RowCall.apply rk) s).recordVersions[(rk, x.version)]? = some ⟨x.final, utf8 x.bodyJson⟩ := by
    intro l h x hx
    rw [recordVersions_run, h.filter_eq hdistinct hx, RowWrite.foldl_calls]
  have hnone : ∀ l, Schedule ws l → ∀ v, (∀ x ∈ ws, x.version ≠ v) →
      (l.foldl (RowCall.apply rk) s).recordVersions[(rk, v)]? = none := by
    intro l h v hv
    rw [recordVersions_run, h.filter_eq_nil hv]
    exact hversions v
  have hmem : ∀ l, Schedule ws l → ∀ (v : Nat) row, (l.foldl (RowCall.apply rk) s).recordVersions[(rk, v)]? = some row →
      ∃ x ∈ ws, x.version = v := by
    intro l h v row hv
    by_contra hno
    rw [hnone l h v fun x hx heq => hno ⟨x, hx, heq⟩] at hv
    cases hv
  have hnewest : ∀ l, Schedule ws l → ∀ x ∈ ws, (∀ y ∈ ws, y.version ≤ x.version) →
      (l.foldl (RowCall.apply rk) s).recordIndex[rk]? = some ⟨x.final, x.bodyJson⟩ := by
    intro l h x hx hmax
    refine (hindexed.run l).index_eq (hrow l h x hx) fun u row hu => ?_
    obtain ⟨y, hy, rfl⟩ := hmem l h u row hu
    exact hmax y hy
  have hnever : ∀ l, Schedule ws l → ws = [] → (l.foldl (RowCall.apply rk) s).recordIndex[rk]? = none := by
    rintro l h rfl
    obtain rfl : l = [] := h.perm.eq_nil
    exact hindex
  obtain ⟨hstore, hothers⟩ := rest_run l s rk
  refine ⟨hrow l h, hnone l h, hnewest l h, hnever l h, hothers, fun l' h' => ?_⟩
  obtain ⟨hstore', hothers'⟩ := rest_run l' s rk
  have hrows : (l'.foldl (RowCall.apply rk) s).recordVersions = (l.foldl (RowCall.apply rk) s).recordVersions := by
    refine Std.ExtTreeMap.ext_getElem? ?_
    rintro ⟨rk', v⟩
    by_cases hrk : rk' = rk
    · subst hrk
      by_cases hv : ∃ x ∈ ws, x.version = v
      · obtain ⟨x, hx, rfl⟩ := hv
        rw [hrow l' h' x hx, hrow l h x hx]
      · have hv : ∀ x ∈ ws, x.version ≠ v := fun x hx heq => hv ⟨x, hx, heq⟩
        rw [hnone l' h' v hv, hnone l h v hv]
    · rw [(hothers' rk' hrk).2, (hothers rk' hrk).2]
  have hlatest : (l'.foldl (RowCall.apply rk) s).recordIndex = (l.foldl (RowCall.apply rk) s).recordIndex := by
    refine Std.ExtTreeMap.ext_getElem? fun rk' => ?_
    by_cases hrk : rk' = rk
    · subst hrk
      by_cases hws : ws = []
      · rw [hnever l' h' hws, hnever l h hws]
      · obtain ⟨x, hx, hmax⟩ := Set.exists_max_image _ RowWrite.version ws.finite_toSet (List.exists_mem_of_ne_nil ws hws)
        rw [hnewest l' h' x hx hmax, hnewest l h x hx hmax]
    · rw [(hothers' rk' hrk).1, (hothers rk' hrk).1]
  rw [hstore', hstore, hrows, hlatest]

/-- Two versions of a record; a flush of the first comes after the second. -/
theorem record_rows_commute_late_flush :
    Schedule [⟨⟨1, false, "", 0, "T"⟩, "1", some "c"⟩, ⟨⟨2, false, "", 0, "U"⟩, "2", some "d"⟩]
      [.put ⟨2, false, "", 0, "U"⟩ "2", .move 2 "d", .put ⟨1, false, "", 0, "T"⟩ "1", .move 1 "c"] ∧
    ([RowCall.put ⟨2, false, "", 0, "U"⟩ "2", .move 2 "d", .put ⟨1, false, "", 0, "T"⟩ "1", .move 1 "c"].foldl
      (RowCall.apply ("s", "t", "r")) {}).recordIndex[(("s", "t", "r") : RecordKey)]? =
      some ⟨⟨2, false, "d", 0, "U"⟩, "2"⟩ := by
  have hschedule : Schedule [⟨⟨1, false, "", 0, "T"⟩, "1", some "c"⟩, ⟨⟨2, false, "", 0, "U"⟩, "2", some "d"⟩]
      [.put ⟨2, false, "", 0, "U"⟩ "2", .move 2 "d", .put ⟨1, false, "", 0, "T"⟩ "1", .move 1 "c"] := by
    refine ⟨by decide, fun x hx => ?_⟩
    rcases List.mem_cons.1 hx with rfl | hx
    · decide
    · rw [List.mem_singleton.1 hx]
      decide
  have hindex : ({} : Store).recordIndex[(("s", "t", "r") : RecordKey)]? = none := by simp
  have hversions : ∀ v : Nat, ({} : Store).recordVersions[((("s", "t", "r") : RecordKey), v)]? = none := by simp
  refine ⟨hschedule, ?_⟩
  obtain ⟨-, -, hnewest, -⟩ := record_rows_commute hindex hversions (by decide) hschedule
  exact hnewest ⟨⟨2, false, "", 0, "U"⟩, "2", some "d"⟩ (by simp) (by simp [RowWrite.version])

end Xtable

import Xtable.Schema.Records
import Xtable.Theorems.Sorting

/-! A query goes through the rows of a table at a snapshot, a difference at two. Each record has one row in a scan;
    the count that a query reports is taken before its filters. -/

namespace Xtable

open Space

/-! ## The rows of a scan -/

theorem Store.mem_iterRecordIndex {s : Store} {space table rid : String} {idx : RecordIndexEntry} :
    (rid, idx) ∈ s.iterRecordIndex space table ↔ s.getRecordIndex (space, table, rid) = some idx := by
  simp only [Store.iterRecordIndex, List.mem_map, List.mem_filter, Bool.and_eq_true, decide_eq_true_eq, Prod.mk.injEq,
    Store.getRecordIndex, Option.map_eq_some_iff]
  constructor
  · rintro ⟨⟨⟨space', table', rid'⟩, r⟩, ⟨hmem, rfl, rfl⟩, rfl, rfl⟩
    exact ⟨r, Table.mem_toList.1 hmem, rfl⟩
  · rintro ⟨r, hr, rfl⟩
    exact ⟨((space, table, rid), r), ⟨Table.mem_toList.2 hr, rfl, rfl⟩, rfl, rfl⟩

theorem Store.nodup_iterRecordIndex (s : Store) (space table : String) :
    ((s.iterRecordIndex space table).map (·.1)).Nodup := by
  have hkeys := (List.pairwise_map.1 (Table.nodup_keys (t := s.recordIndex))).filter
    fun x => x.1.1 = space && x.1.2.1 = table
  rw [iterRecordIndex, List.map_map]
  refine List.pairwise_map.2 (hkeys.imp_of_mem fun {a b} ha hb hne heq => hne ?_)
  obtain ⟨-, ha⟩ := List.mem_filter.1 ha
  obtain ⟨-, hb⟩ := List.mem_filter.1 hb
  simp only [Bool.and_eq_true, decide_eq_true_eq] at ha hb
  exact Prod.ext (ha.1.trans hb.1.symm) (Prod.ext (ha.2.trans hb.2.symm) heq)

theorem map_of_mapM_ok {α β ε : Type} {f : α → Except ε β} {l : List α} {out : List β} (h : l.mapM f = .ok out) :
    l.map f = out.map .ok := by
  induction l generalizing out with
  | nil =>
    obtain rfl : [] = out := Except.ok.inj h
    rfl
  | cons x rest ih =>
    rw [List.mapM_cons] at h
    cases hx : f x with
    | error e => simp [hx, bind, Except.bind] at h
    | ok y =>
      cases hrest : rest.mapM f with
      | error e => simp [hx, hrest, bind, Except.bind] at h
      | ok ys =>
        simp only [hx, hrest, bind, Except.bind, pure, Except.pure, Except.ok.injEq] at h
        rw [← h, List.map_cons, hx, ih hrest, List.map_cons]

theorem map_filterMap_sublist {α β γ : Type} {g : α → Option β} {a : α → γ} {b : β → γ} (h : ∀ x y, g x = some y → b y = a x)
    (l : List α) : ((l.filterMap g).map b).Sublist (l.map a) := by
  induction l with
  | nil => exact .refl _
  | cons x rest ih =>
    cases hx : g x with
    | none =>
      rw [List.filterMap_cons_none hx]
      exact ih.cons _
    | some y =>
      rw [List.filterMap_cons_some hx, List.map_cons, List.map_cons, h x y hx]
      exact ih.cons_cons _

section Scan

variable {e : SpaceEnv} {s : Store} {space table : String} {snap : Nat} {rows : List (String × RecordIndexEntry × Value)}

theorem rowWithBody_id {row : String × RecordIndexEntry} {x : String × RecordIndexEntry × Value}
    (h : rowWithBody e s space table snap row = .ok (some x)) : x.1 = row.1 := by
  unfold rowWithBody at h
  simp only [bind, Except.bind, pure, Except.pure] at h
  split at h
  · split at h
    · simp only [Except.ok.injEq, Option.some.injEq] at h
      rw [← h]
    · split at h
      · cases h
      · simp only [Except.ok.injEq, Option.some.injEq] at h
        rw [← h]
  · split at h
    · cases h
    · split at h
      · cases h
      · simp only [Except.ok.injEq, Option.some.injEq] at h
        rw [← h]

theorem mem_storeIterWithBody (h : storeIterWithBody e s space table snap = .ok rows) :
    (rows.map (·.1)).Nodup ∧ ∀ rid idx body, (rid, idx, body) ∈ rows ↔ ∃ latest,
      s.getRecordIndex (space, table, rid) = some latest ∧
      rowWithBody e s space table snap (rid, latest) = .ok (some (rid, idx, body)) := by
  let g : String × RecordIndexEntry → Option (String × RecordIndexEntry × Value) :=
    fun row => (rowWithBody e s space table snap row).toOption.join
  have hg : ∀ row x, g row = some x ↔ rowWithBody e s space table snap row = .ok (some x) := by
    intro row x
    simp only [g]
    cases rowWithBody e s space table snap row <;> simp [Except.toOption]
  have hrows : rows = (s.iterRecordIndex space table).filterMap g := by
    unfold storeIterWithBody at h
    cases hout : (s.iterRecordIndex space table).mapM (rowWithBody e s space table snap) with
    | error x => simp [hout, bind, Except.bind] at h
    | ok out =>
      simp only [hout, bind, Except.bind, pure, Except.pure, Except.ok.injEq] at h
      have hmap := congrArg (List.filterMap fun r => r.toOption.join) (map_of_mapM_ok hout)
      rw [List.filterMap_map, List.filterMap_map] at hmap
      exact h ▸ hmap.symm
  subst hrows
  refine ⟨?_, fun rid idx body => ?_⟩
  · have hsub := map_filterMap_sublist (g := g) (a := (·.1)) (b := (·.1)) (fun row x hx => rowWithBody_id ((hg row x).1 hx))
      (s.iterRecordIndex space table)
    exact (s.nodup_iterRecordIndex space table).sublist hsub
  · rw [List.mem_filterMap]
    constructor
    · rintro ⟨⟨rid', latest⟩, hmem, hrow⟩
      have hrow := (hg _ _).1 hrow
      obtain rfl : rid = rid' := rowWithBody_id hrow
      exact ⟨latest, Store.mem_iterRecordIndex.1 hmem, hrow⟩
    · rintro ⟨latest, hlatest, hrow⟩
      exact ⟨(rid, latest), Store.mem_iterRecordIndex.2 hlatest, (hg _ _).2 hrow⟩

/-- The record of a row; a deleted one has no body. -/
def rowRecord (space table : String) (row : String × RecordIndexEntry × Value) : Record :=
  if row.2.1.deleted then ⟨space, table, row.1, .null, row.2.1.schemaVersion, row.2.1.commitVersion, true⟩
  else ⟨space, table, row.1, row.2.2, row.2.1.schemaVersion, row.2.1.commitVersion, false⟩

theorem rowRecord_id (row : String × RecordIndexEntry × Value) : (rowRecord space table row).recordId = row.1 := by
  unfold rowRecord
  split <;> rfl

theorem queriedRecords_eq {q : Query} {records : List Record} (h : (queriedRecords space table q rows).1 = .ok records) :
    records = (rows.map (rowRecord space table)).filter fun r => q.includeDeleted || !r.deleted := by
  induction rows generalizing records with
  | nil => exact (Except.ok.inj h).symm
  | cons row rows ih =>
    obtain ⟨rid, idx, body⟩ := row
    simp only [queriedRecords] at h
    split at h
    · cases h
    case h_2 key hkey =>
      cases hrest : (queriedRecords space table q rows).1 with
      | error x => simp [hrest, Except.map] at h
      | ok rest =>
        simp only [hrest, Except.map, Except.ok.injEq] at h
        rw [← h, ih hrest, List.map_cons, List.filter_cons]
        by_cases hdeleted : idx.deleted = true <;> by_cases hinclude : q.includeDeleted = true <;>
          simp [rowRecord, hdeleted, hinclude]

theorem queriedRecords_congr {q q' : Query} (h : q'.includeDeleted = q.includeDeleted) :
    queriedRecords space table q' rows = queriedRecords space table q rows := by
  induction rows with
  | nil => rfl
  | cons row rows ih =>
    obtain ⟨rid, idx, body⟩ := row
    simp only [queriedRecords, ih, h]

theorem queryRecords_ok {w : World} {txnSnapshot : Nat} {q : Query} {snapshot : Option Nat} {res : QueryResult}
    (h : (queryRecords e w txnSnapshot space table q snapshot).1 = .ok res) : ∃ rows records page,
    storeIterWithBody e w.store space table (snapshot.getD txnSnapshot) = .ok rows ∧
    (queriedRecords space table q rows).1 = .ok records ∧ q.run e.sortBy records = some page ∧
    res = ⟨snapshot.getD txnSnapshot, page, records.length⟩ := by
  unfold queryRecords at h
  simp only at h
  cases hrows : storeIterWithBody e w.store space table (snapshot.getD txnSnapshot) with
  | error x => simp [hrows] at h
  | ok rows =>
    rw [hrows] at h
    cases hrecords : (queriedRecords space table q rows).1 with
    | error x => simp [hrecords, Except.bind] at h
    | ok records =>
      simp only [hrecords, Except.bind] at h
      split at h
      case h_1 => cases h
      case h_2 page hpage => exact ⟨rows, records, page, rfl, hrecords, hpage, (Except.ok.inj h).symm⟩

end Scan

/-! ## Counts -/

theorem Query.length_run_unpaged {slice : SortBy} {q : Query} {records all : List Record}
    (h : q.unpaged.run slice records = some all) : all.length = (records.filter q.selects).length := by
  rw [run_unpaged, sorted] at h
  split at h
  case h_1 => rw [Option.some.inj h]
  case h_2 => exact (slice.perm _ _ _ h).length_eq

/-- The number of matches that a query reports is that of its results, without limit and offset, exactly if every record
that is visible at the snapshot (deleted or not, as the query asks) matches all its filters. -/
theorem total_matched_counts (e : SpaceEnv) (w : World) (txnSnapshot : Nat) (space table : String) (q : Query)
    (snapshot : Option Nat) {res : QueryResult} (h : (queryRecords e w txnSnapshot space table q snapshot).1 = .ok res) :
    ∃ rows all, storeIterWithBody e w.store space table (snapshot.getD txnSnapshot) = .ok rows ∧
      (queryRecords e w txnSnapshot space table q.unpaged snapshot).1 = .ok all ∧
      all.records.length = ((rows.map (rowRecord space table)).filter q.selects).length ∧
      (res.totalMatched = all.records.length ↔ ∀ r ∈ rows.map (rowRecord space table),
        (q.includeDeleted || !r.deleted) = true → ∀ f ∈ q.filters, Filter.matches r.body f = true) := by
  obtain ⟨rows, records, page, hrows, hrecords, hpage, rfl⟩ := queryRecords_ok h
  rw [q.run_eq_page] at hpage
  obtain ⟨all, hall, -⟩ := Option.map_eq_some_iff.1 hpage
  have hlength := Query.length_run_unpaged hall
  have hrecs := queriedRecords_eq hrecords
  have hcongr : queriedRecords space table q.unpaged rows = queriedRecords space table q rows := queriedRecords_congr rfl
  have hselected : records.filter q.selects = (rows.map (rowRecord space table)).filter q.selects := by
    rw [hrecs, List.filter_filter]
    refine List.filter_congr fun r _ => ?_
    simp only [Query.selects]
    cases q.includeDeleted || !r.deleted <;> simp
  refine ⟨rows, ⟨snapshot.getD txnSnapshot, all, records.length⟩, hrows, ?_, ?_, ?_⟩
  · simp only [queryRecords, hrows, hcongr, hrecords, Except.bind, hall]
  · rw [← hselected]
    exact hlength
  · rw [hlength, eq_comm, List.length_filter_eq_length_iff]
    simp only [hrecs, List.mem_filter, Query.selects, Bool.and_eq_true, List.all_eq_true]
    constructor
    · intro hall r hr hinclude
      exact (hall r ⟨hr, hinclude⟩).2
    · rintro hall r ⟨hr, hinclude⟩
      exact ⟨hinclude, hall r hr hinclude⟩

def twoVersions : World where
  store := (({} : Store).putRecordIndexWithBody ("s", "t", "r") ⟨1, false, "", 0, "T"⟩ "null" (utf8 "null")).putRecordIndexWithBody
    ("s", "t", "r") ⟨2, false, "", 0, "U"⟩ "\"a\"" (utf8 "\"a\"")

theorem total_matched_counts_limited : ∃ res all,
    (queryRecords .sample twoVersions 2 "s" "t" { limit := some 0 } none).1 = .ok res ∧ res.records.length = 0 ∧
    (queryRecords .sample twoVersions 2 "s" "t" {} none).1 = .ok all ∧ res.totalMatched = all.records.length := by
  have hempty : ((queryRecords .sample twoVersions 2 "s" "t" { limit := some 0 } none).1.toOption.any
      fun res => res.records.length = 0) = true := by decide +kernel
  obtain ⟨res, hres, hlength⟩ := (Option.any_eq_true ..).1 hempty
  have hok : (queryRecords .sample twoVersions 2 "s" "t" { limit := some 0 } none).1 = .ok res := by
    cases h : (queryRecords .sample twoVersions 2 "s" "t" { limit := some 0 } none).1 with
    | error x => simp [h, Except.toOption] at hres
    | ok res' => rw [← Option.some.inj ((congrArg Except.toOption h).symm.trans hres)]
  obtain ⟨rows, all, -, hall, -, hiff⟩ := total_matched_counts .sample twoVersions 2 "s" "t" { limit := some 0 } none hok
  exact ⟨res, all, hok, of_decide_eq_true hlength, hall, hiff.2 (by simp)⟩

/-- A record that a filter rejects is counted as a match. -/
theorem total_matched_counts_rejected :
    ((queryRecords .sample twoVersions 2 "s" "t" { filters := [.exists "a"] } none).1.toOption.map
      fun res => (res.records.length, res.totalMatched)) = some (0, 1) ∧
    ((queryRecords .sample twoVersions 2 "s" "t" (Query.unpaged { filters := [.exists "a"] }) none).1.toOption.map
      fun res => res.records.length) = some 0 := by
  decide +kernel

/-! ## Differences -/

theorem Number.same_comm (m n : Number) : m.same n = n.same m := by
  cases m <;> cases n <;> simp only [same, eq_comm]

mutual

theorem Value.same_comm (a b : Value) : a.same b = b.same a := by
  cases a with
  | null => cases b <;> simp only [same]
  | bool x =>
    cases b <;> simp only [same]
    simp only [eq_comm]
  | number m =>
    cases b <;> simp only [same]
    exact Number.same_comm m _
  | string x =>
    cases b <;> simp only [same]
    simp only [eq_comm]
  | array as =>
    cases b <;> simp only [same]
    exact Value.sameItems_comm as _
  | object as =>
    cases b <;> simp only [same]
    exact Value.sameMembers_comm as _

theorem Value.sameItems_comm (as bs : List Value) : sameItems as bs = sameItems bs as := by
  cases as with
  | nil => cases bs <;> simp only [sameItems]
  | cons a as =>
    cases bs <;> simp only [sameItems]
    rw [Value.same_comm a, Value.sameItems_comm as]

theorem Value.sameMembers_comm (as bs : List (String × Value)) : sameMembers as bs = sameMembers bs as := by
  cases as with
  | nil => cases bs <;> simp only [sameMembers]
  | cons a as =>
    obtain ⟨k, a⟩ := a
    rcases bs with _ | ⟨⟨l, b⟩, bs⟩
    · simp only [sameMembers]
    · simp only [sameMembers, @eq_comm _ k l]
      rw [Value.same_comm a, Value.sameMembers_comm as]

end

theorem sameValue_comm (a b : Option Value) : sameValue a b = sameValue b a := by
  cases a <;> cases b <;> simp only [sameValue]
  exact Value.same_comm _ _

section Diff

variable {e : SpaceEnv} {w : World} {space table : String} {first : Bool} {byId : Table String Sides} {records : List Record}

/-- The value of a record at a snapshot: none if it is not there or deleted. -/
def visibleValue (e : SpaceEnv) (s : Store) (space table : String) (snapshot : Nat) (rid : String) : Option Value :=
  match s.getRecordIndex (space, table, rid) with
  | none => none
  | some latest =>
    match rowWithBody e s space table snapshot (rid, latest) with
    | .ok (some (_, idx, body)) => if idx.deleted then none else some body
    | _ => none

/-- The sides of a record that has been noted. -/
def Space.place (first : Bool) (v : Option Value) (sides : Sides) : Sides := if first then (v, sides.2) else (sides.1, v)

theorem noteRecords_of_not_mem {id : String} (h : id ∉ records.map (·.recordId)) :
    (noteRecords first byId records)[id]? = byId[id]? := by
  unfold noteRecords
  induction records generalizing byId with
  | nil => rfl
  | cons r rest ih =>
    simp only [List.map_cons, List.mem_cons, not_or] at h
    rw [List.foldl_cons, ih h.2, Table.get_insert, if_neg (Ne.symm h.1)]

theorem noteRecords_of_mem (hnodup : (records.map (·.recordId)).Nodup) {r : Record} (hr : r ∈ records) :
    (noteRecords first byId records)[r.recordId]? =
      some (place first (recordValue r) ((byId[r.recordId]?).getD (none, none))) := by
  induction records generalizing byId with
  | nil => cases hr
  | cons r' rest ih =>
    rw [List.map_cons, List.nodup_cons] at hnodup
    have hcons : noteRecords first byId (r' :: rest) = noteRecords first
      (byId.insert r'.recordId (place first (recordValue r') ((byId[r'.recordId]?).getD (none, none)))) rest := rfl
    rcases List.mem_cons.1 hr with rfl | hr
    · rw [hcons, noteRecords_of_not_mem hnodup.1, Table.get_insert, if_pos rfl]
    · have hne : r'.recordId ≠ r.recordId := fun heq => hnodup.1 (heq ▸ List.mem_map_of_mem hr)
      rw [hcons, ih hnodup.2 hr, Table.get_insert, if_neg hne]

/-- What the records of a snapshot say of an id. -/
structure Reports (records : List Record) (id : String) (v : Option Value) : Prop where
  value : ∀ r ∈ records, r.recordId = id → recordValue r = v
  absent : id ∉ records.map (·.recordId) → v = none

theorem noteRecords_getD (hnodup : (records.map (·.recordId)).Nodup) {id : String} {v : Option Value}
    (hreports : Reports records id v)
    (hempty : v = none → place first none ((byId[id]?).getD (none, none)) = (byId[id]?).getD (none, none)) :
    ((noteRecords first byId records)[id]?).getD (none, none) = place first v ((byId[id]?).getD (none, none)) := by
  by_cases hid : id ∈ records.map (·.recordId)
  · obtain ⟨r, hr, rfl⟩ := List.mem_map.1 hid
    rw [noteRecords_of_mem hnodup hr, Option.getD_some, hreports.value r hr rfl]
  · rw [noteRecords_of_not_mem hid, hreports.absent hid, hempty (hreports.absent hid)]

theorem recordsAt_reports {snap : Nat} {res : QueryResult} (h : recordsAt e w space table snap = .ok res) :
    (res.records.map (·.recordId)).Nodup ∧ ∀ id, Reports res.records id (visibleValue e w.store space table snap id) := by
  obtain ⟨rows, records, page, hrows, hrecords, hrun, rfl⟩ := queryRecords_ok h
  obtain ⟨hnodup, hmem⟩ := mem_storeIterWithBody hrows
  have hrecs : records = rows.map (rowRecord space table) := by
    rw [queriedRecords_eq hrecords]
    simp
  obtain rfl : page = records := by
    have hselects : Query.selects { includeDeleted := true } = fun _ => true := rfl
    simpa [Query.run, Query.page, Query.sorted, hselects] using hrun.symm
  have hids : page.map (·.recordId) = rows.map (·.1) := by
    rw [hrecs, List.map_map]
    exact List.map_congr_left fun row _ => rowRecord_id row
  simp only [hids]
  refine ⟨hnodup, fun id => ⟨fun r hr hid => ?_, fun habsent => ?_⟩⟩
  · rw [hrecs] at hr
    obtain ⟨⟨rid, idx, body⟩, hrow, rfl⟩ := List.mem_map.1 hr
    rw [rowRecord_id] at hid
    obtain rfl : rid = id := hid
    obtain ⟨latest, hlatest, hshown⟩ := (hmem rid idx body).1 hrow
    rw [visibleValue, hlatest]
    simp only [Option.getD_some] at hshown
    simp only [hshown, recordValue, rowRecord]
    by_cases hdeleted : idx.deleted = true <;> simp [hdeleted]
  · rw [hids] at habsent
    unfold visibleValue
    cases hlatest : w.store.getRecordIndex (space, table, id) with
    | none => rfl
    | some latest =>
      simp only
      split
      case h_1 x idx body hshown =>
        obtain rfl : x = id := rowWithBody_id hshown
        exact absurd (List.mem_map_of_mem ((hmem x idx body).2 ⟨latest, hlatest, hshown⟩)) habsent
      case h_2 => rfl

theorem diff_of_recordsAt {s1 s2 : Nat} {res1 res2 : QueryResult} (h1 : recordsAt e w space table s1 = .ok res1)
    (h2 : recordsAt e w space table s2 = .ok res2) :
    diff e w space table s1 s2 = .ok ((noteRecords (s2 = s1) (noteRecords true ∅ res1.records) res2.records).toList.filter
      fun x => !sameValue x.2.1 x.2.2) := by
  simp [diff, h1, h2, bind, Except.bind, pure, Except.pure]

theorem diff_eq_ok {s1 s2 : Nat} {res1 res2 : QueryResult} (h1 : recordsAt e w space table s1 = .ok res1)
    (h2 : recordsAt e w space table s2 = .ok res2) : ∃ l, diff e w space table s1 s2 = .ok l ∧
    l.Pairwise (fun x y => x.1 < y.1) ∧ ∀ id a b, (id, a, b) ∈ l ↔ a = visibleValue e w.store space table s1 id ∧
      b = (if s1 = s2 then none else visibleValue e w.store space table s2 id) ∧ sameValue a b = false := by
  obtain ⟨hnodup1, hreports1⟩ := recordsAt_reports h1
  obtain ⟨hnodup2, hreports2⟩ := recordsAt_reports h2
  have hfirst : ∀ id, ((noteRecords true ∅ res1.records)[id]?).getD (none, none) =
      (visibleValue e w.store space table s1 id, none) := fun id => by
    have hempty : place true none (((∅ : Table String Sides)[id]?).getD (none, none)) =
        ((∅ : Table String Sides)[id]?).getD (none, none) := by simp [place]
    rw [noteRecords_getD hnodup1 (hreports1 id) fun _ => hempty]
    simp [place]
  have hboth : ∀ id, ((noteRecords (s2 = s1) (noteRecords true ∅ res1.records) res2.records)[id]?).getD (none, none) =
      (visibleValue e w.store space table s1 id,
        if s1 = s2 then none else visibleValue e w.store space table s2 id) := fun id => by
    by_cases hsame : s1 = s2
    · subst hsame
      rw [noteRecords_getD hnodup2 (hreports2 id), hfirst]
      · simp [place]
      · intro hnone
        rw [hfirst, hnone]
        simp [place]
    · rw [noteRecords_getD hnodup2 (hreports2 id), hfirst]
      · simp [place, hsame, Ne.symm hsame]
      · intro _
        rw [hfirst]
        simp [place, Ne.symm hsame]
  refine ⟨_, diff_of_recordsAt h1 h2, ?_, fun id a b => ?_⟩
  · refine (Std.ExtTreeMap.ordered_keys_toList.imp ?_).filter _
    intro x y hlt
    exact compare_lt_iff_lt.1 hlt
  · rw [List.mem_filter, Table.mem_toList, Bool.not_eq_true']
    have hsides := hboth id
    constructor
    · rintro ⟨hget, hdiffer⟩
      rw [hget, Option.getD_some, Prod.mk.injEq] at hsides
      exact ⟨hsides.1, hsides.2, hdiffer⟩
    · rintro ⟨rfl, rfl, hdiffer⟩
      refine ⟨?_, hdiffer⟩
      cases hget : (noteRecords (s2 = s1) (noteRecords true ∅ res1.records) res2.records)[id]? with
      | some sides =>
        rw [hget, Option.getD_some] at hsides
        rw [hsides]
      | none =>
        -- a record that no scan shows has the same value twice
        rw [hget, Option.getD_none, Prod.mk.injEq] at hsides
        rw [← hsides.1, ← hsides.2] at hdiffer
        cases hdiffer

/-- Unless a scan fails, the difference lists the records whose values differ, by id, with both values; the other way
around it lists the same ones with the values swapped. -/
def DiffExact (e : SpaceEnv) (w : World) (space table : String) (s1 s2 : Nat) : Prop :=
  (∃ x, diff e w space table s1 s2 = .error x ∧
    (recordsAt e w space table s1 = .error x ∨ recordsAt e w space table s2 = .error x)) ∨
  ∃ l, diff e w space table s1 s2 = .ok l ∧ l.Pairwise (fun x y => x.1 < y.1) ∧
    (∀ id a b, (id, a, b) ∈ l ↔ a = visibleValue e w.store space table s1 id ∧
      b = visibleValue e w.store space table s2 id ∧ sameValue a b = false) ∧
    diff e w space table s2 s1 = .ok (l.map fun x => (x.1, x.2.2, x.2.1))

theorem diff_of_ne {s1 s2 : Nat} (hne : s1 ≠ s2) {res1 res2 : QueryResult} (h1 : recordsAt e w space table s1 = .ok res1)
    (h2 : recordsAt e w space table s2 = .ok res2) : DiffExact e w space table s1 s2 := by
  obtain ⟨l, hl, hsorted, hmem⟩ := diff_eq_ok h1 h2
  obtain ⟨l', hl', hsorted', hmem'⟩ := diff_eq_ok h2 h1
  simp only [if_neg hne] at hmem
  simp only [if_neg hne.symm] at hmem'
  refine .inr ⟨l, hl, hsorted, hmem, hl'.trans (congrArg Except.ok ?_)⟩
  -- two lists in the order of the ids with the same elements are the same
  have hirrefl : Std.Irrefl fun x y : String × Sides => x.1 < y.1 := ⟨fun x => lt_irrefl x.1⟩
  have hantisymm : Std.Antisymm fun x y : String × Sides => x.1 < y.1 := ⟨fun x y hxy hyx => absurd hyx hxy.asymm⟩
  refine hsorted'.eq_of_mem_iff (List.pairwise_map.2 hsorted) ?_
  rintro ⟨id, b, a⟩
  rw [hmem', List.mem_map]
  constructor
  · rintro ⟨hb, ha, hdiffer⟩
    exact ⟨(id, a, b), (hmem id a b).2 ⟨ha, hb, by rwa [sameValue_comm]⟩, rfl⟩
  · rintro ⟨⟨id', a', b'⟩, hx, heq⟩
    obtain ⟨rfl, rfl, rfl⟩ : id' = id ∧ b' = b ∧ a' = a := by simpa using heq
    obtain ⟨ha, hb, hdiffer⟩ := (hmem id' a' b').1 hx
    exact ⟨hb, ha, by rwa [sameValue_comm]⟩

theorem diff_self_iff {snap : Nat} {res : QueryResult} (h : recordsAt e w space table snap = .ok res) :
    DiffExact e w space table snap snap ↔ ∀ id, visibleValue e w.store space table snap id = none := by
  obtain ⟨l, hl, hsorted, hmem⟩ := diff_eq_ok h h
  simp only [if_true] at hmem
  constructor
  · rintro (⟨x, herror, -⟩ | ⟨l', hl', -, hmem', -⟩) id
    · cases hl.symm.trans herror
    · obtain rfl := Except.ok.inj (hl.symm.trans hl')
      by_contra hsome
      obtain ⟨v, hv⟩ := Option.ne_none_iff_exists'.1 hsome
      have hlisted := (hmem id (some v) none).2 ⟨hv.symm, rfl, rfl⟩
      rw [← ((hmem' id _ _).1 hlisted).2.1] at hv
      cases hv
  · intro hnone
    obtain rfl : l = [] := by
      refine List.eq_nil_iff_forall_not_mem.2 ?_
      rintro ⟨id, a, b⟩ hx
      obtain ⟨rfl, rfl, hdiffer⟩ := (hmem id a b).1 hx
      rw [hnone] at hdiffer
      cases hdiffer
    refine .inr ⟨[], hl, hsorted, fun id a b => iff_of_false List.not_mem_nil ?_, hl⟩
    rintro ⟨rfl, rfl, hdiffer⟩
    rw [hnone] at hdiffer
    cases hdiffer

end Diff

/-- The difference of two snapshots is exact if and only if they are different, or a scan fails, or no record has a value. -/
theorem diff_exact (e : SpaceEnv) (w : World) (space table : String) (s1 s2 : Nat) : DiffExact e w space table s1 s2 ↔
    s1 ≠ s2 ∨ (∃ x, recordsAt e w space table s1 = .error x) ∨ ∀ id, visibleValue e w.store space table s1 id = none := by
  cases h1 : recordsAt e w space table s1 with
  | error x => exact iff_of_true (.inl ⟨x, by simp [diff, h1, bind, Except.bind], .inl h1⟩) (.inr (.inl ⟨x, rfl⟩))
  | ok res1 =>
    by_cases hsame : s1 = s2
    · subst hsame
      simpa using diff_self_iff h1
    · refine iff_of_true ?_ (.inl hsame)
      cases h2 : recordsAt e w space table s2 with
      | error x => exact .inl ⟨x, by simp [diff, h1, h2, bind, Except.bind, pure, Except.pure], .inr h2⟩
      | ok res2 => exact diff_of_ne hsame h1 h2

/-- A snapshot differs from itself in every record that has a value. -/
theorem diff_self_not_empty : ((diff .sample twoVersions "s" "t" 1 1).toOption.map fun l =>
    l.map fun x => (x.1, x.2.1.isSome, x.2.2.isSome)) = some [("r", true, false)] := by
  decide +kernel

end Xtable

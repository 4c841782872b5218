import Xtable.Theorems.SchemaReads

/-! The committed versions of a schema are `1` to the latest one, each written by one transaction and never changed,
    and a lookup finds the highest one at its snapshot. -/

namespace Xtable

variable {e : SpaceEnv} {w w' : World} {space name key : String} {snapshot i : Nat} {c : VersionEntry}

/-! ## Record ids -/

theorem parseUnsigned_toString {v bound : Nat} :
    parseUnsigned bound (toString v).toList = if v < bound then some v else none := by
  have hne : (toString v).toList ≠ [] := by simp [Nat.toDigits_ne_nil]
  have hdigits : ∀ c ∈ (toString v).toList, c.isDigit = true := by
    rw [Nat.toString_eq_ofList_toDigits, String.toList_ofList]
    exact fun c hc => Nat.isDigit_of_mem_toDigits (by decide) (by decide) hc
  have hvalue : Nat.ofDigitChars 10 (toString v).toList 0 = v := by
    rw [Nat.toString_eq_ofList_toDigits, String.toList_ofList, Nat.ofDigitChars_ten_toDigits]
  unfold parseUnsigned
  split
  case h_1 rest heq =>
    -- a digit is no sign
    have hsign := hdigits '+' (heq ▸ List.mem_cons_self)
    simp [Char.isDigit] at hsign
  case h_2 => simp only [hne, List.all_eq_true.2 hdigits, hvalue, ne_eq, not_false_eq_true, true_and]

theorem schemaVersionOf_schemaId {name' : String} {v : Nat} (hname : '/' ∉ name.toList) (hname' : '/' ∉ name'.toList) :
    Space.schemaVersionOf name (schemaId name' v) = some i ↔ name = name' ∧ v = i ∧ v < 2 ^ 32 := by
  have hid : (schemaId name' v).toList = name'.toList ++ '/' :: ('v' :: ((toString v).toList ++ ".json".toList)) := by
    simp [schemaId]
  unfold Space.schemaVersionOf
  simp only [Option.bind_eq_bind, Option.bind_eq_some_iff]
  constructor
  · rintro ⟨rest, hrest, text, htext, hparse⟩
    obtain ⟨pre, hlist, hpre⟩ := List.dropPrefix?_eq_some_iff.1 hrest
    obtain rfl := eq_of_beq hpre
    have hsplit : name'.toList ++ '/' :: ('v' :: ((toString v).toList ++ ".json".toList)) =
        name.toList ++ '/' :: ('v' :: rest) := by
      rw [← hid, hlist]
      simp
    obtain ⟨hn, htail⟩ := append_cons_inj hname' hname hsplit
    obtain rfl := (List.cons.inj htail).2
    rw [dropSuffix?_append_self] at htext
    cases htext
    rw [parseUnsigned_toString] at hparse
    split at hparse
    case isTrue hv => exact ⟨(String.toList_inj.1 hn).symm, Option.some.inj hparse, hv⟩
    case isFalse => cases hparse
  · rintro ⟨rfl, rfl, hv⟩
    refine ⟨(toString v).toList ++ ".json".toList, ?_, (toString v).toList, dropSuffix?_append_self _ _, ?_⟩
    case refine_2 => rw [parseUnsigned_toString, if_pos hv]
    refine List.dropPrefix?_eq_some_iff.2 ⟨(name ++ "/v").toList, ?_, by simp⟩
    rw [hid]
    simp

/-! ## Committed versions -/

/-- A version of a schema has been committed at a snapshot. -/
def Store.SchemaAt (s : Store) (space name : String) (i snapshot : Nat) : Prop :=
  ∃ key c, schemaKey space name i = .ok key ∧ c ∈ (s.readChain key).entries ∧ c.commitVersion ≤ snapshot

theorem Registry.entry_unique {c' : VersionEntry} (hreg : Registry w) (hkey : schemaKey space name i = .ok key)
    (hc : c ∈ (w.store.readChain key).entries) (hc' : c' ∈ (w.store.readChain key).entries) : c = c' := by
  have hlength := hreg.documents space name i key hkey
  have hone : (w.store.readChain key).entries.length = 1 := by
    have hpos := List.length_pos_of_mem hc
    split at hlength <;> omega
  obtain ⟨d, hd⟩ := List.length_eq_one_iff.1 hone
  rw [hd, List.mem_singleton] at hc hc'
  exact hc.trans hc'.symm

theorem Registry.single (hreg : Registry w) (hs : Structured w) (hkey : schemaKey space name i = .ok key)
    (hc : c ∈ (w.store.readChain key).entries) :
    (1 ≤ i ∧ i ≤ w.store.schemaCount space name) ∧
    (∃ r, w.store.recordIndex[(space, "_schema", schemaId name i)]? = some r ∧ r.entry.commitVersion = c.commitVersion ∧
      r.entry.deleted = false) ∧
    ∃ r, w.store.recordVersions[((space, "_schema", schemaId name i), c.commitVersion)]? = some r ∧
      r.entry.deleted = false ∧ ∀ (u : Nat) r',
        w.store.recordVersions[((space, "_schema", schemaId name i), u)]? = some r' → u = c.commitVersion := by
  have hlength := hreg.documents space name i key hkey
  have hpos := List.length_pos_of_mem hc
  have hin : 1 ≤ i ∧ i ≤ w.store.schemaCount space name := by
    by_contra hout
    rw [if_neg hout] at hlength
    omega
  rw [if_pos hin] at hlength
  obtain ⟨c', hsingle⟩ := List.length_eq_one_iff.1 hlength
  rw [hsingle, List.mem_singleton] at hc
  subst hc
  have hlive := hreg.live space name i key hkey c (by simp [hsingle])
  have hagree := hs.agrees _ key (.schema hkey)
  refine ⟨hin, ?_, ?_⟩
  · have hlatest := hagree.latest
    rw [hsingle] at hlatest
    obtain ⟨r, hr, hstamp⟩ := Option.map_eq_some_iff.1 hlatest
    obtain ⟨hcv, hdeleted⟩ := Prod.mk.inj hstamp
    exact ⟨r, hr, hcv, hdeleted.trans hlive⟩
  · have hrows := hagree.rows
    rw [hsingle] at hrows
    obtain ⟨⟨⟨rk, u⟩, r⟩, hrow⟩ := List.length_eq_one_iff.1 (by simpa using congrArg List.length hrows)
    rw [hrow] at hrows
    obtain ⟨hu, hdeleted⟩ := Prod.mk.inj (List.cons.inj hrows).1
    have hmem : ((rk, u), r) ∈ w.store.recordRows (space, "_schema", schemaId name i) := by simp [hrow]
    obtain ⟨rfl, hget⟩ := Store.mem_recordRows_iff.1 hmem
    have hu' : u = c.commitVersion := hu
    subst hu'
    refine ⟨r, hget, hdeleted.trans hlive, fun u' r' hr' => ?_⟩
    have hother := Store.mem_recordRows.2 hr'
    rw [hrow, List.mem_singleton] at hother
    exact (Prod.mk.inj (Prod.mk.inj hother).1).2

theorem Registry.schemaVisible_iff {latest : RecordIndexEntry} (hreg : Registry w) (hs : Structured w)
    (hkey : schemaKey space name i = .ok key) (hc : c ∈ (w.store.readChain key).entries)
    (hlatest : latest.commitVersion = c.commitVersion) :
    Space.schemaVisible w.store space (schemaId name i) latest snapshot = true ↔ c.commitVersion ≤ snapshot := by
  obtain ⟨-, -, r, hr, hlive, honly⟩ := hreg.single hs hkey hc
  unfold Space.schemaVisible
  by_cases hle : c.commitVersion ≤ snapshot
  · rw [Store.getRecordVersionAtSnapshot_eq_some hs.keyed hr hle fun u r' hr' _ => (honly u r' hr').le]
    simp [hlive, hle]
  · rw [Store.getRecordVersionAtSnapshot_eq_none hs.keyed fun u r' hr' => by rw [honly u r' hr']; omega]
    simp [hlatest, hle]

/-! ## The scan for the latest version -/

/-- A row of the scan holds a version of the name that is visible. -/
def Store.Lists (s : Store) (space name : String) (snapshot : Nat) (rows : List (String × RecordIndexEntry)) (i : Nat) : Prop :=
  ∃ row ∈ rows, Space.schemaVersionOf name row.1 = some i ∧ Space.schemaVisible s space row.1 row.2 snapshot = true

theorem laterSchema_eq {s : Store} {row : String × RecordIndexEntry}
    (hversion : Space.schemaVersionOf name row.1 = some i)
    (hvisible : Space.schemaVisible s space row.1 row.2 snapshot = true) (best : Option Nat) :
    Space.laterSchema s space name snapshot best row = some (max i (best.getD i)) := by
  unfold Space.laterSchema
  rw [hversion]
  cases best with
  | none => simp [hvisible]
  | some b =>
    by_cases hlt : b < i
    · simp [hvisible, hlt, hlt.le]
    · simp [hlt, not_lt.1 hlt]

theorem laterSchema_skip {s : Store} {row : String × RecordIndexEntry}
    (h : ∀ i, Space.schemaVersionOf name row.1 = some i → Space.schemaVisible s space row.1 row.2 snapshot = false)
    (best : Option Nat) : Space.laterSchema s space name snapshot best row = best := by
  unfold Space.laterSchema
  cases hversion : Space.schemaVersionOf name row.1 with
  | none => rfl
  | some i => simp [h i hversion]

theorem foldl_laterSchema {s : Store} (rows : List (String × RecordIndexEntry)) (best : Option Nat) :
    (∀ i, rows.foldl (Space.laterSchema s space name snapshot) best = some i →
      best = some i ∨ s.Lists space name snapshot rows i) ∧
    (∀ j, best = some j ∨ s.Lists space name snapshot rows j →
      ∃ i, rows.foldl (Space.laterSchema s space name snapshot) best = some i ∧ j ≤ i) := by
  induction rows generalizing best with
  | nil =>
    refine ⟨fun i hi => Or.inl hi, fun j hj => ?_⟩
    rcases hj with hj | ⟨row, hrow, -⟩
    · exact ⟨j, hj, le_rfl⟩
    · cases hrow
  | cons row rows ih =>
    rw [List.foldl_cons]
    by_cases hseen : ∃ i, Space.schemaVersionOf name row.1 = some i ∧ Space.schemaVisible s space row.1 row.2 snapshot = true
    · obtain ⟨k, hversion, hvisible⟩ := hseen
      obtain ⟨hfrom, hto⟩ := ih (some (max k (best.getD k)))
      rw [laterSchema_eq hversion hvisible]
      refine ⟨fun i hi => ?_, fun j hj => ?_⟩
      · rcases hfrom i hi with hbest | ⟨row', hrow', hlist⟩
        · have hi' := Option.some.inj hbest
          cases best with
          | none => exact Or.inr ⟨row, List.mem_cons_self, by simpa [← hi'] using hversion, hvisible⟩
          | some b =>
            rcases max_choice k b with hmax | hmax
            · exact Or.inr ⟨row, List.mem_cons_self, by rw [← hi', Option.getD_some, hmax, hversion], hvisible⟩
            · exact Or.inl (by rw [← hi', Option.getD_some, hmax])
        · exact Or.inr ⟨row', List.mem_cons_of_mem _ hrow', hlist⟩
      · rcases hj with rfl | ⟨row', hrow', hlist⟩
        · obtain ⟨i, hi, hle⟩ := hto _ (Or.inl rfl)
          exact ⟨i, hi, (le_max_right _ _).trans hle⟩
        · rcases List.mem_cons.1 hrow' with rfl | hrow'
          · obtain ⟨i, hi, hle⟩ := hto _ (Or.inl rfl)
            cases hversion.symm.trans hlist.1
            exact ⟨i, hi, (le_max_left _ _).trans hle⟩
          · exact hto j (Or.inr ⟨row', hrow', hlist⟩)
    · push Not at hseen
      rw [laterSchema_skip fun i hi => by simpa using hseen i hi]
      obtain ⟨hfrom, hto⟩ := ih best
      refine ⟨fun i hi => ?_, fun j hj => hto j ?_⟩
      · rcases hfrom i hi with hbest | ⟨row', hrow', hlist⟩
        · exact Or.inl hbest
        · exact Or.inr ⟨row', List.mem_cons_of_mem _ hrow', hlist⟩
      · rcases hj with hj | ⟨row', hrow', hlist⟩
        · exact Or.inl hj
        · rcases List.mem_cons.1 hrow' with rfl | hrow'
          · exact absurd hlist.2 (hseen j hlist.1)
          · exact Or.inr ⟨row', hrow', hlist⟩

section

variable (hreg : Registry w) (hs : Structured w) (hshelf : Shelved e w)

include hreg hs hshelf

theorem Registry.lists_iff (hname : '/' ∉ name.toList) :
    w.store.Lists space name snapshot (w.store.iterRecordIndex space "_schema") i ↔ w.store.SchemaAt space name i snapshot := by
  constructor
  · rintro ⟨row, hrow, hversion, hvisible⟩
    obtain ⟨⟨⟨space', table, id⟩, stored⟩, hmem, rfl⟩ := List.mem_map.1 hrow
    obtain ⟨hstored, hwhere⟩ := List.mem_filter.1 hmem
    have hwhere : space' = space ∧ table = "_schema" := by simpa using hwhere
    obtain ⟨rfl, rfl⟩ := hwhere
    have hstored := Table.mem_toList.1 hstored
    obtain ⟨key, hdoc⟩ := hshelf.known _ _ hstored
    -- the rows of the schema table are those of schema documents
    generalize hrk : (space', "_schema", id) = rk at hdoc
    cases hdoc with
    | record h =>
      obtain ⟨-, hrest⟩ := Prod.mk.inj hrk
      exact absurd (Prod.mk.inj hrest).1.symm (recordKeyOf_of_recordKey h).reserved
    | @schema _ name' _ v h =>
      obtain ⟨rfl, hrest⟩ := Prod.mk.inj hrk
      obtain rfl := (Prod.mk.inj hrest).2
      obtain ⟨rfl, rfl, -⟩ := (schemaVersionOf_schemaId hname (schemaKeyOf_of_schemaKey h).plainName).1 hversion
      have hlatest := (hs.agrees _ key (.schema h)).latest
      rw [hstored] at hlatest
      obtain ⟨c, hc, hstamp⟩ := Option.map_eq_some_iff.1 hlatest.symm
      have hc := List.mem_of_getLast? hc
      refine ⟨key, c, h, hc, ?_⟩
      exact (hreg.schemaVisible_iff hs h hc (Prod.mk.inj hstamp).1.symm).1 hvisible
  · rintro ⟨key, c, hkey, hc, hle⟩
    obtain ⟨⟨-, hcount⟩, ⟨stored, hstored, hcv, -⟩, -⟩ := hreg.single hs hkey hc
    have hbound := hcount.trans_lt (hreg.bounded space name)
    refine ⟨(schemaId name i, stored.entry), ?_, (schemaVersionOf_schemaId hname hname).2 ⟨rfl, rfl, hbound⟩,
      (hreg.schemaVisible_iff hs hkey hc hcv).2 hle⟩
    exact List.mem_map.2 ⟨((space, "_schema", schemaId name i), stored),
      List.mem_filter.2 ⟨Table.mem_toList.2 hstored, by simp⟩, rfl⟩

theorem Registry.schemaAt_of_latest
    (hname : '/' ∉ name.toList) (h : Space.latestSchemaVersionAtSnapshot w.store space name snapshot = some i) :
    w.store.SchemaAt space name i snapshot := by
  rcases (foldl_laterSchema _ _).1 i h with hnone | hlist
  · cases hnone
  · exact (hreg.lists_iff hs hshelf hname).1 hlist

theorem Registry.latest_of_schemaAt {j : Nat} (h : w.store.SchemaAt space name j snapshot) :
    ∃ i, Space.latestSchemaVersionAtSnapshot w.store space name snapshot = some i ∧ j ≤ i := by
  obtain ⟨key, c, hkey, hc⟩ := h
  have hlist := (hreg.lists_iff hs hshelf (schemaKeyOf_of_schemaKey hkey).plainName).2 ⟨key, c, hkey, hc⟩
  exact (foldl_laterSchema _ _).2 j (Or.inr hlist)

end

/-! ## Reading a version -/

theorem fromMemTable_some {mt : MemTable} {rk : RecordKey} {source : ReadSource} {r : ReadResult}
    (h : Read.fromMemTable mt rk snapshot source = some r) :
    ∃ m, ∃ cv : Nat, mt.map[rk]? = some m ∧ m.commitVersion = (cv : WithTop Nat) ∧ cv ≤ snapshot ∧ r = Read.entryToResult m cv source := by
  unfold Read.fromMemTable at h
  cases hm : mt.getVisible rk snapshot with
  | none => simp [hm] at h
  | some m =>
    have hget := (Option.filter_eq_some_iff.1 hm).1
    rw [hm] at h
    cases hcv : m.commitVersion with
    | top => simp [hcv] at h
    | coe cv =>
      simp only [hcv] at h
      by_cases hle : cv ≤ snapshot
      · exact ⟨m, cv, hget, hcv, hle, (by simpa [hle] using h.symm)⟩
      · simp [hle] at h

theorem fromImmutables_some {flushing : List MemTable} {rk : RecordKey} {r : ReadResult}
    (h : Read.fromImmutables flushing rk snapshot = some r) :
    ∃ mt ∈ flushing, Read.fromMemTable mt rk snapshot .immutable = some r := by
  obtain ⟨mt, hmt, hr⟩ := List.exists_of_findSome?_eq_some h
  exact ⟨mt, List.mem_reverse.1 hmt, hr⟩

theorem fromMemTable_eq {mt : MemTable} {rk : RecordKey} {cv : Nat} {source : ReadSource} {m : MemEntry}
    (hm : mt.map[rk]? = some m) (hcv : m.commitVersion = (cv : WithTop Nat)) (hle : cv ≤ snapshot) :
    Read.fromMemTable mt rk snapshot source = some (Read.entryToResult m cv source) := by
  have hvisible : mt.getVisible rk snapshot = some m := by
    simp [MemTable.getVisible, hm, MemEntry.visibleAt, hcv, hle]
  simp only [Read.fromMemTable, hvisible, hcv]
  exact if_pos hle

section

variable (hreg : Registry w) (hs : Structured w) (hshelf : Shelved e w)

include hreg hs hshelf

theorem Registry.readSchema_of_schemaAt
    (hkey : schemaKey space name i = .ok key) (hc : c ∈ (w.store.readChain key).entries)
    (hle : c.commitVersion ≤ snapshot) :
    ∃ r, Space.readSchema e w space name i snapshot = .ok (some r) ∧ e.Reads r.body ∧
      w.Document (space, "_schema", schemaId name i) c.commitVersion r.body := by
  obtain ⟨-, -, row, hrow, hlive, honly⟩ := hreg.single hs hkey hc
  have hmem : ∀ mt ∈ w.mems.active :: w.mems.flushing, ∀ source r,
      Read.fromMemTable mt (space, "_schema", schemaId name i) snapshot source = some r → e.Reads r.body ∧
        w.Document (space, "_schema", schemaId name i) c.commitVersion r.body := by
    intro mt hmt source r hr
    obtain ⟨m, cv, hm, -, -, rfl⟩ := fromMemTable_some hr
    obtain ⟨-, -, -, -, hreads⟩ := hshelf.mems space name i key hkey m ⟨mt, hmt, hm⟩
    exact ⟨hreads, .inl ⟨m, ⟨mt, hmt, hm⟩, rfl⟩⟩
  have hid : Space.schemaRecordId name i = schemaId name i := rfl
  simp only [Space.readSchema, Read.readAtSnapshot, hid]
  cases hactive : Read.fromMemTable w.mems.active (space, "_schema", schemaId name i) snapshot .active with
  | some r =>
    obtain ⟨hreads, hdoc⟩ := hmem _ List.mem_cons_self _ r hactive
    exact ⟨r, rfl, hreads, hdoc⟩
  | none =>
    cases himm : Read.fromImmutables w.mems.flushing (space, "_schema", schemaId name i) snapshot with
    | some r =>
      obtain ⟨mt, hmt, hr⟩ := fromImmutables_some himm
      obtain ⟨hreads, hdoc⟩ := hmem mt (List.mem_cons_of_mem _ hmt) _ r hr
      exact ⟨r, rfl, hreads, hdoc⟩
    | none =>
      have hreads := hshelf.rows _ _ row hrow hlive
      refine ⟨⟨row.body, row.entry.commitVersion, row.entry.txnId, false, none, [], row.entry.schemaVersion, .recordIndex⟩,
        ?_, hreads, .inr ⟨?_, row, hrow, rfl⟩⟩
      · simp only [Read.fromIndex]
        rw [Store.getRecordVersionAtSnapshot_eq_some hs.keyed hrow hle fun u r' hr' _ => (honly u r' hr').le]
        simp [hlive, hreads.1, Store.getChunkIndex, hshelf.chunks]
      · -- a memtable with the document would have answered
        rintro m ⟨mt, hmt, hm⟩
        obtain ⟨c', hc', hcv, -⟩ := hshelf.mems space name i key hkey m ⟨mt, hmt, hm⟩
        have hsame := hreg.entry_unique hkey hc hc'
        rw [← hsame] at hcv
        rcases List.mem_cons.1 hmt with rfl | hmt
        · rw [fromMemTable_eq hm hcv hle] at hactive
          cases hactive
        · have hanswer := List.findSome?_eq_none_iff.1 himm mt (List.mem_reverse.2 hmt)
          rw [fromMemTable_eq hm hcv hle] at hanswer
          cases hanswer

theorem Registry.getSchema_version (txnSnapshot : Nat)
    (snapshot : Option Nat) (hkey : schemaKey space name i = .ok key) (hc : c ∈ (w.store.readChain key).entries)
    (hle : c.commitVersion ≤ snapshot.getD txnSnapshot) :
    ∃ text body, w.Document (space, "_schema", schemaId name i) c.commitVersion text ∧ e.fromSlice text = .ok body ∧
      Space.getSchema e w txnSnapshot space name (some i) snapshot = .ok (some ⟨space, name, i, body⟩) := by
  obtain ⟨r, hr, ⟨-, body, hbody⟩, hdoc⟩ := hreg.readSchema_of_schemaAt hs hshelf hkey hc hle
  refine ⟨r.body, body, hdoc, hbody, ?_⟩
  obtain ⟨⟨hpos, hcount⟩, -⟩ := hreg.single hs hkey hc
  unfold Space.getSchema
  cases hidx : w.store.getSchemaIndex space name with
  | none =>
    simp [Store.schemaCount, hidx] at hcount
    omega
  | some idx =>
    have hcount : i ≤ idx.latestVersion := by simpa [Store.schemaCount, hidx] using hcount
    simp only [Option.getD_some]
    rw [if_neg (by omega), hr]
    simp [bind, Except.bind, Space.parseBody, hbody, pure, Except.pure]

theorem Registry.getSchema_latest (txnSnapshot : Nat) (space name : String) (snapshot : Option Nat) :
    (∃ i body, w.store.SchemaAt space name i (snapshot.getD txnSnapshot) ∧
      (∀ j, w.store.SchemaAt space name j (snapshot.getD txnSnapshot) → j ≤ i) ∧
      Space.getSchema e w txnSnapshot space name none snapshot = .ok (some ⟨space, name, i, body⟩)) ∨
    ((∀ j, ¬ w.store.SchemaAt space name j (snapshot.getD txnSnapshot)) ∧
      Space.getSchema e w txnSnapshot space name none snapshot = .ok none) := by
  cases hidx : w.store.getSchemaIndex space name with
  | none =>
    refine Or.inr ⟨fun j ⟨key, c, hkey, hc, _⟩ => ?_, by simp [Space.getSchema, hidx]⟩
    obtain ⟨⟨hpos, hcount⟩, -⟩ := hreg.single hs hkey hc
    simp [Store.schemaCount, hidx] at hcount
    omega
  | some idx =>
    obtain ⟨key₁, hkey₁⟩ := hreg.named space name idx hidx
    have hname := (schemaKeyOf_of_schemaKey hkey₁).plainName
    cases hlatest : Space.latestSchemaVersionAtSnapshot w.store space name (snapshot.getD txnSnapshot) with
    | none =>
      refine Or.inr ⟨fun j hj => ?_, by simp [Space.getSchema, hidx, hlatest]⟩
      obtain ⟨i, hi, -⟩ := hreg.latest_of_schemaAt hs hshelf hj
      rw [hlatest] at hi
      cases hi
    | some i =>
      have hat := hreg.schemaAt_of_latest hs hshelf hname hlatest
      obtain ⟨key, c, hkey, hc, hle⟩ := id hat
      obtain ⟨-, body, -, -, hget⟩ := hreg.getSchema_version hs hshelf txnSnapshot snapshot hkey hc hle
      refine Or.inl ⟨i, body, hat, fun j hj => ?_, ?_⟩
      · obtain ⟨i', hi', hle⟩ := hreg.latest_of_schemaAt hs hshelf hj
        rw [hlatest] at hi'
        exact hle.trans_eq (Option.some.inj hi').symm
      · simpa only [Space.getSchema, Option.getD_none, hlatest, Option.getD_some] using hget

end

/-! ## Steps -/

/-- What holds between the operations of the structured space. -/
structure Cataloged (e : SpaceEnv) (w : World) : Prop where
  structured : Structured w
  registry : Registry w
  texts : Texts e w
  shelved : Shelved e w

theorem Cataloged.empty (e : SpaceEnv) : Cataloged e {} where
  structured := .empty
  registry := .empty
  texts := ⟨by simp, by simp, by simp⟩
  shelved := by
    have hnone : ∀ rk m, ¬ MemTableSet.Holds {} rk m := by
      rintro rk m ⟨mt, hmt, hm⟩
      simp at hmt
      simp [hmt] at hm
    exact ⟨by simp, by simp, rfl, fun _ _ _ _ _ m hm => absurd hm (hnone _ m), fun _ _ _ _ _ m _ hm => absurd hm (hnone _ m)⟩

def SpaceOp.written : SpaceOp → Option Value
  | request r => r.written
  | upsert _ write _ => some write.body

/-- An operation finds a version that is left, if it registers a schema. -/
def SpaceOp.numbers (w : World) : SpaceOp → Bool
  | request r => r.numbers w
  | upsert .. => true

/-- What an operation of the structured space amounts to. -/
inductive SpaceStep (e : SpaceEnv) (w : World) : SpaceOp → World → Prop where
  /-- An upsert of an unknown transaction, or one that the schema check refuses. -/
  | refused {t : String} {write : RecordWrite} {fresh : String} : SpaceStep e w (.upsert t write fresh) w
  | request {r : Request} {w' : World} (hr : r.structured = true)
      (hother : ∀ t space table id sv body, r ≠ .upsertRecord t space table id sv body) (h : r.step e.toEnv w = some w') :
      SpaceStep e w (.request r) w'
  | upsert {t : String} {write : RecordWrite} {fresh : String} {row : TxnStateRecord} {sv : Option Nat} {w' : World}
      (hrow : w.store.getTxnState t = some row) (hcheck : Space.checkSchema e w t row.snapshotVersion write = .ok sv)
      (h : (Request.upsertRecord t write.space write.table (write.recordId.getD fresh) sv write.body).step e.toEnv w = some w') :
      SpaceStep e w (.upsert t write fresh) w'

theorem SpaceStep.of_step {op : SpaceOp} (h : op.step e w = some w') : SpaceStep e w op w' := by
  cases op with
  | request r =>
    have hother : ∀ t space table id sv body, r ≠ .upsertRecord t space table id sv body := by
      rintro t space table id sv body rfl
      simp [SpaceOp.step] at h
    have hstep : (if r.structured then r.step e.toEnv w else none) = some w' := by
      cases r with
      | upsertRecord t space table id sv body => exact absurd rfl (hother t space table id sv body)
      | _ => exact h
    split at hstep
    case isFalse => cases hstep
    case isTrue hr => exact .request hr hother hstep
  | upsert t write fresh =>
    simp only [SpaceOp.step] at h
    cases hrow : w.store.getTxnState t with
    | none =>
      rw [hrow] at h
      cases h
      exact .refused
    | some row =>
      rw [hrow] at h
      cases h
      unfold Space.upsertRecord
      cases hcheck : Space.checkSchema e w t row.snapshotVersion write with
      | error f => exact .refused
      | ok sv =>
        refine .upsert hrow hcheck ?_
        simp only [Request.step, Request.admits, if_true, Request.body, discard_run_snd]
        generalize (Engine.upsertRecord e.toEnv t write.space write.table (write.recordId.getD fresh) sv write.body).run
          World.exec w = out
        obtain ⟨_ | _, _⟩ := out <;> rfl

theorem Cataloged.request {r : Request} (h : Cataloged e w) (hr : r.structured = true) (hstep : r.step e.toEnv w = some w')
    (hleft : r.numbers w = true) (hbody : ∀ body, r.written = some body → e.Reads (utf8 (e.jsonText body))) :
    Cataloged e w' ∧ CatalogStep e.toEnv w w' ∧ RowsStep e.toEnv w w' r := by
  obtain ⟨hstructured, heffect, hcatalog, hrows⟩ := h.structured.step hr hstep
  exact ⟨⟨hstructured, h.registry.step h.structured hcatalog hleft hrows, h.texts.step hbody (.of_effect h.structured.drafts hr heffect),
    h.shelved.step h.texts h.structured h.registry hcatalog⟩, hcatalog, hrows⟩

theorem Cataloged.step {op : SpaceOp} (h : Cataloged e w) (hstep : SpaceStep e w op w') (hleft : op.numbers w = true)
    (hbody : ∀ body, op.written = some body → e.Reads (utf8 (e.jsonText body))) :
    Cataloged e w' ∧ CatalogStep e.toEnv w w' := by
  cases hstep with
  | refused => exact ⟨h, .kept rfl rfl⟩
  | request hr _ hstep =>
    obtain ⟨hnext, hcatalog, -⟩ := h.request hr hstep hleft hbody
    exact ⟨hnext, hcatalog⟩
  | upsert _ _ hstep =>
    obtain ⟨hnext, hcatalog, -⟩ := h.request rfl hstep rfl hbody
    exact ⟨hnext, hcatalog⟩

/-- Every body that a run writes can be read back. -/
def Legible (e : SpaceEnv) (hist : List (World × SpaceOp × World)) : Prop :=
  ∀ x ∈ hist, ∀ body, x.2.1.written = some body → e.Reads (utf8 (e.jsonText body))

/-- Every registration of a run finds a version that is left for its schema. -/
def Numbered (hist : List (World × SpaceOp × World)) : Prop := ∀ x ∈ hist, x.2.1.numbers x.1 = true

theorem Cataloged.of_run {hist : List (World × SpaceOp × World)} (h : Cataloged e w) (hrun : Run (SpaceOp.step e) w hist w')
    (hleft : Numbered hist) (hlegible : Legible e hist) : Cataloged e w' :=
  hrun.invariant (I := Cataloged e)
    (C := fun u (op : SpaceOp) => op.numbers u = true ∧ ∀ body, op.written = some body → e.Reads (utf8 (e.jsonText body)))
    h (fun _ _ _ hw hop hstep => (hw.step (.of_step hstep) hop.1 hop.2).1) (fun x hx => ⟨hleft x hx, hlegible x hx⟩) |>.1

/-! ## Documents do not change -/

/-- A schema document is as it was. -/
structure SameDocument (space name : String) (i v : Nat) (key : String) (w w' : World) : Prop where
  chain : (w'.store.readChain key).entries = (w.store.readChain key).entries
  row : ∀ u : Nat, w'.store.recordVersions[((space, "_schema", schemaId name i), u)]? =
    w.store.recordVersions[((space, "_schema", schemaId name i), u)]?
  document : ∀ body, w.Document (space, "_schema", schemaId name i) v body → w'.Document (space, "_schema", schemaId name i) v body

theorem Cataloged.sameDocument_step (h : Cataloged e w) (h' : Cataloged e w') (hstep : CatalogStep e.toEnv w w')
    (hkey : schemaKey space name i = .ok key) (hc : c ∈ (w.store.readChain key).entries) :
    SameDocument space name i c.commitVersion key w w' := by
  have hne := List.ne_nil_of_mem hc
  have hchain := hstep.schema_chain h.structured.drafts h.registry hkey hne
  have hold : ∀ (u : Nat) r, w'.store.recordVersions[((space, "_schema", schemaId name i), u)]? = some r →
      w.store.recordVersions[((space, "_schema", schemaId name i), u)]? = some r := by
    intro u r hr
    rcases hstep.row_cases h.structured.drafts hr with hold | ⟨t, row, hpub, d, hd, hrk, -⟩
    · exact hold
    · -- a commit that writes the document again has its key among its own
      have hdraft := h.structured.drafts.active t row hpub.found hpub.active
      have hdoc := hdraft.keyed.docKey hd
      rw [hrk] at hdoc
      have hmem : key ∈ row.writeKeys := by
        rw [hdraft.keys, ← hdoc.key_unique (.schema hkey)]
        exact fun hnone => PendingTxn.docAt_eq_none.1 hnone d hd rfl
      exact absurd hmem (hpub.not_mem_writeKeys hdraft h.registry hkey hne)
  obtain ⟨-, -, r, hr, -, honly⟩ := h.registry.single h.structured hkey hc
  obtain ⟨-, -, r', hr', -⟩ := h'.registry.single h'.structured hkey (hchain ▸ hc)
  have hrow : ∀ u : Nat, w'.store.recordVersions[((space, "_schema", schemaId name i), u)]? =
      w.store.recordVersions[((space, "_schema", schemaId name i), u)]? := by
    intro u
    cases hu : w.store.recordVersions[((space, "_schema", schemaId name i), u)]? with
    | none =>
      cases hu' : w'.store.recordVersions[((space, "_schema", schemaId name i), u)]? with
      | none => rfl
      | some r => rw [hold u r hu'] at hu; cases hu
    | some r₁ =>
      obtain rfl := honly u r₁ hu
      rw [hr', ← hold _ r' hr', hu]
  refine ⟨hchain, hrow, fun body hd => ?_⟩
  unfold World.Document at hd ⊢
  simpa only [h.shelved.holds_iff h.structured h.registry hstep hkey hne, hrow] using hd

theorem Cataloged.sameDocument_run {hist : List (World × SpaceOp × World)} (h : Cataloged e w)
    (hrun : Run (SpaceOp.step e) w hist w') (hleft : Numbered hist) (hlegible : Legible e hist)
    (hkey : schemaKey space name i = .ok key) (hc : c ∈ (w.store.readChain key).entries) :
    SameDocument space name i c.commitVersion key w w' := by
  have hkept := hrun.invariant (I := fun u => Cataloged e u ∧ SameDocument space name i c.commitVersion key w u)
    (C := fun u (op : SpaceOp) => op.numbers u = true ∧ ∀ body, op.written = some body → e.Reads (utf8 (e.jsonText body)))
    ⟨h, rfl, fun _ => rfl, fun _ hd => hd⟩ ?_ fun x hx => ⟨hleft x hx, hlegible x hx⟩
  · exact hkept.1.2
  · intro u op v ⟨hu, hsame⟩ hop hstep
    obtain ⟨hv, hcatalog⟩ := hu.step (.of_step hstep) hop.1 hop.2
    have hnext := hu.sameDocument_step hv hcatalog hkey (hsame.chain ▸ hc)
    exact ⟨hv, hnext.chain.trans hsame.chain, fun x => (hnext.row x).trans (hsame.row x),
      fun body hd => hnext.document body (hsame.document body hd)⟩

theorem Cataloged.writer (h : Cataloged e w) (hkey : schemaKey space name i = .ok key)
    (hc : c ∈ (w.store.readChain key).entries) :
    ∃! t, ∃ row, w.store.getTxnState t = some row ∧ row.status = .committed ∧ key ∈ row.writeKeys := by
  have hsound := h.structured.inv.sound
  refine ⟨c.txnId, ?_, fun t ⟨row, hrow, hst, hmem⟩ => ?_⟩
  · obtain ⟨row, hrow, hst, halloc⟩ := hsound.owned key c hc
    have hst : row.status = .committed := hst.resolve_left (h.registry.idle _ row hrow)
    obtain ⟨v, ha, -⟩ := (hsound.rows _ row hrow).committed hst
    exact ⟨row, hrow, hst, (ha.mem halloc).1⟩
  · obtain ⟨c', hc', htxn⟩ := h.registry.writers t row space name i key hrow hst hkey hmem
    rw [← htxn, h.registry.entry_unique hkey hc hc']

theorem Registry.schemaCommitted_iff (hreg : Registry w) :
    w.store.SchemaCommitted space name i ↔ 1 ≤ i ∧ i ≤ w.store.schemaCount space name := by
  constructor
  · rintro ⟨key, hkey, hne⟩
    have hlength := hreg.documents space name i key hkey
    have hpos := List.length_pos_of_ne_nil hne
    by_contra hout
    rw [if_neg hout] at hlength
    omega
  · rintro ⟨hpos, hle⟩
    -- what is counted is indexed, so the name is valid
    have hidx : w.store.getSchemaIndex space name ≠ none := by
      intro hnone
      simp [Store.schemaCount, hnone] at hle
      omega
    obtain ⟨idx, hidx⟩ := Option.ne_none_iff_exists'.1 hidx
    obtain ⟨key₁, hkey₁⟩ := hreg.named space name idx hidx
    obtain ⟨key, hkey⟩ := schemaKey_any hkey₁ i
    have hlength := hreg.documents space name i key hkey
    rw [if_pos ⟨hpos, hle⟩] at hlength
    exact ⟨key, hkey, List.ne_nil_of_length_pos (by omega)⟩

/-- In every run of whole operations of the structured space whose registrations all find a version left, the
committed versions of a schema are those from `1` to `latest_version`; each document has one committed writer, and
neither its chain, its historical row nor what a lookup of it answers changes afterwards; and a lookup without a
version finds the highest one committed at its snapshot. -/
theorem schema_versions_contiguous (e : SpaceEnv) {hist : List (World × SpaceOp × World)} {w : World}
    (hrun : Run (SpaceOp.step e) {} hist w) (hleft : Numbered hist) (hlegible : Legible e hist) (space name : String) :
    (∀ i, w.store.SchemaCommitted space name i ↔ 1 ≤ i ∧ i ≤ w.store.schemaCount space name) ∧
    (∀ i key, schemaKey space name i = .ok key → (w.store.readChain key).entries ≠ [] →
      (∃! t, ∃ row, w.store.getTxnState t = some row ∧ row.status = .committed ∧ key ∈ row.writeKeys) ∧
      ∀ hist' w', Run (SpaceOp.step e) w hist' w' → Numbered hist' → Legible e hist' →
        (w'.store.readChain key).entries = (w.store.readChain key).entries ∧
        (∀ v : Nat, w'.store.recordVersions[((space, "_schema", schemaId name i), v)]? =
          w.store.recordVersions[((space, "_schema", schemaId name i), v)]?) ∧
        ∀ txnSnapshot snapshot, w.store.SchemaAt space name i (snapshot.getD txnSnapshot) → ∃ body,
          Space.getSchema e w txnSnapshot space name (some i) snapshot = .ok (some ⟨space, name, i, body⟩) ∧
          Space.getSchema e w' txnSnapshot space name (some i) snapshot = .ok (some ⟨space, name, i, body⟩)) ∧
    ∀ txnSnapshot snapshot,
      (∃ i body, w.store.SchemaAt space name i (snapshot.getD txnSnapshot) ∧
        (∀ j, w.store.SchemaAt space name j (snapshot.getD txnSnapshot) → j ≤ i) ∧
        Space.getSchema e w txnSnapshot space name none snapshot = .ok (some ⟨space, name, i, body⟩)) ∨
      ((∀ j, ¬ w.store.SchemaAt space name j (snapshot.getD txnSnapshot)) ∧
        Space.getSchema e w txnSnapshot space name none snapshot = .ok none) := by
  have h := (Cataloged.empty e).of_run hrun hleft hlegible
  refine ⟨fun i => h.registry.schemaCommitted_iff, fun i key hkey hne => ?_,
    fun txnSnapshot snapshot => h.registry.getSchema_latest h.structured h.shelved txnSnapshot space name snapshot⟩
  obtain ⟨c, hc⟩ := List.exists_mem_of_ne_nil _ hne
  refine ⟨h.writer hkey hc, fun hist' w' hrun' hleft' hlegible' => ?_⟩
  have h' := h.of_run hrun' hleft' hlegible'
  have hsame := h.sameDocument_run hrun' hleft' hlegible' hkey hc
  refine ⟨hsame.chain, hsame.row, fun txnSnapshot snapshot hat => ?_⟩
  obtain ⟨key', c', hkey', hc', hle⟩ := hat
  obtain rfl := Except.ok.inj (hkey.symm.trans hkey')
  rw [h.registry.entry_unique hkey hc' hc] at hle
  obtain ⟨text, body, hdoc, hbody, hget⟩ := h.registry.getSchema_version h.structured h.shelved txnSnapshot snapshot hkey hc hle
  obtain ⟨text', body', hdoc', hbody', hget'⟩ :=
    h'.registry.getSchema_version h'.structured h'.shelved txnSnapshot snapshot hkey (hsame.chain ▸ hc) hle
  obtain rfl := h'.shelved.document_unique hkey (hsame.document text hdoc) hdoc'
  obtain rfl := Except.ok.inj (hbody.symm.trans hbody')
  exact ⟨body, hget, hget'⟩

theorem legible_sample (hist : List (World × SpaceOp × World)) : Legible .sample hist := by
  have hparse : ∀ text, ∃ v, SpaceEnv.sample.fromSlice text = .ok v := by
    intro text
    simp only [SpaceEnv.sample]
    split
    · exact ⟨_, rfl⟩
    · split <;> exact ⟨_, rfl⟩
  intro x _ body _
  refine ⟨?_, hparse _⟩
  cases body <;> simp only [SpaceEnv.sample] <;> decide +kernel

theorem schema_versions_contiguous_two : ∃ hist w, Run (SpaceOp.step .sample) {} hist w ∧
    (∀ i, w.store.SchemaCommitted "s" "n" i ↔ 1 ≤ i ∧ i ≤ 2) ∧
    ∃ body, Space.getSchema .sample w 0 "s" "n" (some 2) (some 1) = .ok (some ⟨"s", "n", 2, body⟩) := by
  obtain ⟨w, hguarded, htest⟩ := Run.exists_of_exec (guarded SpaceOp.numbers (SpaceOp.step .sample)) {}
    [.request (.call (.begin "T" none 0)), .request (.registerSchema "T" "s" "n" .stringSchema),
      .request (.registerSchema "T" "s" "n" .stringSchema), .request (.commitTxn "T" fun _ => false)]
    (fun w => w.store.schemaCount "s" "n" = 2 ∧ (w.store.readChain "_xtable/s/_schema/n/v2.json").entries.any
      (·.commitVersion = 1)) (by decide +kernel)
  obtain ⟨hrun, hleft⟩ := hguarded.of_guarded
  have htest := of_decide_eq_true htest
  obtain ⟨c, hc, hcv⟩ := List.any_eq_true.1 htest.2
  have hkey : schemaKey "s" "n" 2 = .ok "_xtable/s/_schema/n/v2.json" := by decide +kernel
  obtain ⟨hcommitted, hdocs, -⟩ := schema_versions_contiguous .sample hrun hleft (legible_sample _) "s" "n"
  rw [htest.1] at hcommitted
  obtain ⟨-, hkept⟩ := hdocs 2 _ hkey (List.ne_nil_of_mem hc)
  obtain ⟨-, -, hget⟩ := hkept [] w .nil (by simp [Numbered]) (legible_sample _)
  obtain ⟨body, hbody, -⟩ := hget 0 (some 1) ⟨_, c, hkey, hc, (of_decide_eq_true hcv).le⟩
  exact ⟨_, w, hrun, hcommitted, body, hbody⟩

end Xtable

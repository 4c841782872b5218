import Xtable.Schema.Engine
import Xtable.Tx.Rebuild

/-! The segments of a structured key hold no slash, so a key determines its document, whichever parser takes it
    apart. -/

namespace Xtable

/-! ## Segments -/

theorem splitOnce_append {c : Char} {l : List Char} (hl : c ∉ l) (r : List Char) :
    splitOnce c (l ++ c :: r) = some (l, r) := by
  induction l with
  | nil => simp [splitOnce]
  | cons x l ih =>
    have hx : x ≠ c := fun hx => hl (by simp [hx])
    have hrest := ih fun hmem => hl (by simp [hmem])
    simp [splitOnce, hx, hrest]

theorem append_cons_inj {c : Char} {l l' r r' : List Char} (hl : c ∉ l) (hl' : c ∉ l')
    (h : l ++ c :: r = l' ++ c :: r') : l = l' ∧ r = r' := by
  have hsplit := splitOnce_append hl r
  rw [h, splitOnce_append hl' r'] at hsplit
  obtain ⟨rfl, rfl⟩ := Prod.mk.inj (Option.some.inj hsplit)
  exact ⟨rfl, rfl⟩

theorem not_isSafe_slash : isSafe '/' = false := by decide

theorem slash_not_mem_of_validateSegment {label seg : String} (h : validateSegment label seg = .ok ()) :
    '/' ∉ seg.toList := by
  unfold validateSegment at h
  split at h
  · cases h
  split at h
  · cases h
  split at h
  case isTrue hall =>
    intro hmem
    have hsafe := List.all_eq_true.1 hall '/' hmem
    rw [not_isSafe_slash] at hsafe
    cases hsafe
  case isFalse => cases h

theorem bind_ok_iff {ε α β : Type} {x : Except ε α} {f : α → Except ε β} {b : β} :
    (x >>= f) = .ok b ↔ ∃ a, x = .ok a ∧ f a = .ok b := by
  cases x with
  | error e | ok a => simp [bind, Except.bind]

/-- The parts of a record key. -/
structure RecordKeyOf (space table recordId key : String) : Prop where
  plainSpace : '/' ∉ space.toList
  plainTable : '/' ∉ table.toList
  plainId : '/' ∉ recordId.toList
  reserved : table ≠ "_schema"
  eq : key.toList = "_xtable/".toList ++ (space.toList ++ '/' :: (table.toList ++ '/' ::
    (recordId.toList ++ ".json".toList)))

theorem recordKeyOf_of_recordKey {space table recordId key : String} (h : recordKey space table recordId = .ok key) :
    RecordKeyOf space table recordId key := by
  simp only [recordKey, bind_ok_iff] at h
  obtain ⟨⟨⟩, hspace, ⟨⟩, htable, ⟨⟩, hid, h⟩ := h
  split at h
  · cases h
  case isFalse hreserved =>
    cases h
    refine ⟨slash_not_mem_of_validateSegment hspace, slash_not_mem_of_validateSegment htable,
      slash_not_mem_of_validateSegment hid, hreserved, ?_⟩
    simp [xtPrefix]

/-- The parts of the key of a schema document. -/
structure SchemaKeyOf (space name : String) (version : Nat) (key : String) : Prop where
  plainSpace : '/' ∉ space.toList
  plainName : '/' ∉ name.toList
  eq : key.toList = "_xtable/".toList ++ (space.toList ++ '/' :: ("_schema".toList ++ '/' ::
    (name.toList ++ '/' :: ('v' :: ((toString version).toList ++ ".json".toList)))))

theorem schemaKeyOf_of_schemaKey {space name key : String} {version : Nat} (h : schemaKey space name version = .ok key) :
    SchemaKeyOf space name version key := by
  simp only [schemaKey, bind_ok_iff] at h
  obtain ⟨⟨⟩, hspace, ⟨⟩, hname, h⟩ := h
  cases h
  refine ⟨slash_not_mem_of_validateSegment hspace, slash_not_mem_of_validateSegment hname, ?_⟩
  simp [xtPrefix, schemaSeg]

/-! ## Parsing -/

section Parsing

variable {space second table recordId name key : String} {version : Nat} {rest : List Char}

theorem key_split (hspace : '/' ∉ space.toList) (hsecond : '/' ∉ second.toList)
    (hkey : key.toList = "_xtable/".toList ++ (space.toList ++ '/' :: (second.toList ++ '/' :: rest))) :
    ∃ stripped afterSpace, key.toList.dropPrefix? "_xtable/".toList = some stripped ∧
      splitOnce '/' stripped = some (space.toList, afterSpace) ∧
      splitOnce '/' afterSpace = some (second.toList, rest) := by
  refine ⟨_, _, ?_, splitOnce_append hspace _, splitOnce_append hsecond _⟩
  rw [hkey]
  exact List.dropPrefix?_append_of_beq _ (by simp)

theorem dropSuffix?_append_self (l suffix : List Char) : (l ++ suffix).dropSuffix? suffix = some l :=
  List.dropSuffix?_eq_some_iff.2 ⟨suffix, rfl, by simp⟩

theorem parseRecordKey_record (h : RecordKeyOf space table recordId key) :
    parseRecordKey key = some (space, table, recordId) := by
  obtain ⟨stripped, afterSpace, hdrop, hspace, hsecond⟩ := key_split h.plainSpace h.plainTable h.eq
  simp only [parseRecordKey, hdrop, hspace, hsecond, Option.bind_eq_bind, Option.bind_some, String.ofList_toList,
    if_neg h.reserved, dropSuffix?_append_self]

/-- The memtable id of a schema document. -/
def schemaId (name : String) (version : Nat) : String := name ++ "/v" ++ toString version ++ ".json"

theorem SchemaKeyOf.eq_rest (h : SchemaKeyOf space name version key) :
    key.toList = "_xtable/".toList ++ (space.toList ++ '/' :: ("_schema".toList ++ '/' ::
      (schemaId name version).toList)) := by
  rw [h.eq]
  simp [schemaId]

theorem parseRecordKey_schema (h : SchemaKeyOf space name version key) :
    parseRecordKey key = some (space, "_schema", schemaId name version) := by
  obtain ⟨stripped, afterSpace, hdrop, hspace, hsecond⟩ := key_split h.plainSpace (by decide) h.eq_rest
  simp only [parseRecordKey, hdrop, hspace, hsecond, Option.bind_eq_bind, Option.bind_some, String.ofList_toList,
    if_true]

theorem schemaRecordKeyParts_schema (h : SchemaKeyOf space name version key) :
    Engine.schemaRecordKeyParts key = some (space, "_schema", schemaId name version) := by
  obtain ⟨stripped, afterSpace, hdrop, hspace, hsecond⟩ := key_split h.plainSpace (by decide) h.eq_rest
  simp only [Engine.schemaRecordKeyParts, hdrop, hspace, hsecond, Option.bind_eq_bind, Option.bind_some,
    String.ofList_toList, if_true]

end Parsing

/-! ## Keys determine documents -/

theorem schemaId_inj {name name' : String} {version version' : Nat} (hname : '/' ∉ name.toList)
    (hname' : '/' ∉ name'.toList) (h : schemaId name version = schemaId name' version') :
    name = name' ∧ version = version' := by
  have hlist : name.toList ++ '/' :: ('v' :: ((toString version).toList ++ ".json".toList)) =
      name'.toList ++ '/' :: ('v' :: ((toString version').toList ++ ".json".toList)) := by
    have hchars := congrArg String.toList h
    simpa [schemaId] using hchars
  obtain ⟨hn, hrest⟩ := append_cons_inj hname hname' hlist
  have hversion := List.append_cancel_right (List.cons.inj hrest).2
  exact ⟨String.toList_inj.1 hn, Nat.repr_inj.1 (String.toList_inj.1 hversion)⟩

theorem Rebuild.recordKey_inj {space space' table table' recordId recordId' : String}
    (hspace : '/' ∉ space.toList) (hspace' : '/' ∉ space'.toList) (htable : '/' ∉ table.toList)
    (htable' : '/' ∉ table'.toList)
    (h : Rebuild.recordKey space table recordId = Rebuild.recordKey space' table' recordId') :
    space = space' ∧ table = table' ∧ recordId = recordId' := by
  have hlist : space.toList ++ '/' :: (table.toList ++ '/' :: recordId.toList) =
      space'.toList ++ '/' :: (table'.toList ++ '/' :: recordId'.toList) := by
    have hchars := congrArg String.toList h
    simpa [Rebuild.recordKey] using hchars
  obtain ⟨hs, hrest⟩ := append_cons_inj hspace hspace' hlist
  obtain ⟨ht, hid⟩ := append_cons_inj htable htable' hrest
  exact ⟨String.toList_inj.1 hs, String.toList_inj.1 ht, String.toList_inj.1 hid⟩

end Xtable

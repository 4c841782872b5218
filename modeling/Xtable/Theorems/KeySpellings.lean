import Xtable.Theorems.SchemaVersions

/-! The builders of keys, the parsers of the structured layer and of the coordinator, and the ids of schema lookups
    agree on every document. The coordinator's parser is injective up to keys with an empty space and table. -/

namespace Xtable

/-! ## The parsers of the structured layer -/

theorem slash_not_mem_toString (v : Nat) : '/' ∉ (toString v).toList := by
  rw [Nat.toString_eq_ofList_toDigits, String.toList_ofList]
  intro hmem
  have hdigit := Nat.isDigit_of_mem_toDigits (by decide) (by decide) hmem
  revert hdigit
  decide

section Parsers

variable {space table recordId name key : String} {version : Nat}

theorem RecordKeyOf.splitOn (h : RecordKeyOf space table recordId key) :
    (key.toList.splitOn '/').map String.ofList = ["_xtable", space, table, recordId ++ ".json"] := by
  have hid : '/' ∉ recordId.toList ++ ".json".toList := by
    rw [List.mem_append, not_or]
    exact ⟨h.plainId, by decide⟩
  have hkey : key.toList = "_xtable".toList ++ '/' :: (space.toList ++ '/' :: (table.toList ++ '/' ::
      (recordId.toList ++ ".json".toList))) := h.eq
  rw [hkey, List.splitOn_append_cons_self_of_not_mem (by decide), List.splitOn_append_cons_self_of_not_mem h.plainSpace,
    List.splitOn_append_cons_self_of_not_mem h.plainTable, List.splitOn_eq_singleton hid]
  simp

theorem SchemaKeyOf.splitOn (h : SchemaKeyOf space name version key) : (key.toList.splitOn '/').map String.ofList =
    ["_xtable", space, "_schema", name, "v" ++ toString version ++ ".json"] := by
  have hlast : '/' ∉ 'v' :: ((toString version).toList ++ ".json".toList) := by
    rw [List.mem_cons, List.mem_append, not_or, not_or]
    exact ⟨by decide, slash_not_mem_toString version, by decide⟩
  have hkey : key.toList = "_xtable".toList ++ '/' :: (space.toList ++ '/' :: ("_schema".toList ++ '/' ::
      (name.toList ++ '/' :: ('v' :: ((toString version).toList ++ ".json".toList))))) := h.eq
  rw [hkey, List.splitOn_append_cons_self_of_not_mem (by decide), List.splitOn_append_cons_self_of_not_mem h.plainSpace,
    List.splitOn_append_cons_self_of_not_mem (by decide), List.splitOn_append_cons_self_of_not_mem h.plainName,
    List.splitOn_eq_singleton hlast]
  simp [← String.toList_inj]

theorem RecordKeyOf.parsed (h : RecordKeyOf space table recordId key) :
    Key.parseRecordKey key = some ⟨space, table, recordId⟩ ∧ Key.parseSchemaKey key = none := by
  constructor
  · simp [Key.parseRecordKey, h.splitOn, xtPrefix, schemaSeg, h.reserved, dropSuffix?_append_self]
  · simp [Key.parseSchemaKey, h.splitOn]

theorem SchemaKeyOf.parsed (h : SchemaKeyOf space name version key) (hversion : version < 2 ^ 32) :
    Key.parseSchemaKey key = some ⟨space, name, version⟩ ∧ Key.parseRecordKey key = none := by
  constructor
  · have hdrop : ("v" ++ toString version ++ ".json").toList.dropPrefix? ['v'] =
        some ((toString version).toList ++ ".json".toList) :=
      List.dropPrefix?_eq_some_iff.2 ⟨['v'], by simp, by simp⟩
    simp only [Key.parseSchemaKey, h.splitOn, xtPrefix, schemaSeg, and_self, if_true, hdrop, Option.bind_eq_bind,
      Option.bind_some, dropSuffix?_append_self, parseUnsigned_toString, if_pos hversion, Option.pure_def]
  · simp [Key.parseRecordKey, h.splitOn]

theorem recordKey_ok (hspace : validateSegment "space" space = .ok ()) (htable : validateSegment "table" table = .ok ())
    (hid : validateSegment "record_id" recordId = .ok ()) (hreserved : table ≠ schemaSeg) :
    ∃ key, recordKey space table recordId = .ok key := by
  simp only [recordKey, bind_ok_iff, if_neg hreserved]
  exact ⟨_, (), hspace, (), htable, (), hid, rfl⟩

theorem schemaKey_ok (hspace : validateSegment "space" space = .ok ()) (hname : validateSegment "name" name = .ok ())
    (version : Nat) : ∃ key, schemaKey space name version = .ok key := by
  simp only [schemaKey, bind_ok_iff]
  exact ⟨_, (), hspace, (), hname, rfl⟩

theorem schemaVersionOf_schemaRecordId {name' : String} (hname : '/' ∉ name.toList) (hname' : '/' ∉ name'.toList)
    (hversion : version < 2 ^ 32) :
    Space.schemaVersionOf name' (Space.schemaRecordId name version) = if name' = name then some version else none := by
  have hiff := fun i => schemaVersionOf_schemaId (i := i) (v := version) hname' hname
  split
  case isTrue heq => exact (hiff version).2 ⟨heq, rfl, hversion⟩
  case isFalse hne => exact Option.eq_none_iff_forall_ne_some.2 fun i hi => hne ((hiff i).1 hi).1

end Parsers

inductive Document where
  | record (space table recordId : String)
  | schema (space name : String) (version : Nat)

def Document.key : Document → Except XtableError String
  | record space table recordId => recordKey space table recordId
  | schema space name version => schemaKey space name version

theorem RecordKeyOf.not_schemaKeyOf {space table recordId space' name key : String} {version : Nat}
    (h : RecordKeyOf space table recordId key) (h' : SchemaKeyOf space' name version key) : False := by
  have hsame := (parseRecordKey_record h).symm.trans (parseRecordKey_schema h')
  obtain ⟨-, htable⟩ := Prod.mk.inj (Option.some.inj hsame)
  exact h.reserved (Prod.mk.inj htable).1

theorem Document.key_inj {d d' : Document} {key : String} (h : d.key = .ok key) (h' : d'.key = .ok key) : d = d' := by
  cases d with
  | record space table recordId =>
    have hk := recordKeyOf_of_recordKey h
    cases d' with
    | record space' table' recordId' =>
      have hsame := (parseRecordKey_record hk).symm.trans (parseRecordKey_record (recordKeyOf_of_recordKey h'))
      cases hsame
      rfl
    | schema space' name' version' => exact (hk.not_schemaKeyOf (schemaKeyOf_of_schemaKey h')).elim
  | schema space name version =>
    have hk := schemaKeyOf_of_schemaKey h
    cases d' with
    | record space' table' recordId' => exact ((recordKeyOf_of_recordKey h').not_schemaKeyOf hk).elim
    | schema space' name' version' =>
      have hk' := schemaKeyOf_of_schemaKey h'
      have hsame := (parseRecordKey_schema hk).symm.trans (parseRecordKey_schema hk')
      obtain ⟨rfl, hid⟩ := Prod.mk.inj (Option.some.inj hsame)
      obtain ⟨rfl, rfl⟩ := schemaId_inj hk.plainName hk'.plainName (Prod.mk.inj hid).2
      rfl

/-- The builders and the parsers agree on every key, and so do the lookups of schemas. -/
theorem key_spellings_agree :
    (∀ space table recordId, validateSegment "space" space = .ok () → validateSegment "table" table = .ok () →
      validateSegment "record_id" recordId = .ok () → table ≠ schemaSeg → ∃ key, recordKey space table recordId = .ok key ∧
      Key.parseRecordKey key = some ⟨space, table, recordId⟩ ∧ Key.parseSchemaKey key = none ∧
      parseRecordKey key = some (space, table, recordId)) ∧
    (∀ space name version, validateSegment "space" space = .ok () → validateSegment "name" name = .ok () →
      version < 2 ^ 32 → ∃ key, schemaKey space name version = .ok key ∧
      Key.parseSchemaKey key = some ⟨space, name, version⟩ ∧ Key.parseRecordKey key = none ∧
      parseRecordKey key = some (space, "_schema", Space.schemaRecordId name version) ∧
      Engine.schemaRecordKeyParts key = some (space, "_schema", Space.schemaRecordId name version) ∧
      ∀ name', validateSegment "name" name' = .ok () →
        Space.schemaVersionOf name' (Space.schemaRecordId name version) = if name' = name then some version else none) ∧
    ∀ d d' : Document, ∀ key, d.key = .ok key → d'.key = .ok key → d = d' := by
  refine ⟨?_, ?_, fun d d' key => Document.key_inj⟩
  · intro space table recordId hspace htable hid hreserved
    obtain ⟨key, hkey⟩ := recordKey_ok hspace htable hid hreserved
    have hof := recordKeyOf_of_recordKey hkey
    exact ⟨key, hkey, hof.parsed.1, hof.parsed.2, parseRecordKey_record hof⟩
  · intro space name version hspace hname hversion
    obtain ⟨key, hkey⟩ := schemaKey_ok hspace hname version
    have hof := schemaKeyOf_of_schemaKey hkey
    obtain ⟨hschema, hrecord⟩ := hof.parsed hversion
    refine ⟨key, hkey, hschema, hrecord, parseRecordKey_schema hof, schemaRecordKeyParts_schema hof, fun name' hname' => ?_⟩
    exact schemaVersionOf_schemaRecordId hof.plainName (slash_not_mem_of_validateSegment hname') hversion

/-- A record, and a schema document looked up under its own name and under another one. -/
theorem key_spellings_agree_small : (∃ key, recordKey "s" "t" "r" = .ok key ∧ Key.parseSchemaKey key = none ∧
      parseRecordKey key = some ("s", "t", "r")) ∧
    ∃ key, schemaKey "s" "n" 12 = .ok key ∧ Key.parseSchemaKey key = some ⟨"s", "n", 12⟩ ∧ Key.parseRecordKey key = none ∧
      Space.schemaVersionOf "n" (Space.schemaRecordId "n" 12) = some 12 ∧
      Space.schemaVersionOf "m" (Space.schemaRecordId "n" 12) = none := by
  obtain ⟨hrecords, hschemas, -⟩ := key_spellings_agree
  obtain ⟨key, hkey, -, hschema, hparse⟩ := hrecords "s" "t" "r" (by decide) (by decide) (by decide) (by decide)
  obtain ⟨key', hkey', hparse', hrecord', -, -, hname⟩ := hschemas "s" "n" 12 (by decide) (by decide) (by decide)
  exact ⟨⟨key, hkey, hschema, hparse⟩, key', hkey', hparse', hrecord', hname "n" (by decide), hname "m" (by decide)⟩

/-! ## Memtable keys -/

theorem splitOnce_eq_some {c : Char} {text left right : List Char} (h : splitOnce c text = some (left, right)) :
    text = left ++ c :: right ∧ c ∉ left := by
  induction text generalizing left with
  | nil => cases h
  | cons x xs ih =>
    rw [splitOnce] at h
    split at h
    case isTrue hx =>
      obtain ⟨rfl, rfl⟩ := Prod.mk.inj (Option.some.inj h)
      exact ⟨by rw [hx]; rfl, by simp⟩
    case isFalse hx =>
      obtain ⟨⟨rest, right'⟩, hrest, heq⟩ := Option.map_eq_some_iff.1 h
      obtain ⟨rfl, rfl⟩ := Prod.mk.inj heq
      obtain ⟨hxs, hnot⟩ := ih hrest
      refine ⟨by rw [hxs]; rfl, ?_⟩
      rw [List.mem_cons, not_or]
      exact ⟨fun hc => hx hc.symm, hnot⟩

/-- The key with these parts, any of which may be empty. -/
def partsKey (space table recordId : String) : String :=
  "_xtable/" ++ space ++ "/" ++ table ++ "/" ++ recordId ++ if table = "_schema" then "" else ".json"

theorem toList_partsKey (space table recordId : String) : (partsKey space table recordId).toList =
    "_xtable/".toList ++ (space.toList ++ '/' :: (table.toList ++ '/' ::
      (recordId.toList ++ if table = "_schema" then [] else ".json".toList))) := by
  unfold partsKey
  split <;> simp

theorem parseRecordKey_eq_some_iff {key space table recordId : String} : parseRecordKey key = some (space, table, recordId) ↔
    '/' ∉ space.toList ∧ '/' ∉ table.toList ∧ key = partsKey space table recordId := by
  constructor
  · intro h
    simp only [parseRecordKey, Option.bind_eq_bind, Option.bind_eq_some_iff] at h
    obtain ⟨stripped, hstripped, ⟨left, afterSpace⟩, hspace, ⟨second, rest⟩, hsecond, h⟩ := h
    dsimp only at hsecond h
    obtain ⟨pre, hkey, hpre⟩ := List.dropPrefix?_eq_some_iff.1 hstripped
    obtain rfl := eq_of_beq hpre
    obtain ⟨hstripped, hleft⟩ := splitOnce_eq_some hspace
    obtain ⟨hafter, hmiddle⟩ := splitOnce_eq_some hsecond
    rw [← String.toList_inj, toList_partsKey, hkey, hstripped, hafter]
    split at h
    case isTrue hschema =>
      cases h
      rw [← hschema]
      simp [hleft, hmiddle]
    case isFalse hschema =>
      obtain ⟨id, hid, h⟩ := Option.bind_eq_some_iff.1 h
      obtain ⟨suf, hrest, hsuf⟩ := List.dropSuffix?_eq_some_iff.1 hid
      obtain rfl := eq_of_beq hsuf
      cases h
      rw [hrest, if_neg hschema]
      simp [hleft, hmiddle]
  · rintro ⟨hspace, htable, hkey⟩
    obtain ⟨stripped, afterSpace, hdrop, hsplit, hsecond⟩ := key_split hspace htable
      ((congrArg String.toList hkey).trans (toList_partsKey ..))
    simp only [parseRecordKey, hdrop, hsplit, hsecond, Option.bind_eq_bind, Option.bind_some, String.ofList_toList]
    by_cases hschema : table = "_schema"
    · simp [hschema]
    · simp [hschema, dropSuffix?_append_self]

theorem parseRecordKey_inj {a b : String} {rk : RecordKey} (ha : parseRecordKey a = some rk) (hb : parseRecordKey b = some rk) :
    a = b :=
  (parseRecordKey_eq_some_iff.1 ha).2.2.trans (parseRecordKey_eq_some_iff.1 hb).2.2.symm

/-- A key with a space, a table and a record id. -/
def StructuredKey (key : String) : Prop :=
  ∃ space table recordId, '/' ∉ space.toList ∧ '/' ∉ table.toList ∧ key = partsKey space table recordId

theorem parseRecordKey_eq_none_iff {key : String} : parseRecordKey key = none ↔ ¬ StructuredKey key := by
  rw [Option.eq_none_iff_forall_ne_some, StructuredKey]
  simp only [← parseRecordKey_eq_some_iff]
  exact ⟨fun h ⟨_, _, _, hparse⟩ => h _ hparse, fun h _ hparse => h ⟨_, _, _, hparse⟩⟩

/-- The first key has an empty space and table and the other key as its record id, which is not a structured one. -/
def Shadows (a b : String) : Prop := a = "_xtable///" ++ b ++ ".json" ∧ ¬ StructuredKey b

theorem parseRecordKey_eq_fallback_iff {a b : String} :
    parseRecordKey a = some ("", "", b) ↔ a = "_xtable///" ++ b ++ ".json" := by
  simp [parseRecordKey_eq_some_iff, ← String.toList_inj, toList_partsKey]

theorem Shadows.memKey_eq {a b : String} (h : Shadows a b) : memKey a = memKey b := by
  rw [memKey, memKey, parseRecordKey_eq_fallback_iff.2 h.1, parseRecordKey_eq_none_iff.2 h.2, Option.getD_some,
    Option.getD_none]

theorem Shadows.ne {a b : String} (h : Shadows a b) : a ≠ b := by
  rintro rfl
  have hlength := congrArg String.length h.1
  simp only [String.length_append] at hlength
  have hpos : 0 < "_xtable///".length := by decide
  omega

/-- Two keys stay apart in the memtable exactly if neither of them shadows the other. -/
theorem memKey_injective_iff (a b : String) : (memKey a = memKey b → a = b) ↔ ¬ Shadows a b ∧ ¬ Shadows b a := by
  constructor
  · exact fun hinj => ⟨fun h => h.ne (hinj h.memKey_eq), fun h => h.ne (hinj h.memKey_eq.symm).symm⟩
  · rintro ⟨hab, hba⟩ h
    unfold memKey at h
    cases hpa : parseRecordKey a with
    | none =>
      cases hpb : parseRecordKey b with
      | none => simpa [hpa, hpb] using h
      | some rk =>
        rw [hpa, hpb] at h
        exact absurd ⟨parseRecordKey_eq_fallback_iff.1 (hpb.trans (congrArg some h.symm)), parseRecordKey_eq_none_iff.1 hpa⟩ hba
    | some rk =>
      cases hpb : parseRecordKey b with
      | none =>
        rw [hpa, hpb] at h
        exact absurd ⟨parseRecordKey_eq_fallback_iff.1 (hpa.trans (congrArg some h)), parseRecordKey_eq_none_iff.1 hpb⟩ hab
      | some rk' =>
        rw [hpa, hpb] at h
        obtain rfl : rk = rk' := h
        exact parseRecordKey_inj hpa hpb

/-- A key with an empty space and an empty table shares the memtable entry of a key of no structured shape. -/
theorem memKey_shadowed : memKey "_xtable///k.json" = memKey "k" ∧ "_xtable///k.json" ≠ "k" := by decide

end Xtable

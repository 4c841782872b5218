import Xtable.Theorems.Keys
import Xtable.Schema.Validation

/-! The meaning of a schema, keyword by keyword, stated apart from the checker: `Accepts`. The checker accepts a
    value exactly if the schema does. Keywords of the wrong kind say nothing, except for `oneOf` and `type`. -/

namespace Xtable

variable {schema value : Value} {path : String} {c : Validator}

namespace Validator

/-! ## The meaning of a schema -/

/-- The types of a value: an integer is a number as well. -/
inductive OfType : Value → String → Prop where
  | null : OfType .null "null"
  | boolean (b : Bool) : OfType (.bool b) "boolean"
  | posInt (n : Nat) : OfType (.number (.posInt n)) "integer"
  | negInt (n : Int) : OfType (.number (.negInt n)) "integer"
  | number (n : Number) : OfType (.number n) "number"
  | string (s : String) : OfType (.string s) "string"
  | array (items : List Value) : OfType (.array items) "array"
  | object (members : List (String × Value)) : OfType (.object members) "object"

theorem OfType.name_ne_empty {name : String} (h : OfType value name) : name ≠ "" := by
  cases h <;> decide

/-- What `type` says: one type, or a choice of types. -/
def HasType (value : Value) : Value → Prop
  | .string name => OfType value name
  | .array names => ∃ name, .string name ∈ names ∧ OfType value name
  | _ => False

section Keywords

variable (c : Validator) (accepts : Value → Value → Prop) (schema : Value)

/-- The keywords for objects. -/
@[mk_iff] structure MeetsObject (members : List (String × Value)) : Prop where
  required : ∀ names, schema.get "required" = some (.array names) → ∀ name, .string name ∈ names →
    ∃ v, (Value.object members).get name = some v
  properties : ∀ props, schema.get "properties" = some (.object props) → ∀ p ∈ props, ∀ v,
    (Value.object members).get p.1 = some v → accepts p.2 v
  /-- The keys that are not among the properties. -/
  additional : ∀ m ∈ members, (∀ props, schema.get "properties" = some (.object props) → m.1 ∉ props.map (·.1)) →
    schema.get "additionalProperties" ≠ some (.bool false) ∧
    ∀ sub, schema.get "additionalProperties" = some (.object sub) → accepts (.object sub) m.2

@[mk_iff] structure MeetsArray (items : List Value) : Prop where
  minItems : ∀ n, schema.get "minItems" = some (.number (.posInt n)) → n ≤ items.length
  maxItems : ∀ n, schema.get "maxItems" = some (.number (.posInt n)) → items.length ≤ n
  items : ∀ sub, schema.get "items" = some sub → ∀ v ∈ items, accepts sub v

@[mk_iff] structure MeetsString (s : String) : Prop where
  minLength : ∀ n, schema.get "minLength" = some (.number (.posInt n)) → n ≤ s.length
  maxLength : ∀ n, schema.get "maxLength" = some (.number (.posInt n)) → s.length ≤ n
  pattern : ∀ pat, schema.get "pattern" = some (.string pat) → ∃ isMatch, c.regex pat = .ok isMatch ∧ isMatch s = true

@[mk_iff] structure MeetsNumber (n : Number) : Prop where
  minimum : ∀ min, schema.get "minimum" = some (.number min) → min.asF64 ≤ n.asF64
  maximum : ∀ max, schema.get "maximum" = some (.number max) → n.asF64 ≤ max.asF64

/-- The keywords for the kind of value at hand. -/
def MeetsKind : Value → Prop
  | .object members => MeetsObject accepts schema members
  | .array items => MeetsArray accepts schema items
  | .string s => MeetsString c schema s
  | .number n => MeetsNumber schema n
  | _ => True

/-- A value meets every keyword of a schema, where `accepts` says which values the parts of the schema accept. -/
@[mk_iff] structure Meets (value : Value) : Prop where
  oneOf : ∀ v, schema.get "oneOf" = some v →
    ∃ alternatives, v = .array alternatives ∧ ∃! i : Fin alternatives.length, accepts (alternatives.get i) value
  type : ∀ t, schema.get "type" = some t → HasType value t
  const : ∀ v, schema.get "const" = some v → value.same v = true
  enum : ∀ items, schema.get "enum" = some (.array items) → ∃ v ∈ items, v.same value = true
  kind : MeetsKind c accepts schema value

end Keywords

/-- A schema accepts a value that meets its keywords, where its parts do as they say. -/
def Accepts (c : Validator) (schema value : Value) : Prop :=
  Meets c (fun sub v => ∃ _ : sub.depth < schema.depth, Accepts c sub v) schema value
termination_by schema.depth

/-! ## The checker, keyword by keyword -/

theorem forM_ok_iff {α : Type} {f : α → Outcome} {l : List α} : l.forM f = .ok () ↔ ∀ x ∈ l, f x = .ok () := by
  induction l with
  | nil =>
    refine ⟨fun _ x hx => ?_, fun _ => rfl⟩
    cases hx
  | cons x xs ih =>
    change (f x >>= fun _ => xs.forM f) = .ok () ↔ _
    rw [bind_ok_iff, List.forall_mem_cons, ih]
    exact ⟨fun ⟨_, hx, hxs⟩ => ⟨hx, hxs⟩, fun ⟨hx, hxs⟩ => ⟨(), hx, hxs⟩⟩

theorem seq_ok_iff {x y : Outcome} : (x >>= fun _ => y) = .ok () ↔ x = .ok () ∧ y = .ok () := by
  rw [bind_ok_iff]
  exact ⟨fun ⟨_, hx, hy⟩ => ⟨hx, hy⟩, fun ⟨hx, hy⟩ => ⟨(), hx, hy⟩⟩

theorem ite_ok_iff {b : Prop} [Decidable b] {e : ValidationError} : (if b then .ok () else .error e : Outcome) = .ok () ↔ b := by
  split <;> simp_all

theorem bounded_ok_iff {α : Type} {bound : Option α} {ok : α → Bool} {message : α → String} :
    bounded bound ok message path = .ok () ↔ ∀ b, bound = some b → ok b = true := by
  cases bound with
  | none => simp [bounded]
  | some b =>
    simp only [bounded, Option.some.injEq, forall_eq', ite_ok_iff]

theorem bind_eq_some_iff {α : Type} {keyword : String} {f : Value → Option α} {mk : α → Value}
    (hf : ∀ v a, f v = some a ↔ v = mk a) (a : α) :
    (schema.get keyword).bind f = some a ↔ schema.get keyword = some (mk a) := by
  rw [Option.bind_eq_some_iff]
  constructor
  · rintro ⟨v, hv, ha⟩
    rw [hv, (hf v a).1 ha]
  · exact fun hv => ⟨_, hv, (hf _ a).2 rfl⟩

theorem asArray_iff (v : Value) (items : List Value) : v.asArray = some items ↔ v = .array items := by
  cases v <;> simp [Value.asArray]

theorem asObject_iff (v : Value) (members : List (String × Value)) : v.asObject = some members ↔ v = .object members := by
  cases v <;> simp [Value.asObject]

theorem asStr_iff (v : Value) (s : String) : v.asStr = some s ↔ v = .string s := by
  cases v <;> simp [Value.asStr]

theorem asU64_iff (v : Value) (n : Nat) : v.asU64 = some n ↔ v = .number (.posInt n) := by
  cases v with
  | number m => cases m <;> simp [Value.asU64, Number.asU64]
  | _ => simp [Value.asU64]

theorem asNumber_iff (v : Value) (n : Number) : v.asNumber = some n ↔ v = .number n := by
  cases v <;> simp [Value.asNumber]

theorem typeSatisfies_iff {wants : String} : typeSatisfies (jsonType value) wants = true ↔ OfType value wants := by
  constructor
  · intro h
    simp only [typeSatisfies, Bool.or_eq_true, decide_eq_true_eq, Bool.and_eq_true] at h
    rcases h with rfl | ⟨rfl, hinteger⟩
    · cases value with
      | number n => cases n <;> constructor
      | _ => constructor
    · cases value with
      | number n => constructor
      | _ => simp [jsonType] at hinteger
  · intro h
    cases h with
    | number n => cases n <;> rfl
    | _ => rfl

theorem validateType_ok_iff :
    validateType schema value path = .ok () ↔ ∀ t, schema.get "type" = some t → HasType value t := by
  unfold validateType
  cases schema.get "type" with
  | none => simp
  | some t =>
    simp only [Option.some.injEq, forall_eq', ite_ok_iff]
    cases t with
    | string name => exact typeSatisfies_iff
    | array names =>
      simp only [List.any_eq_true, typeSatisfies_iff, HasType]
      constructor
      · rintro ⟨v, hv, htype⟩
        cases hstr : v.asStr with
        | none =>
          -- what is no string is taken for the empty name, which is no type
          rw [hstr] at htype
          exact absurd rfl htype.name_ne_empty
        | some name =>
          obtain rfl := (asStr_iff v name).1 hstr
          exact ⟨name, hv, htype⟩
      · rintro ⟨name, hname, htype⟩
        exact ⟨_, hname, htype⟩
    | _ => simp [HasType]

theorem validateConst_ok_iff :
    c.validateConst schema value path = .ok () ↔ ∀ v, schema.get "const" = some v → value.same v = true := by
  unfold validateConst
  cases schema.get "const" with
  | none => simp
  | some v => simp only [Option.some.injEq, forall_eq', ite_ok_iff]

theorem validateEnum_ok_iff :
    c.validateEnum schema value path = .ok () ↔
      ∀ items, schema.get "enum" = some (.array items) → ∃ v ∈ items, v.same value = true := by
  simp only [← bind_eq_some_iff asArray_iff]
  unfold validateEnum
  cases (schema.get "enum").bind Value.asArray with
  | none => simp
  | some items => simp only [Option.some.injEq, forall_eq', ite_ok_iff, List.any_eq_true]

theorem validateString_ok_iff {s : String} : c.validateString schema s path = .ok () ↔ MeetsString c schema s := by
  unfold validateString
  simp only [seq_ok_iff, bounded_ok_iff, bind_eq_some_iff asU64_iff, decide_eq_true_eq, meetsString_iff]
  refine and_congr Iff.rfl (and_congr Iff.rfl ?_)
  simp only [← bind_eq_some_iff asStr_iff]
  cases (schema.get "pattern").bind Value.asStr with
  | none => simp
  | some pat =>
    simp only [Option.some.injEq, forall_eq']
    cases c.regex pat with
    | error e | ok isMatch => simp

theorem validateNumber_ok_iff {n : Number} : c.validateNumber schema n path = .ok () ↔ MeetsNumber schema n := by
  unfold validateNumber
  simp only [seq_ok_iff, bounded_ok_iff, bind_eq_some_iff asNumber_iff, decide_eq_true_eq, meetsNumber_iff]

section Parts

variable {c : Validator} {inner : Value → Value → String → Outcome} {accepts : Value → Value → Prop} {schema : Value}
  (h : ∀ sub : Value, sub.depth < schema.depth → ∀ value path, inner sub value path = .ok () ↔ accepts sub value)

theorem isOk_iff {x : Outcome} : x.isOk = true ↔ x = .ok () := by
  cases x with
  | error e | ok u => simp [Except.isOk, Except.toBool]

theorem length_filter_eq_one_iff {α : Type} {p : α → Bool} {l : List α} :
    (l.filter p).length = 1 ↔ ∃! i : Fin l.length, p (l.get i) = true := by
  induction l with
  | nil => simp [ExistsUnique]
  | cons x xs ih =>
    have hnone : xs.filter p = [] ↔ ∀ i : Fin xs.length, p (xs.get i) = false := by
      simp [List.filter_eq_nil_iff, List.forall_mem_iff_get]
    by_cases hx : p x
    · simp [hx, ExistsUnique, Fin.exists_fin_succ, Fin.forall_fin_succ, List.length_eq_zero_iff, hnone,
        (Fin.succ_ne_zero _).symm]
    · rw [List.filter_cons_of_neg hx, ih]
      simp [hx, ExistsUnique, Fin.exists_fin_succ, Fin.forall_fin_succ]

theorem get_object (members : List (String × Value)) (key : String) :
    (Value.object members).get key = (members.find? fun m => m.1 = key).map (·.2) := rfl

theorem mem_propertyNames {key : String} : key ∉ propertyNames schema ↔
    ∀ props, schema.get "properties" = some (.object props) → key ∉ props.map (·.1) := by
  simp only [← bind_eq_some_iff asObject_iff]
  unfold propertyNames
  cases (schema.get "properties").bind Value.asObject <;> simp

include h

theorem validateOneOf_ok_iff :
    validateOneOf inner schema value path = .ok () ↔ ∀ v, schema.get "oneOf" = some v →
      ∃ alternatives, v = .array alternatives ∧ ∃! i : Fin alternatives.length, accepts (alternatives.get i) value := by
  unfold validateOneOf
  cases hget : schema.get "oneOf" with
  | none => simp
  | some oneOf =>
    simp only [Option.some.injEq, forall_eq', ← asArray_iff]
    cases harray : oneOf.asArray with
    | none => simp
    | some alternatives =>
      have hsub : ∀ i : Fin alternatives.length, (inner (alternatives.get i) value path).isOk = true ↔
          accepts (alternatives.get i) value := fun i =>
        isOk_iff.trans (h _ ((Value.depth_lt_of_asArray harray (List.get_mem ..)).trans (Value.depth_lt_of_get hget)) _ _)
      simp only [Option.some.injEq, exists_eq_left', ite_ok_iff, length_filter_eq_one_iff, hsub]

theorem validateArray_ok_iff {items : List Value} :
    validateArray inner schema items path = .ok () ↔ MeetsArray accepts schema items := by
  unfold validateArray
  simp only [seq_ok_iff, bounded_ok_iff, bind_eq_some_iff asU64_iff, decide_eq_true_eq, meetsArray_iff]
  refine and_congr Iff.rfl (and_congr Iff.rfl ?_)
  cases hget : schema.get "items" with
  | none => simp
  | some sub =>
    simp only [Option.some.injEq, forall_eq', forM_ok_iff, h sub (Value.depth_lt_of_get hget)]
    rw [List.forall_mem_zipIdx, List.forall_mem_iff_getElem]

theorem validateObject_ok_iff {map : List (String × Value)} :
    validateObject inner schema map path = .ok () ↔ MeetsObject accepts schema map := by
  unfold validateObject
  simp only [seq_ok_iff, meetsObject_iff]
  refine and_congr ?_ (and_congr ?_ ?_)
  · simp only [← bind_eq_some_iff asArray_iff]
    cases (schema.get "required").bind Value.asArray with
    | none => exact iff_of_true rfl (by simp)
    | some names =>
      simp only [Option.some.injEq, forall_eq', Option.getD_some, forM_ok_iff]
      constructor
      · intro hall name hname
        have hname := ite_ok_iff.1 (hall _ hname)
        obtain ⟨m, hm⟩ := Option.isSome_iff_exists.1 hname
        exact ⟨m.2, by rw [get_object, hm, Option.map_some]⟩
      · intro hall r hr
        cases hstr : r.asStr with
        | none => rfl
        | some name =>
          obtain rfl := (asStr_iff r name).1 hstr
          obtain ⟨v, hv⟩ := hall name hr
          rw [get_object, Option.map_eq_some_iff] at hv
          obtain ⟨m, hm, -⟩ := hv
          exact ite_ok_iff.2 (by rw [hm, Option.isSome_some])
  · simp only [← bind_eq_some_iff asObject_iff]
    cases hprops : (schema.get "properties").bind Value.asObject with
    | none => exact iff_of_true rfl (by simp)
    | some props =>
      obtain ⟨v, hget, hobject⟩ := Option.bind_eq_some_iff.1 hprops
      simp only [Option.some.injEq, forall_eq', Option.getD_some, forM_ok_iff]
      refine forall₂_congr fun p hp => ?_
      have hinner := h p.2 ((Value.depth_lt_of_asObject hobject hp).trans (Value.depth_lt_of_get hget))
      rw [get_object]
      cases map.find? fun m => m.1 = p.1 with
      | none => simp
      | some m => simp [hinner]
  · simp only [← mem_propertyNames]
    cases hget : schema.get "additionalProperties" with
    | none => simp
    | some extra =>
      cases extra with
      | bool b =>
        cases b with
        | false =>
          simp only [forM_ok_iff, ite_ok_iff]
          simp
        | true => simp
      | object members =>
        simp only [forM_ok_iff, Option.some.injEq, Value.object.injEq, forall_eq', ne_eq, reduceCtorEq, not_false_eq_true,
          true_and]
        refine forall₂_congr fun m _ => ?_
        have hinner := h (.object members) (Value.depth_lt_of_get hget) m.2 (path ++ "." ++ m.1)
        by_cases hnamed : m.1 ∈ propertyNames schema
        · simp [hnamed]
        · simp [hnamed, hinner]
      | _ => simp

end Parts

/-! ## The checker as a whole -/

section Congr

variable {c : Validator} {accepts accepts' : Value → Value → Prop} {schema value : Value}
  (h : ∀ sub : Value, sub.depth < schema.depth → ∀ v, accepts sub v ↔ accepts' sub v)

include h

theorem MeetsKind.of_parts (hkind : MeetsKind c accepts schema value) : MeetsKind c accepts' schema value := by
  cases value with
  | object members =>
    refine { hkind with properties := fun props hprops p hp v hv => ?_, additional := fun m hm hnamed => ?_ }
    · have hlt := (Value.depth_lt_of_mem_members hp).trans (Value.depth_lt_of_get hprops)
      exact (h p.2 hlt v).1 (hkind.properties props hprops p hp v hv)
    · obtain ⟨hne, hsub⟩ := hkind.additional m hm hnamed
      exact ⟨hne, fun sub hget => (h _ (Value.depth_lt_of_get hget) _).1 (hsub sub hget)⟩
  | array items =>
    exact { hkind with items := fun sub hget v hv => (h sub (Value.depth_lt_of_get hget) v).1 (hkind.items sub hget v hv) }
  | _ => exact hkind

theorem Meets.of_parts (hmeets : Meets c accepts schema value) : Meets c accepts' schema value := by
  refine { hmeets with oneOf := fun v hget => ?_, kind := hmeets.kind.of_parts h }
  obtain ⟨alternatives, rfl, hone⟩ := hmeets.oneOf v hget
  refine ⟨alternatives, rfl, (existsUnique_congr fun i => ?_).1 hone⟩
  exact h _ ((Value.depth_lt_of_mem_items (List.get_mem ..)).trans (Value.depth_lt_of_get hget)) value

end Congr

theorem accepts_iff : c.Accepts schema value ↔ Meets c c.Accepts schema value := by
  have hguard : ∀ sub : Value, sub.depth < schema.depth → ∀ v,
      (∃ _ : sub.depth < schema.depth, c.Accepts sub v) ↔ c.Accepts sub v :=
    fun sub hsub v => ⟨fun ⟨_, hv⟩ => hv, fun hv => ⟨hsub, hv⟩⟩
  rw [Accepts]
  exact ⟨Meets.of_parts hguard, Meets.of_parts fun sub hsub v => (hguard sub hsub v).symm⟩

theorem validateInner_ok_iff {fuel : Nat} (hfuel : schema.depth < fuel) :
    c.validateInner fuel schema value path = .ok () ↔ c.Accepts schema value := by
  induction fuel generalizing schema value path with
  | zero => omega
  | succ fuel ih =>
    have hinner : ∀ sub : Value, sub.depth < schema.depth → ∀ value path,
        c.validateInner fuel sub value path = .ok () ↔ c.Accepts sub value := fun sub hsub _ _ => ih (by omega)
    rw [accepts_iff, meets_iff]
    unfold validateInner
    simp only [seq_ok_iff]
    refine and_congr (validateOneOf_ok_iff hinner) (and_congr validateType_ok_iff
      (and_congr validateConst_ok_iff (and_congr validateEnum_ok_iff ?_)))
    cases value with
    | object map => exact validateObject_ok_iff hinner
    | array items => exact validateArray_ok_iff hinner
    | string s => exact validateString_ok_iff
    | number n => exact validateNumber_ok_iff
    | _ => simp [MeetsKind]

theorem missingRequired_of_ok (h : c.Accepts schema value) : missingRequired schema value = [] := by
  have hkind := (accepts_iff.1 h).kind
  unfold missingRequired
  cases value with
  | object members =>
    cases hreq : (schema.get "required").bind Value.asArray with
    | none => rfl
    | some names =>
      have hrequired := hkind.required names ((bind_eq_some_iff asArray_iff names).1 hreq)
      refine List.filterMap_eq_nil_iff.2 fun r hr => ?_
      cases hstr : r.asStr with
      | none => rfl
      | some name =>
        obtain rfl := (asStr_iff r name).1 hstr
        obtain ⟨v, hv⟩ := hrequired name hr
        rw [get_object, Option.map_eq_some_iff] at hv
        obtain ⟨m, hm, -⟩ := hv
        simp [hm]
  | _ => rfl

/-- The validator accepts what the schema accepts, and collects no error exactly then. -/
theorem validate_iff_accepts (c : Validator) (schema value : Value) :
    (c.validate schema value = .ok () ↔ c.Accepts schema value) ∧
      (c.Accepts schema value ↔ Meets c c.Accepts schema value) ∧
      (c.validateCollect schema value = [] ↔ c.validate schema value = .ok ()) := by
  have hvalidate : c.validate schema value = .ok () ↔ c.Accepts schema value := validateInner_ok_iff (Nat.lt_succ_self _)
  refine ⟨hvalidate, accepts_iff, ?_⟩
  unfold validateCollect
  cases hv : c.validate schema value with
  | ok u =>
    have hnone := missingRequired_of_ok (hvalidate.1 hv)
    simp [hnone]
  | error e =>
    simp only [reduceCtorEq, iff_false]
    split
    · simp
    · assumption

end Validator

end Xtable

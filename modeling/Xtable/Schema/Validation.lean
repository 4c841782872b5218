import Xtable.Schema.Value

/-! `validate` checks a value against a schema, a subset of JSON Schema, and stops at the first failure. The
    recursion follows the schema, so its depth is the fuel. -/

namespace Xtable

/-! ## Numbers

A finite `f64` is a multiple of `2^-1074`; it is represented by that multiple, which keeps comparisons exact.
-/

/-- The value of a finite `f64`, times `2^1074`. -/
def f64Scaled (bits : UInt64) : Int :=
  let n := bits.toNat
  let exponent : Nat := n / 2 ^ 52 % 2 ^ 11
  let fraction : Nat := n % 2 ^ 52
  let magnitude : Nat := if exponent = 0 then fraction else (2 ^ 52 + fraction) * 2 ^ (exponent - 1)
  if n / 2 ^ 63 = 0 then (magnitude : Int) else -(magnitude : Int)

/-- An integer as an `f64`: the nearest one, ties to even. -/
def roundToF64 (n : Nat) : Nat :=
  let unit := 2 ^ (Nat.log2 n - 52)
  let quotient := n / unit
  let rest := n % unit
  if unit < 2 * rest ∨ (2 * rest = unit ∧ quotient % 2 = 1) then (quotient + 1) * unit else quotient * unit

/-- `Number::as_f64`, times `2^1074`. -/
def Number.asF64 : Number → Int
  | posInt n => (roundToF64 n : Int) * 2 ^ 1074
  | negInt n => -((roundToF64 n.natAbs : Int) * 2 ^ 1074)
  | float bits => f64Scaled bits

/-- `Number::as_u64`; no float is one, whatever its value. -/
def Number.asU64 : Number → Option Nat
  | posInt n => some n
  | _ => none

/-- Equality of numbers: integers and floats are never equal, floats are compared by value. -/
def Number.same : Number → Number → Bool
  | posInt a, posInt b => a = b
  | negInt a, negInt b => a = b
  | float a, float b => f64Scaled a = f64Scaled b
  | _, _ => false

namespace Value

/-! ## Values -/

/-- The member of an object under a key. -/
def get (key : String) : Value → Option Value
  | object members => (members.find? fun m => m.1 = key).map (·.2)
  | _ => none

/-- The items of an array. -/
def asArray : Value → Option (List Value)
  | array items => some items
  | _ => none

/-- The members of an object. -/
def asObject : Value → Option (List (String × Value))
  | object members => some members
  | _ => none

/-- The text of a string. -/
def asStr : Value → Option String
  | string s => some s
  | _ => none

/-- The bounds on lengths are read so: a float or a negative bound is not checked. -/
def asU64 : Value → Option Nat
  | number n => n.asU64
  | _ => none

/-- The bounds on numbers are read so. -/
def asNumber : Value → Option Number
  | number n => some n
  | _ => none

mutual

/-- `Value::eq`. -/
def same : Value → Value → Bool
  | null, null => true
  | bool a, bool b => a = b
  | number a, number b => a.same b
  | string a, string b => a = b
  | array a, array b => sameItems a b
  | object a, object b => sameMembers a b
  | _, _ => false

/-- Arrays are equal item by item. -/
def sameItems : List Value → List Value → Bool
  | [], [] => true
  | a :: as, b :: bs => a.same b && sameItems as bs
  | _, _ => false

/-- Members are in key order, so equal objects have them in the same places. -/
def sameMembers : List (String × Value) → List (String × Value) → Bool
  | [], [] => true
  | (k, a) :: as, (l, b) :: bs => k = l && a.same b && sameMembers as bs
  | _, _ => false

end

mutual

/-- How deep a value is nested. -/
def depth : Value → Nat
  | array items => depthItems items + 1
  | object members => depthMembers members + 1
  | _ => 0

/-- The depth of the deepest item. -/
def depthItems : List Value → Nat
  | [] => 0
  | v :: vs => max v.depth (depthItems vs)

/-- The depth of the deepest member. -/
def depthMembers : List (String × Value) → Nat
  | [] => 0
  | (_, v) :: ms => max v.depth (depthMembers ms)

end

end Value

/-! ## Validation -/

/-- A failure, and the place in the value where it was found. -/
structure ValidationError where
  path : String
  message : String
  deriving DecidableEq, Repr

/-- As the error prints, within the message of a refused upsert. -/
def ValidationError.display (e : ValidationError) : String := "at `" ++ e.path ++ "`: " ++ e.message

/-- What a validation takes from elsewhere: the texts of values and floats in its messages, and `regex`. -/
structure Validator where
  jsonText : Value → String
  f64Text : Number → String
  regex : String → Except String (String → Bool)

namespace Validator

/-- The first failure, if there is one. -/
abbrev Outcome : Type := Except ValidationError Unit

/-- The type of a value; a number is an integer unless it is a float. -/
def jsonType : Value → String
  | .null => "null"
  | .bool _ => "boolean"
  | .number (.float _) => "number"
  | .number _ => "integer"
  | .string _ => "string"
  | .array _ => "array"
  | .object _ => "object"

/-- The `type` of a schema, as the message about it shows it. -/
def jsonTypeLabel : Value → String
  | .string s => s
  | .array items => "|".intercalate (items.filterMap Value.asStr)
  | _ => "?"

/-- The names that `properties` lists. -/
def propertyNames (schema : Value) : List String :=
  (((schema.get "properties").bind Value.asObject).map fun members => members.map (·.1)).getD []

/-- Exactly one alternative of `oneOf` matches. -/
def validateOneOf (inner : Value → Value → String → Outcome) (schema value : Value) (path : String) : Outcome :=
  match schema.get "oneOf" with
  | none => .ok ()
  | some oneOf =>
    match oneOf.asArray with
    | none => .error ⟨path, "`oneOf` must be an array"⟩
    | some alternatives =>
      let matchCount := (alternatives.filter fun sub => (inner sub value path).isOk).length
      if matchCount = 1 then .ok ()
      else .error ⟨path, "`oneOf` must match exactly one schema (matched " ++ toString matchCount ++ ")"⟩

/-- An integer satisfies `number`. -/
def typeSatisfies (actual wants : String) : Bool := actual = wants || (wants = "number" && actual = "integer")

/-- `type` is a name or a list of names; anything else matches no value. -/
def validateType (schema value : Value) (path : String) : Outcome :=
  match schema.get "type" with
  | none => .ok ()
  | some t =>
    let actual := jsonType value
    let ok := match t with
      | .string s => typeSatisfies actual s
      | .array items => items.any fun v => typeSatisfies actual (v.asStr.getD "")
      | _ => false
    if ok then .ok ()
    else .error ⟨path, "expected type `" ++ jsonTypeLabel t ++ "`, got `" ++ actual ++ "`"⟩

/-- The value equals `const`. -/
def validateConst (c : Validator) (schema value : Value) (path : String) : Outcome :=
  match schema.get "const" with
  | none => .ok ()
  | some v => if value.same v then .ok () else .error ⟨path, "must equal constant " ++ c.jsonText v⟩

/-- The value equals an item of `enum`; an `enum` that is no array is not checked. -/
def validateEnum (c : Validator) (schema value : Value) (path : String) : Outcome :=
  match (schema.get "enum").bind Value.asArray with
  | none => .ok ()
  | some items =>
    if items.any fun v => v.same value then .ok ()
    else .error ⟨path, "must be one of " ++ c.jsonText (.array items)⟩

/-- A bound that is given must be met. -/
def bounded {α : Type} (bound : Option α) (ok : α → Bool) (message : α → String) (path : String) : Outcome :=
  match bound with
  | none => .ok ()
  | some b => if ok b then .ok () else .error ⟨path, message b⟩

/-- `required`, then `properties`, then `additionalProperties`: `false`, or a schema for the others. -/
def validateObject (inner : Value → Value → String → Outcome) (schema : Value) (map : List (String × Value))
    (path : String) : Outcome := do
  (((schema.get "required").bind Value.asArray).getD []).forM fun r =>
    match r.asStr with
    | none => .ok ()
    | some name =>
      if (map.find? fun m => m.1 = name).isSome then .ok ()
      else .error ⟨path ++ "." ++ name, "missing required property `" ++ name ++ "`"⟩
  (((schema.get "properties").bind Value.asObject).getD []).forM fun p =>
    match map.find? fun m => m.1 = p.1 with
    | none => .ok ()
    | some m => inner p.2 m.2 (path ++ "." ++ p.1)
  match schema.get "additionalProperties" with
  | none => .ok ()
  | some (.bool false) =>
    map.forM fun m =>
      if m.1 ∈ propertyNames schema then .ok ()
      else .error ⟨path ++ "." ++ m.1, "additional property `" ++ m.1 ++ "` not allowed"⟩
  | some (.object members) =>
    map.forM fun m =>
      if m.1 ∈ propertyNames schema then .ok () else inner (.object members) m.2 (path ++ "." ++ m.1)
  | some _ => .ok ()

/-- The bounds on the length, then every item against `items`. -/
def validateArray (inner : Value → Value → String → Outcome) (schema : Value) (items : List Value) (path : String) :
    Outcome := do
  bounded ((schema.get "minItems").bind Value.asU64) (· ≤ items.length)
    (fun min => "array too short (min " ++ toString min ++ ")") path
  bounded ((schema.get "maxItems").bind Value.asU64) (items.length ≤ ·)
    (fun max => "array too long (max " ++ toString max ++ ")") path
  match schema.get "items" with
  | none => .ok ()
  | some sub => items.zipIdx.forM fun x => inner sub x.1 (path ++ "[" ++ toString x.2 ++ "]")

/-- Lengths count characters; a pattern that does not compile is a failure. -/
def validateString (c : Validator) (schema : Value) (s : String) (path : String) : Outcome := do
  bounded ((schema.get "minLength").bind Value.asU64) (· ≤ s.length)
    (fun min => "string too short (min " ++ toString min ++ ")") path
  bounded ((schema.get "maxLength").bind Value.asU64) (s.length ≤ ·)
    (fun max => "string too long (max " ++ toString max ++ ")") path
  match (schema.get "pattern").bind Value.asStr with
  | none => .ok ()
  | some pat =>
    match c.regex pat with
    | .error e => .error ⟨path, "bad `pattern` regex: " ++ e⟩
    | .ok isMatch => if isMatch s then .ok () else .error ⟨path, "does not match pattern `" ++ pat ++ "`"⟩

/-- The bounds include their ends, and are compared as floats. -/
def validateNumber (c : Validator) (schema : Value) (n : Number) (path : String) : Outcome := do
  bounded ((schema.get "minimum").bind Value.asNumber) (·.asF64 ≤ n.asF64)
    (fun min => "number < minimum " ++ c.f64Text min) path
  bounded ((schema.get "maximum").bind Value.asNumber) (n.asF64 ≤ ·.asF64)
    (fun max => "number > maximum " ++ c.f64Text max) path

/-- `validate_inner`, with a fuel above the depth of the schema. -/
def validateInner (c : Validator) : Nat → Value → Value → String → Outcome
  | 0, _, _, path => .error ⟨path, ""⟩
  | fuel + 1, schema, value, path => do
    validateOneOf (validateInner c fuel) schema value path
    validateType schema value path
    c.validateConst schema value path
    c.validateEnum schema value path
    match value with
    | .object map => validateObject (validateInner c fuel) schema map path
    | .array items => validateArray (validateInner c fuel) schema items path
    | .string s => c.validateString schema s path
    | .number n => c.validateNumber schema n path
    | _ => .ok ()

/-- The path of the whole value is empty. -/
def validate (c : Validator) (schema value : Value) : Outcome := c.validateInner (schema.depth + 1) schema value ""

/-- The required properties an object lacks, each as an error. -/
def missingRequired (schema value : Value) : List ValidationError :=
  match value.asObject, (schema.get "required").bind Value.asArray with
  | some map, some required => required.filterMap fun r => do
    let name ← r.asStr
    if (map.find? fun m => m.1 = name).isSome then none
    else some ⟨"." ++ name, "missing required property `" ++ name ++ "`"⟩
  | _, _ => []

/-- `validate` with every missing property, or the first other failure. -/
def validateCollect (c : Validator) (schema value : Value) : List ValidationError :=
  let errs := missingRequired schema value
  if errs = [] then
    match c.validate schema value with
    | .ok _ => []
    | .error e => [e]
  else errs

end Validator

/-! ## Fuel

`validate_inner` calls itself on parts of the schema, so any fuel above the depth of the schema gives the same outcome.
-/

namespace Value

theorem depth_lt_of_mem_items {v : Value} {items : List Value} (h : v ∈ items) : v.depth < (array items).depth := by
  have hle : v.depth ≤ depthItems items := by
    induction items with
    | nil => cases h
    | cons u us ih =>
      rcases List.mem_cons.1 h with rfl | h
      · exact le_max_left ..
      · exact (ih h).trans (le_max_right ..)
  exact Nat.lt_succ_of_le hle

theorem depth_lt_of_mem_members {m : String × Value} {members : List (String × Value)} (h : m ∈ members) :
    m.2.depth < (object members).depth := by
  have hle : m.2.depth ≤ depthMembers members := by
    induction members with
    | nil => cases h
    | cons n ns ih =>
      rcases List.mem_cons.1 h with rfl | h
      · exact le_max_left ..
      · exact (ih h).trans (le_max_right ..)
  exact Nat.lt_succ_of_le hle

theorem depth_lt_of_get {v u : Value} {k : String} (h : v.get k = some u) : u.depth < v.depth := by
  cases v with
  | object members =>
    obtain ⟨m, hm, rfl⟩ := Option.map_eq_some_iff.1 h
    exact depth_lt_of_mem_members (List.mem_of_find?_eq_some hm)
  | _ => cases h

theorem depth_lt_of_asArray {v u : Value} {items : List Value} (h : v.asArray = some items) (hu : u ∈ items) :
    u.depth < v.depth := by
  cases v with
  | array items' =>
    cases h
    exact depth_lt_of_mem_items hu
  | _ => cases h

theorem depth_lt_of_asObject {v : Value} {members : List (String × Value)} {m : String × Value}
    (h : v.asObject = some members) (hm : m ∈ members) : m.2.depth < v.depth := by
  cases v with
  | object members' =>
    cases h
    exact depth_lt_of_mem_members hm
  | _ => cases h

end Value

namespace Validator

section Fuel

variable {inner inner' : Value → Value → String → Outcome} {schema : Value}
  (h : ∀ sub : Value, sub.depth < schema.depth → ∀ value path, inner sub value path = inner' sub value path)

theorem forM_congr {α : Type} {f g : α → Outcome} {l : List α} (hfg : ∀ x ∈ l, f x = g x) : l.forM f = l.forM g := by
  induction l with
  | nil => rfl
  | cons x xs ih =>
    have hxs := ih fun y hy => hfg y (by simp [hy])
    change (f x >>= fun _ => xs.forM f) = (g x >>= fun _ => xs.forM g)
    rw [hfg x (by simp), hxs]

include h

theorem validateOneOf_congr (value : Value) (path : String) :
    validateOneOf inner schema value path = validateOneOf inner' schema value path := by
  unfold validateOneOf
  cases hget : schema.get "oneOf" with
  | none => rfl
  | some oneOf =>
    cases harray : oneOf.asArray with
    | none => simp only [harray]
    | some alternatives =>
      have hsame : alternatives.filter (fun sub => (inner sub value path).isOk) =
          alternatives.filter fun sub => (inner' sub value path).isOk :=
        List.filter_congr fun sub hsub => by
          rw [h sub ((Value.depth_lt_of_asArray harray hsub).trans (Value.depth_lt_of_get hget))]
      simp only [harray, hsame]

theorem validateObject_congr (map : List (String × Value)) (path : String) :
    validateObject inner schema map path = validateObject inner' schema map path := by
  have hproperties : ∀ p ∈ ((schema.get "properties").bind Value.asObject).getD [],
      (match map.find? fun m => m.1 = p.1 with
        | none => .ok ()
        | some m => inner p.2 m.2 (path ++ "." ++ p.1) : Outcome) =
      match map.find? fun m => m.1 = p.1 with
        | none => .ok ()
        | some m => inner' p.2 m.2 (path ++ "." ++ p.1) := by
    intro p hp
    cases hprops : (schema.get "properties").bind Value.asObject with
    | none => simp [hprops] at hp
    | some members =>
      obtain ⟨v, hv, hobject⟩ := Option.bind_eq_some_iff.1 hprops
      have hp : p ∈ members := by simpa [hprops] using hp
      have hlt := (Value.depth_lt_of_asObject hobject hp).trans (Value.depth_lt_of_get hv)
      split
      · rfl
      · rw [h p.2 hlt]
  unfold validateObject
  rw [forM_congr hproperties]
  cases hget : schema.get "additionalProperties" with
  | none => rfl
  | some extra =>
    cases extra with
    | object members =>
      have hlt := Value.depth_lt_of_get hget
      simp only [h _ hlt]
    | bool b => cases b <;> rfl
    | _ => rfl

theorem validateArray_congr (items : List Value) (path : String) :
    validateArray inner schema items path = validateArray inner' schema items path := by
  unfold validateArray
  cases hget : schema.get "items" with
  | none => rfl
  | some sub => simp only [h sub (Value.depth_lt_of_get hget)]

end Fuel

theorem validateInner_fuel (c : Validator) {schema : Value} {fuel fuel' : Nat} (h : schema.depth < fuel)
    (h' : schema.depth < fuel') (value : Value) (path : String) :
    c.validateInner fuel schema value path = c.validateInner fuel' schema value path := by
  induction fuel generalizing fuel' schema value path with
  | zero => omega
  | succ fuel ih =>
    cases fuel' with
    | zero => omega
    | succ fuel' =>
      have hinner : ∀ sub : Value, sub.depth < schema.depth → ∀ value path,
          c.validateInner fuel sub value path = c.validateInner fuel' sub value path :=
        fun sub hsub value path => ih (by omega) (by omega) value path
      unfold validateInner
      rw [validateOneOf_congr hinner]
      cases value with
      | object map => simp only [validateObject_congr hinner]
      | array items => simp only [validateArray_congr hinner]
      | _ => rfl

end Validator

end Xtable

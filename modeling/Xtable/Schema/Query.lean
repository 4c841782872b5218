import Xtable.Lib.Comparison
import Xtable.Schema.Validation

/-! A query filters the bodies of records, sorts them by one field, and cuts a page out of them. -/

namespace Xtable

/-- A record as it is visible at a snapshot. -/
structure Record where
  space : String
  table : String
  recordId : String
  body : Value
  schemaVersion : Nat
  commitVersion : Nat
  deleted : Bool

/-! ## Fields -/

/-- `str::split` at a character. -/
def splitAll (c : Char) : List Char → List (List Char)
  | [] => [[]]
  | x :: xs =>
    if x = c then [] :: splitAll c xs
    else match splitAll c xs with
      | [] => [[x]]
      | segment :: rest => (x :: segment) :: rest

namespace Value

def lookupSegment : Value → List Char → Option Value
  | object members, segment => (object members).get (String.ofList segment)
  | array items, segment => (parseUnsigned (2 ^ 64) segment).bind fun i => items[i]?
  | _, _ => none

def lookup (body : Value) (field : String) : Option Value := (splitAll '.' field.toList).foldlM lookupSegment body

/-- The comparison of sorting and of the range filters. Values of other pairs of kinds are equal. -/
def cmp : Value → Value → Ordering
  | null, null => .eq
  | null, _ => .lt
  | _, null => .gt
  | bool a, bool b => compare a b
  | number a, number b => compare a.asF64 b.asF64
  | string a, string b => compare a b
  | array a, array b => compare a.length b.length
  | _, _ => .eq

end Value

/-! ## Filters -/

inductive Filter where
  | eq (field : String) (value : Value)
  | ne (field : String) (value : Value)
  | gt (field : String) (value : Value)
  | ge (field : String) (value : Value)
  | lt (field : String) (value : Value)
  | le (field : String) (value : Value)
  | contains (field value : String)
  | exists (field : String)

def Filter.matches (body : Value) : Filter → Bool
  | eq field value => (body.lookup field).any (·.same value)
  | ne field value => !(body.lookup field).any (·.same value)
  | gt field value => (body.lookup field).any (·.cmp value = .gt)
  | ge field value => (body.lookup field).any (·.cmp value ≠ .lt)
  | lt field value => (body.lookup field).any (·.cmp value = .lt)
  | le field value => (body.lookup field).any (·.cmp value ≠ .gt)
  | contains field value => ((body.lookup field).bind Value.asStr).any fun s => decide (value.toList <:+: s.toList)
  | .exists field => (body.lookup field).isSome

/-! ## Queries -/

inductive OrderDir where
  | asc
  | desc
  deriving DecidableEq, Repr

structure OrderBy where
  field : String
  dir : OrderDir

namespace OrderBy

/-- Missing fields come first. -/
def compareFields : Option Value → Option Value → Ordering
  | none, none => .eq
  | none, some _ => .lt
  | some _, none => .gt
  | some a, some b => a.cmp b

def compareRecords (ob : OrderBy) (a b : Record) : Ordering :=
  let ord := compareFields (a.body.lookup ob.field) (b.body.lookup ob.field)
  match ob.dir with
  | .asc => ord
  | .desc => ord.swap

end OrderBy

/-- `slice::sort_by`. By a comparison that orders the elements it sorts them, and keeps the order of equal ones; by any other it
brings them into some order or panics. -/
structure SortBy where
  sort : (Record → Record → Ordering) → List Record → Option (List Record)
  stable : ∀ cmp l, PreorderOn (· ∈ l) cmp → sort cmp l = some (l.insertionSort fun a b => cmp a b ≠ .gt)
  perm : ∀ cmp l l', sort cmp l = some l' → l'.Perm l

/-- Insertion sort, whatever the comparison. -/
def SortBy.insertion : SortBy where
  sort cmp l := some (l.insertionSort fun a b => cmp a b ≠ .gt)
  stable _ _ _ := rfl
  perm cmp l _ h := Option.some.inj h ▸ List.perm_insertionSort (fun a b => cmp a b ≠ .gt) l

structure Query where
  filters : List Filter := []
  orderBy : Option OrderBy := none
  limit : Option Nat := none
  offset : Nat := 0
  includeDeleted : Bool := false

namespace Query

def selects (q : Query) (r : Record) : Bool := (q.includeDeleted || !r.deleted) && q.filters.all (Filter.matches r.body)

/-- The records in the order of the query, unless the sort panics. -/
def sorted (slice : SortBy) (q : Query) (records : List Record) : Option (List Record) :=
  match q.orderBy with
  | none => some records
  | some ob => slice.sort ob.compareRecords records

def page (q : Query) (records : List Record) : List Record :=
  let rest := records.drop (min q.offset records.length)
  match q.limit with
  | none => rest
  | some n => rest.take n

def run (slice : SortBy) (q : Query) (records : List Record) : Option (List Record) :=
  (q.sorted slice (records.filter q.selects)).map q.page

end Query

structure QueryResult where
  snapshotVersion : Nat
  records : List Record
  totalMatched : Nat

end Xtable

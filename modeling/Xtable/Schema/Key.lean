import Xtable.Core

/-! Keys of the structured layer: records under `_xtable/<space>/<table>/<record_id>.json`, schema documents under
    `_xtable/<space>/_schema/<name>/v<N>.json`. -/

namespace Xtable

def xtPrefix : String := "_xtable"

def schemaSeg : String := "_schema"

def isSafe (c : Char) : Bool :=
  c.isAlphanum || c == '.' || c == '_' || c == '-' || c == ':'

def validateSegment (label seg : String) : Except XtableError Unit :=
  if seg = "" then .error (.invalidArgument (label ++ " must be non-empty"))
  else if 128 < seg.utf8ByteSize then .error (.invalidArgument (label ++ " too long (max 128)"))
  else if seg.toList.all isSafe then .ok ()
  else .error (.invalidArgument
    (label ++ " contains invalid characters (allowed: alnum, '.', '_', '-')"))

def schemaKey (space name : String) (version : Nat) : Except XtableError String := do
  validateSegment "space" space
  validateSegment "name" name
  return xtPrefix ++ "/" ++ space ++ "/" ++ schemaSeg ++ "/" ++ name ++ "/v" ++ toString version ++ ".json"

def recordKey (space table recordId : String) : Except XtableError String := do
  validateSegment "space" space
  validateSegment "table" table
  validateSegment "record_id" recordId
  if table = schemaSeg then .error (.invalidArgument ("table name `" ++ schemaSeg ++ "` is reserved"))
  else return xtPrefix ++ "/" ++ space ++ "/" ++ table ++ "/" ++ recordId ++ ".json"

/-! ## Parsing -/

structure SchemaKeyParts where
  space : String
  name : String
  version : Nat
  deriving DecidableEq, Repr

structure RecordKeyParts where
  space : String
  table : String
  recordId : String
  deriving DecidableEq, Repr

namespace Key

def parseSchemaKey (key : String) : Option SchemaKeyParts :=
  match (key.toList.splitOn '/').map String.ofList with
  | [first, space, seg, name, last] =>
    if first = xtPrefix ∧ seg = schemaSeg then do
      let stripped ← last.toList.dropPrefix? ['v']
      let vStr ← stripped.dropSuffix? ".json".toList
      let version ← parseUnsigned (2 ^ 32) vStr
      return ⟨space, name, version⟩
    else none
  | _ => none

def parseRecordKey (key : String) : Option RecordKeyParts :=
  match (key.toList.splitOn '/').map String.ofList with
  | [first, space, table, last] =>
    if first = xtPrefix ∧ table ≠ schemaSeg then do
      let recordId ← last.toList.dropSuffix? ".json".toList
      return ⟨space, table, String.ofList recordId⟩
    else none
  | _ => none

end Key

end Xtable

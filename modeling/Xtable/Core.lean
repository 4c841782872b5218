import Xtable.Lib.Table

/-! Identifiers, transaction status, errors. Versions and WAL sequence numbers are `u64` counters that only grow by
    one; they are natural numbers here. `u64::MAX` in the sense of "none" is `⊤`. -/

namespace Xtable

abbrev Bytes : Type := List UInt8

def utf8 (s : String) : Bytes := s.toUTF8.data.toList

/-- A memtable and record-index key: `(space, table, record_id)`. -/
abbrev RecordKey : Type := String × String × String

instance instTransOrdPairKey : Std.TransOrd (String × String) := inferInstance

instance instTransOrdRecordKey : Std.TransOrd RecordKey := inferInstance

instance instTransOrdRecordVersionKey : Std.TransOrd (RecordKey × Nat) := inferInstance

/-- Cut a text at the first `c`; `none` when there is none. -/
def splitOnce (c : Char) : List Char → Option (List Char × List Char)
  | [] => none
  | x :: xs => if x = c then some ([], xs) else (splitOnce c xs).map fun r => (x :: r.1, r.2)

/-- `str::parse` on an unsigned integer below a bound: an optional `+` and digits. -/
def parseUnsigned (bound : Nat) (text : List Char) : Option Nat :=
  let digits := match text with
    | '+' :: rest => rest
    | text => text
  let n := Nat.ofDigitChars 10 digits 0
  if digits ≠ [] ∧ digits.all Char.isDigit ∧ n < bound then some n else none

inductive TxnStatus where
  | active
  | committing
  | committed
  | aborted
  deriving DecidableEq, Repr

namespace TxnStatus

/-- The `Debug` text, as it stands in error messages. -/
def debug : TxnStatus → String
  | active => "Active"
  | committing => "Committing"
  | committed => "Committed"
  | aborted => "Aborted"

/-- No transition leaves a terminal status. -/
def Terminal (s : TxnStatus) : Prop := s = committed ∨ s = aborted

instance (s : TxnStatus) : Decidable s.Terminal := inferInstanceAs (Decidable (_ ∨ _))

end TxnStatus

inductive XtableError where
  | invalidArgument (msg : String)
  | notFound (msg : String)
  | conflict (msg : String)
  | txnExpired (msg : String)
  | unknownTxn (msg : String)
  | unauthorized (msg : String)
  | forbidden (msg : String)
  | storage (msg : String)
  | backend (msg : String)
  | io (msg : String)
  | serde (msg : String)
  | internal (msg : String)
  | notImplemented (msg : String)
  deriving DecidableEq, Repr

/-- The `Display` text of an error. -/
def XtableError.display : XtableError → String
  | invalidArgument m => "invalid argument: " ++ m
  | notFound m => "not found: " ++ m
  | conflict m => "conflict: " ++ m
  | txnExpired m => "transaction expired: " ++ m
  | unknownTxn m => "unknown transaction: " ++ m
  | unauthorized m => "unauthorized: " ++ m
  | forbidden m => "forbidden: " ++ m
  | storage m => "storage error: " ++ m
  | backend m => "backend error: " ++ m
  | io m => "io error: " ++ m
  | serde m => "serialization error: " ++ m
  | internal m => "internal error: " ++ m
  | notImplemented m => "not implemented: " ++ m

inductive TxnError where
  | conflict (keys : String)
  | aborted (reason : String)
  | expired
  | unknownTxn (id : String)
  | backend (msg : String)
  | storage (msg : String)
  | invalidState (msg : String)
  deriving DecidableEq, Repr

/-- `From<TxnError> for XtableError`. -/
def TxnError.into : TxnError → XtableError
  | conflict k => .conflict ("conflict on keys: " ++ k)
  | aborted reason => .conflict ("aborted: " ++ reason)
  | expired => .txnExpired "txn expired"
  | unknownTxn id => .unknownTxn id
  | backend s => .backend s
  | storage s => .storage s
  | invalidState s => .internal ("invalid state: " ++ s)

end Xtable

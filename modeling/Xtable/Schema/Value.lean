import Xtable.Core

/-! JSON values. Object members are in the order in which `serde_json` iterates them. -/

namespace Xtable

inductive Number where
  | posInt (n : Nat)
  | negInt (n : Int)
  | float (bits : UInt64)
  deriving DecidableEq, Repr

inductive Value where
  | null
  | bool (b : Bool)
  | number (n : Number)
  | string (s : String)
  | array (items : List Value)
  | object (members : List (String × Value))

def Value.isObject : Value → Bool
  | object _ => true
  | _ => false

end Xtable

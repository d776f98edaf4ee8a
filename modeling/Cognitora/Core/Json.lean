/-
  JSON values as `serde_json::Value` has them, with the accessors the crates use. The texts of
  numbers and the order of an object's fields are not kept apart.
-/

namespace Cognitora.Core

inductive Json where
  | null
  | bool (b : Bool)
  | uint (n : UInt64)
  | int (n : Int64)
  | float (x : Float)
  | str (s : String)
  | arr (items : List Json)
  | obj (fields : List (String × Json))

namespace Json

/-- `Value::get` with a field name. -/
def get (v : Json) (field : String) : Option Json :=
  match v with
  | .obj fields => fields.lookup field
  | _ => none

def asStr : Json → Option String
  | .str s => some s
  | _ => none

def asArray : Json → Option (List Json)
  | .arr items => some items
  | _ => none

def asU64 : Json → Option UInt64
  | .uint n => some n
  | _ => none

def asF64 : Json → Option Float
  | .uint n => some n.toFloat
  | .int n => some n.toFloat
  | .float x => some x
  | _ => none

end Json

end Cognitora.Core

/-
  The authenticated principal and what its scopes grant (cgn-auth `src/lib.rs`).

  Scopes are plain texts: `model:<pattern>` restricts models, `tenant:<id>` names the tenant,
  `tpm:<n>` and `budget:<n>` are token limits. `limit` takes the first scope of the name whose
  rest parses as a `u64`; one that does not parse is skipped.
-/
import Mathlib.Algebra.Ring.Nat
import Mathlib.Data.List.Basic

namespace Cognitora.Auth

/-- `str::strip_prefix`. -/
def strip (start s : String) : Option String :=
  if start.toList.isPrefixOf s.toList then some (String.ofList (s.toList.drop start.length))
  else none

/-- `str::strip_suffix('*')`. -/
def stripStar (s : String) : Option String :=
  if s.toList.getLast? = some '*' then some (String.ofList s.toList.dropLast) else none

def digitsValue (digits : List Char) : Nat :=
  digits.foldl (fun v c => 10 * v + (c.toNat - '0'.toNat)) 0

/-- `str::parse::<u64>`: decimal digits, at least one, after an optional plus sign. -/
def parseU64 (s : String) : Option Nat :=
  let digits := match s.toList with
    | '+' :: rest => rest
    | cs => cs
  if digits.isEmpty || !digits.all Char.isDigit || 2 ^ 64 ≤ digitsValue digits then none
  else some (digitsValue digits)

inductive PrincipalKind where
  | apiKey
  | oidc
  | anonymous
  deriving DecidableEq

structure Principal where
  subject : String
  scopes : List String
  kind : PrincipalKind

namespace Principal

def hasScope (p : Principal) (scope : String) : Bool :=
  p.scopes.any fun s => s == scope || s == "*"

/-- Whether a `model:` pattern covers the model. -/
def covers (pattern model : String) : Bool :=
  match stripStar pattern with
  | some start => start.toList.isPrefixOf model.toList
  | none => pattern == model

/-- No `model:` scope means any model. -/
def allowsModel (p : Principal) (model : String) : Bool :=
  let patterns := p.scopes.filterMap (strip "model:")
  patterns.any (covers · model) || patterns.isEmpty || p.hasScope "*"

/-- The `tenant:` scope, else the subject; anonymous callers have none. -/
def tenant (p : Principal) : String :=
  if p.kind = .anonymous then "" else (p.scopes.findSome? (strip "tenant:")).getD p.subject

/-- Numeric policy scope such as `tpm:60000`. -/
def limit (p : Principal) (name : String) : Option Nat :=
  p.scopes.findSome? fun s => (strip name s).bind fun t => (strip ":" t).bind parseU64

end Principal

example :
    (⟨"k", ["budget:oops", "tpm:60000", "budget:+12"], .apiKey⟩ : Principal).limit "budget" =
      some 12 := by
  decide +kernel

end Cognitora.Auth

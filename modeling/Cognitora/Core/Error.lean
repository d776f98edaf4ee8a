/-
  The error type all crates share (cgn-core `src/error.rs`), with the text of the source of a
  wrapped error in its place.
-/

namespace Cognitora.Core

inductive Error where
  | io (e : String)
  | config (e : String)
  | toml (e : String)
  | json (e : String)
  | tls (e : String)
  | transport (e : String)
  | status (e : String)
  | etcd (e : String)
  | gossip (e : String)
  | invalidArgument (e : String)
  | notFound (e : String)
  | unavailable (e : String)
  | internal (e : String)
  | other (e : String)
  deriving DecidableEq

namespace Error

/-- The `Display` text. -/
def text : Error → String
  | .io e => "io: " ++ e
  | .config e => "config: " ++ e
  | .toml e => "toml: " ++ e
  | .json e => "json: " ++ e
  | .tls e => "tls: " ++ e
  | .transport e => "transport: " ++ e
  | .status e => "rpc: " ++ e
  | .etcd e => "etcd: " ++ e
  | .gossip e => "gossip: " ++ e
  | .invalidArgument e => "invalid argument: " ++ e
  | .notFound e => "not found: " ++ e
  | .unavailable e => "unavailable: " ++ e
  | .internal e => "internal: " ++ e
  | .other e => e

end Error

/-- A computation that stops at its first error has gone through all of its steps if it returns a
    value. -/
theorem bind_eq_ok {ε α β : Type} {x : Except ε α} {f : α → Except ε β} {b : β} :
    x >>= f = .ok b ↔ ∃ a, x = .ok a ∧ f a = .ok b := by
  cases x with
  | error e => simp [bind, Except.bind]
  | ok a => simp [bind, Except.bind]

end Cognitora.Core

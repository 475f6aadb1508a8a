import Mathlib.Data.List.Basic

/-!
# Processes, references and the callers of a server

Identifiers of the Erlang runtime that a server model mentions: process identifiers, unique
references, and the `from` of a `GenServer.call`, which pairs the calling process with a
reference that no other call carries.  Fresh references are drawn from a counter in the state.
-/

namespace QuickBeam.Lib

abbrev Pid := ℕ

abbrev Ref := ℕ

/-- The `from` argument of `handle_call`: the calling process and the tag of its call. -/
structure From where
  owner : Pid
  tag : Ref
deriving DecidableEq, Repr

end QuickBeam.Lib

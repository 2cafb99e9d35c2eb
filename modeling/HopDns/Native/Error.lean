import HopDns.ForStd.Method

/-!
# The errors of the library

`crate::Error`, and the memory a fallible function asks for: the crate allocates
through `try_reserve` only, so each allocation is one request that may be refused.
-/

namespace HopDns

open ForStd

/-- What can go wrong in the core of hopdns. -/
inductive Error where
  | outOfMemory
  | help
  | unknownFlag (pos : Nat)
  | missingValue (pos : Nat)
  | unexpectedArgument (pos : Nat)
  | noPeer
  | badListen
  | badPeer
  | yaml (line : Nat)
  | noClusterName
  | badName
  | noRoom
  | malformed
deriving DecidableEq, Repr

/-- A function that allocates, and so may fail. -/
abbrev Fallible (α : Type) := Method Error Mem α

/-- `try_reserve` and `try_reserve_exact`, with `From<TryReserveError> for Error`. -/
def tryReserve : Fallible Unit := Mem.request .outOfMemory

/-- `x` comes to `r`, unless memory runs out. -/
abbrev Yields (x : Fallible α) (r : Except Error α) : Prop := Computes Error.outOfMemory x r

/-- A `&mut self` method that allocates comes to `r` and leaves `s'`, unless memory runs
    out, and then it leaves `s` as it was. -/
abbrev Commits (x : Method Error (σ × Mem) α) (s : σ) (r : Except Error α) (s' : σ) : Prop :=
  Atomic Error.outOfMemory x s r s'

theorem tryReserve_yields : Yields tryReserve (.ok ()) := Computes.request

/-- The value of an option that has one. -/
theorem okOr_yields {α : Type} {o : Option α} {a : α} (h : o = some a) (e : Error) :
    Yields (Method.okOr o e) (.ok a) := by
  rw [h]
  exact Computes.okOr (some a) e

end HopDns

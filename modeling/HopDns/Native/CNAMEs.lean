import HopDns.Native.Table

/-!
# The table of static CNAMEs

`cnames::CNAMEs`: exact names and wildcards. Keys are in lower case and without a
dot at the end; a target is a full name, with one.
-/

namespace HopDns

open ForStd

/-- `server::in_zone`: whether `name` lies in `zone`, or is it. -/
def inZone (name zone : Str) : Bool :=
  name == zone ||
    (decide (zone.length < name.length) && zone.isSuffixOf name &&
      name[name.length - zone.length - 1]? == some dot)

/-- The static CNAMEs. -/
structure CNAMEs where
  exact : Table Str
  wildcard : Table Str
deriving DecidableEq

/-- `cnames::key_of` -/
def keyOf (name : Str) : Fallible Str := do
  let t := stripDot (trim name)
  tryReserve
  return lowercase t

/-- `cnames::fqdn` -/
def fqdn (name : Str) : Fallible Str := do
  let t := trim name
  tryReserve
  -- a dot at the end makes the name a full one
  return if t.getLast? = some dot then t else t ++ [dot]

/-- `key.strip_prefix("*.")` -/
def stripStar (key : Str) : Option Str :=
  match key with
  | b₀ :: b₁ :: parent => if b₀ = 0x2A ∧ b₁ = dot then some parent else none
  | _ => none

/-- `cnames::lower_into`: in lower case, if it fits the 256 bytes on the stack. -/
def lowerInto (s : Str) : Option Str := if s.length ≤ 256 then some (lowercase s) else none

namespace CNAMEs

/-- `CNAMEs::default` -/
def default : CNAMEs := ⟨Table.new, Table.new⟩

/-- One turn of the loop of `CNAMEs::new`. -/
def add (c : CNAMEs) (pair : Str × Str) : Fallible CNAMEs := do
  let key ← keyOf pair.1
  -- the pair is passed over, the table stays what it was
  if key.isEmpty || (trim pair.2).isEmpty then
    return c
  else
    let target ← fqdn pair.2
    match stripStar key with
    | some parent =>
      -- a star alone is a name like any other
      if !parent.isEmpty then
        let wildcard ← (Table.insert parent target).onLocal c.wildcard
        return { c with wildcard }
      else
        let exact ← (Table.insert key target).onLocal c.exact
        return { c with exact }
    | none =>
      let exact ← (Table.insert key target).onLocal c.exact
      return { c with exact }

/-- A table of the pairs of a name and its target. -/
def new (pairs : List (Str × Str)) : Fallible CNAMEs := pairs.foldlM add default

/-- The wildcard of the nearest parent of `name` that has one. -/
def lookupWildcard (c : CNAMEs) (name : Str) : Option Str :=
  -- one label up at a time, so that the first hit is the longest parent
  match _h : name.splitOnce dot with
  | none => none
  | some (_, rest) =>
    if rest.isEmpty then none
    else
      match c.wildcard.get rest with
      | some v => some v
      | none => lookupWildcard c rest
termination_by name.length
decreasing_by
  obtain ⟨rfl, -⟩ := List.splitOnce_eq_some _h
  simp only [List.length_append, List.length_cons]
  omega

/-- The target of `name`, in any case and with or without a dot at its end. -/
def lookup (c : CNAMEs) (name : Str) : Option Str := do
  -- a name too long for the stack is in no table
  let lower ← lowerInto (stripDot name)
  match c.exact.get lower with
  | some v => some v
  | none => c.lookupWildcard lower

/-- The exact names, each without its first label. -/
def exactZones (c : CNAMEs) : List Str :=
  c.exact.iter.filterMap fun row => (row.1.splitOnce dot).map (·.2)

/-- The parents of the wildcards. -/
def wildcardZones (c : CNAMEs) : List Str := c.wildcard.iter.map (·.1)

/-- The zones, each one once. -/
def zones (c : CNAMEs) : Fallible (List Str) :=
  ((c.exactZones.filter fun z => !z.isEmpty) ++ c.wildcardZones).foldlM
    (fun out z => do
      if out.contains z then
        return out
      else
        tryReserve
        return out ++ [z]) []

/-- `Iterator::max_by_key` on the length: the last of the longest. -/
def maxByLen (l : List Str) : Option Str :=
  l.foldl (fun best z =>
    match best with
    | none => some z
    -- the later one on a tie, as `max_by_key` has it
    | some b => if b.length ≤ z.length then some z else some b) none

/-- The longest zone `name` lies in. -/
def zoneOf (c : CNAMEs) (name : Str) : Option Str :=
  maxByLen ((c.exactZones ++ c.wildcardZones).filter fun z => !z.isEmpty && inZone name z)

end CNAMEs

end HopDns

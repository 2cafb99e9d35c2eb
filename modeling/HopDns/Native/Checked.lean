import Mathlib.Algebra.Ring.Nat
import HopDns.Native.Decode

/-!
# Reading an answer, with the arithmetic checked

`wire::decode` with what it calls once more, and every sum written out as one on a
`usize`: a sum that does not fit ends the run. The functions of the other model count
in `Nat`, where nothing overflows.
-/

namespace HopDns

open ForStd

/-- What ends a run: an error of the library, or a sum that overflows. -/
inductive Fault where
  | error (e : Error)
  | overflow
deriving DecidableEq, Repr

/-- A function whose sums are checked. -/
abbrev Checked (α : Type) := Method Fault Mem α

namespace Checked

/-- `a + b` on a `usize` of `w` bits. -/
def add (w a b : Nat) : Checked Nat :=
  if a + b < 2 ^ w then pure (a + b) else Method.throw .overflow

/-- `try_reserve` -/
def tryReserve : Checked Unit := Mem.request (.error .outOfMemory)

/-- `wire::be16` -/
def be16 (w : Nat) (b : List UInt8) (pos : Nat) : Checked (Option UInt16) := do
  match b[pos]? with
  | none => return none
  | some b₀ =>
    let p ← add w pos 1
    return b[p]?.map (UInt16.ofBytesBE b₀)

/-- `wire::be32` -/
def be32 (w : Nat) (b : List UInt8) (pos : Nat) : Checked (Option UInt32) := do
  match b[pos]? with
  | none => return none
  | some b₀ =>
    let p ← add w pos 1
    match b[p]? with
    | none => return none
    | some b₁ =>
      let p ← add w pos 2
      match b[p]? with
      | none => return none
      | some b₂ =>
        let p ← add w pos 3
        return b[p]?.map (UInt32.ofBytesBE b₀ b₁ b₂)

/-- The loop of `skip_name`. -/
def skipName (w : Nat) (msg : List UInt8) (pos : Nat) : Checked (Option Nat) :=
  match _h : msg[pos]? with
  | none => pure none
  | some b =>
    if b.toNat = 0 then do
      let e ← add w pos 1
      return some e
    else if b.toNat ≤ 63 then do
      let step ← add w 1 b.toNat
      -- the sum that the loop goes on with
      let _ ← add w pos step
      skipName w msg (pos + 1 + b.toNat)
    else if 0xC0 ≤ b.toNat then do
      let p ← add w pos 1
      match msg[p]? with
      | none => return none
      | some _ =>
        let e ← add w pos 2
        return some e
    else pure none
termination_by msg.length - pos
decreasing_by
  have := (List.getElem?_eq_some_iff.mp _h).1
  omega

/-- The loop of `read_name`. -/
def readNameFrom (w : Nat) (msg : List UInt8) (name : Str) (pos : Nat) (stop : Option Nat) :
    Checked (Str × Nat) :=
  match msg[pos]? with
  | none => Method.throw (.error .malformed)
  | some b =>
    if b.toNat = 0 then
      if name.isEmpty then do
        tryReserve
        let e ← add w pos 1
        return ([dot], stop.getD e)
      else do
        let e ← add w pos 1
        return (name, stop.getD e)
    else if b.toNat ≤ 63 then do
      let p ← add w pos 1
      let e ← add w p b.toNat
      let label ← Method.okOr (msg.getRange? p e) (.error .malformed)
      let _ ← add w label.length 1
      tryReserve
      let longer := name ++ label.flatMap charFrom ++ [dot]
      if _h : longer.length > NAME_MAX then Method.throw (.error .malformed)
      else do
        let step ← add w 1 b.toNat
        -- the sum that the loop goes on with
        let _ ← add w pos step
        readNameFrom w msg longer (pos + 1 + b.toNat) stop
    else if 0xC0 ≤ b.toNat then do
      match ← be16 w msg pos with
      | none => Method.throw (.error .malformed)
      | some v =>
        let target := (v &&& 0x3FFF).toNat
        -- a pointer leads backward, or the message is refused
        if _h : target ≥ pos then Method.throw (.error .malformed)
        else do
          -- the end is computed at every pointer, and kept at the first
          let e ← add w pos 2
          readNameFrom w msg name target (some (stop.getD e))
    else Method.throw (.error .malformed)
termination_by (NAME_MAX - name.length, pos)
decreasing_by
  · simp only [longer, List.length_append, List.length_cons, List.length_nil] at _h ⊢
    exact Prod.Lex.left _ _ (by omega)
  · exact Prod.Lex.right _ (by omega)

/-- `wire::read_name` -/
def readName (w : Nat) (msg : List UInt8) (pos : Nat) : Checked (Str × Nat) :=
  readNameFrom w msg [] pos none

/-- A number that has to be there. -/
def need {α : Type} (x : Checked (Option α)) : Checked α := do
  Method.okOr (← x) (.error .malformed)

/-- The part of `wire::read_record` that reads the data. -/
def readData (w : Nat) (msg : List UInt8) (type : UInt16) (rd : Nat) (rdata : List UInt8) :
    Checked Rdata :=
  if type = rtype.A then
    match rdata with
    | [a, b, c, d] => pure (Rdata.a ⟨a, b, c, d⟩)
    | _ => Method.throw (.error .malformed)
  else if type = rtype.CNAME then do
    let (target, _) ← readName w msg rd
    pure (Rdata.cname target)
  else if type = rtype.SOA then do
    let (mname, p) ← readName w msg rd
    let (rname, p) ← readName w msg p
    let n := fun (i : Nat) => do
      let field ← add w p (4 * i)
      need (be32 w msg field)
    let serial ← n 0
    let refresh ← n 1
    let retry ← n 2
    let expire ← n 3
    let minimum ← n 4
    pure (Rdata.soa mname rname serial refresh retry expire minimum)
  else pure (Rdata.other type)

/-- `wire::read_record` -/
def readRecord (w : Nat) (msg : List UInt8) (pos : Nat) : Checked (Record × Nat) := do
  let (name, pos) ← readName w msg pos
  let type ← need (be16 w msg pos)
  let p ← add w pos 4
  let ttl ← need (be32 w msg p)
  let p ← add w pos 8
  let rdlen ← need (be16 w msg p)
  let rd ← add w pos 10
  let stop ← add w rd rdlen.toNat
  let rdata ← Method.okOr (msg.getRange? rd stop) (.error .malformed)
  let data ← readData w msg type rd rdata
  -- the end of the data is summed up once more, for the answer
  let stop ← add w rd rdlen.toNat
  return (⟨name, type, ttl, data⟩, stop)

/-- The loop of `decode` over the questions. -/
def skipQuestions (w : Nat) (msg : List UInt8) (pos : Nat) : Nat → Checked Nat
  | 0 => pure pos
  | count + 1 => do
    let e ← need (skipName w msg pos)
    let next ← add w e 4
    skipQuestions w msg next count

/-- The loop of `decode` over the records of a section. -/
def readRecords (w : Nat) (msg : List UInt8) (pos : Nat) (out : List Record) :
    Nat → Checked (List Record × Nat)
  | 0 => pure (out, pos)
  | count + 1 => do
    let (record, next) ← readRecord w msg pos
    tryReserve
    readRecords w msg next (out ++ [record]) count

/-- `wire::decode` -/
def decode (w : Nat) (msg : List UInt8) : Checked Message := do
  let field := fun pos => need (be16 w msg pos)
  let id ← field 0
  let flags ← field 2
  let additional ← field 10
  let qd ← field 4
  let an ← field 6
  let ns ← field 8
  let pos ← skipQuestions w msg HEADER_LEN qd.toNat
  let (answers, pos) ← readRecords w msg pos [] an.toNat
  let (authority, _) ← readRecords w msg pos [] ns.toNat
  return { id, flags, answers, authority, additional }

end Checked

end HopDns

import HopDns.Native.Reply

/-!
# Building a question and reading an answer

`wire::encode_query` and `wire::decode`, which the self test and the tests use: they
share the format with the server, not its code.
-/

namespace HopDns

open ForStd

/-- A question for `name` of type `qtype` in the buffer, with an OPT record when `edns` is a
    size; the length. -/
def encodeQuery (id : UInt16) (name : Str) (qtype : UInt16) (edns : Option UInt16) :
    Method Error (List UInt8) Nat := do
  putSlice 0 (id.toBytesBE ++ RD.toBytesBE ++ (1 : UInt16).toBytesBE ++ List.replicate 6 0)
  let pos ← putName HEADER_LEN name
  putSlice pos (qtype.toBytesBE ++ CLASS_IN.toBytesBE)
  let pos := pos + 4
  match edns with
  | none => return pos
  | some size =>
    putSlice pos (optRecord size)
    let pos := pos + OPT_LEN
    Method.modify fun out => (out.setRange? 10 (1 : UInt16).toBytesBE).getD out
    return pos

/-- The data of a record. -/
inductive Rdata where
  | a (ip : Ipv4Addr)
  | cname (target : Str)
  | soa (mname rname : Str) (serial refresh retry expire minimum : UInt32)
  | other (type : UInt16)
deriving DecidableEq, Repr

/-- A record that was read; the name is a full one, with a dot at its end. -/
structure Record where
  name : Str
  rtype : UInt16
  ttl : UInt32
  data : Rdata
deriving DecidableEq, Repr

/-- An answer that was read. -/
structure Message where
  id : UInt16
  flags : UInt16
  answers : List Record
  authority : List Record
  additional : UInt16
deriving DecidableEq, Repr

namespace Message

/-- The response code. -/
def rcode (m : Message) : UInt16 := Rcode.fromFlags m.flags

/-- The addresses in the answer section. -/
def aRecords (m : Message) : List Ipv4Addr :=
  m.answers.filterMap fun r => match r.data with
    | .a ip => some ip
    | _ => none

end Message

/-- `char::from(b)`, in UTF-8. -/
def charFrom (b : UInt8) : Str :=
  if b < 0x80 then [b] else [(0xC0 : UInt8) ||| (b >>> 6), (0x80 : UInt8) ||| (b &&& 0x3F)]

theorem charFrom_length (b : UInt8) : 0 < (charFrom b).length := by
  unfold charFrom
  split <;> simp

/-- The loop of `read_name`: the name so far, the place of the next label, and the end at the
    place itself once a pointer was taken. -/
def readNameFrom (msg : List UInt8) (name : Str) (pos : Nat) (stop : Option Nat) :
    Fallible (Str × Nat) :=
  match msg[pos]? with
  | none => Method.throw .malformed
  | some b =>
    -- the empty label: the name ends here, and the root is a dot alone
    if b.toNat = 0 then
      if name.isEmpty then do
        tryReserve
        return ([dot], stop.getD (pos + 1))
      else return (name, stop.getD (pos + 1))
    -- the length is tested on the text, with its dots, not on the bytes of the wire
    else if b.toNat ≤ 63 then do
      let label ← Method.okOr (msg.getRange? (pos + 1) (pos + 1 + b.toNat)) .malformed
      tryReserve
      let longer := name ++ label.flatMap charFrom ++ [dot]
      if _h : longer.length > NAME_MAX then Method.throw .malformed
      else readNameFrom msg longer (pos + 1 + b.toNat) stop
    else if 0xC0 ≤ b.toNat then
      match be16 msg pos with
      | none => Method.throw .malformed
      | some v =>
        -- a pointer has to go back, so that no name goes round
        let target := (v &&& 0x3FFF).toNat
        if _h : target ≥ pos then Method.throw .malformed
        -- the end is behind the first pointer, wherever the name goes from there
        else readNameFrom msg name target (some (stop.getD (pos + 2)))
    else Method.throw .malformed
-- a label makes the name longer, a pointer leaves it and goes back
termination_by (NAME_MAX - name.length, pos)
decreasing_by
  · simp only [longer, List.length_append, List.length_cons, List.length_nil] at _h ⊢
    exact Prod.Lex.left _ _ (by omega)
  · exact Prod.Lex.right _ (by omega)

/-- The name at `pos`, following its pointers, as a full name; and its end at the place
    itself. -/
def readName (msg : List UInt8) (pos : Nat) : Fallible (Str × Nat) :=
  readNameFrom msg [] pos none

/-- The record at `pos`, and its end. -/
def readRecord (msg : List UInt8) (pos : Nat) : Fallible (Record × Nat) := do
  let (name, pos) ← readName msg pos
  let type ← Method.okOr (be16 msg pos) .malformed
  let ttl ← Method.okOr (be32 msg (pos + 4)) .malformed
  let rdlen ← Method.okOr (be16 msg (pos + 8)) .malformed
  let rd := pos + 10
  let rdata ← Method.okOr (msg.getRange? rd (rd + rdlen.toNat)) .malformed
  -- the names in the data may point back into the message, so they are read from it
  let data ←
    if type = rtype.A then
      match rdata with
      | [a, b, c, d] => pure (Rdata.a ⟨a, b, c, d⟩)
      | _ => Method.throw .malformed
    else if type = rtype.CNAME then do
      let (target, _) ← readName msg rd
      pure (Rdata.cname target)
    else if type = rtype.SOA then do
      let (mname, p) ← readName msg rd
      let (rname, p) ← readName msg p
      let n := fun i => Method.okOr (be32 msg (p + 4 * i)) .malformed
      let serial ← n 0
      let refresh ← n 1
      let retry ← n 2
      let expire ← n 3
      let minimum ← n 4
      pure (Rdata.soa mname rname serial refresh retry expire minimum)
    else pure (Rdata.other type)
  return (⟨name, type, ttl, data⟩, rd + rdlen.toNat)

/-- The loop of `decode` over the questions. -/
def skipQuestions (msg : List UInt8) (pos : Nat) : Nat → Fallible Nat
  | 0 => pure pos
  | count + 1 => do
    let e ← Method.okOr (skipName msg pos) .malformed
    skipQuestions msg (e + 4) count

/-- The loop of `decode` over the records of a section. -/
def readRecords (msg : List UInt8) (pos : Nat) (out : List Record) :
    Nat → Fallible (List Record × Nat)
  | 0 => pure (out, pos)
  | count + 1 => do
    let (record, next) ← readRecord msg pos
    tryReserve
    readRecords msg next (out ++ [record]) count

/-- An answer read: the header, the answers and the authority. -/
def decode (msg : List UInt8) : Fallible Message := do
  let field := fun pos => Method.okOr (be16 msg pos) .malformed
  let id ← field 0
  let flags ← field 2
  let additional ← field 10
  let qd ← field 4
  let an ← field 6
  let ns ← field 8
  -- the questions are passed over unread, with a type and a class each
  let pos ← skipQuestions msg HEADER_LEN qd.toNat
  let (answers, pos) ← readRecords msg pos [] an.toNat
  -- of the additional section only the count is taken
  let (authority, _) ← readRecords msg pos [] ns.toNat
  return { id, flags, answers, authority, additional }

end HopDns

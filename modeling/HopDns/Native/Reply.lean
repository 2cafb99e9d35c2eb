import HopDns.ForStd.Method
import HopDns.Native.Cache
import HopDns.Native.Query

/-!
# Writing a reply

The writing half of `wire`: `put_name`, and `Reply`, a reply under construction in
the caller's buffer. A writer that fails keeps what it wrote before it failed, so
the writers are methods on the reply (or on the buffer) as it then stands.
-/

namespace HopDns

open ForStd

/-- `u16::try_from` -/
def u16TryFrom (n : Nat) : Option UInt16 := if n < 65536 then some (UInt16.ofNat n) else none

/-- `u8::try_from` -/
def u8TryFrom (n : Nat) : Option UInt8 := if n < 256 then some (UInt8.ofNat n) else none

/-- `out.get_mut(pos..pos + xs.len()).ok_or(Error::NoRoom)?.copy_from_slice(xs)` -/
def putSlice (pos : Nat) (xs : List UInt8) : Method Error (List UInt8) Unit := do
  let out ← Method.get
  let out ← Method.okOr (out.setRange? pos xs) .noRoom
  Method.set out

/-- The loop of `put_name` over the labels. -/
def putLabels (pos : Nat) : List Str → Method Error (List UInt8) Nat
  | [] => pure pos
  | label :: rest =>
    -- an empty label between two dots is refused as well
    if label.length = 0 ∨ label.length > LABEL_MAX then Method.throw .badName
    else do
      putSlice pos (UInt8.ofNat label.length :: label)
      putLabels (pos + 1 + label.length) rest

/-- The labels `put_name` goes through: what the dots of `name`, less one at its end, stand
    between; none when that is empty. -/
def nameLabels (name : Str) : List Str :=
  let name := stripDot name
  if name.isEmpty then [] else name.splitOn dot

/-- `name`, with or without a dot at its end, on the wire from `pos` on; the end. -/
def putName (pos : Nat) (name : Str) : Method Error (List UInt8) Nat := do
  let e ← putLabels pos (nameLabels name)
  -- the length is looked at only when the whole name has been written
  putSlice e [0]
  if e + 1 - pos > NAME_MAX then Method.throw .badName else return e + 1

/-- `label` and `zone` as a name on the wire from `pos` on; the end. -/
def putSoaName (pos : Nat) (label : Str) (zone : Str) : Method Error (List UInt8) Nat := do
  let label := stripDot label
  let out ← Method.get
  -- room first, then the length: `NoRoom` wins over `BadName`
  if pos + (1 + label.length) > out.length then Method.throw .noRoom
  else
    -- a byte, not a label: this one is not held against `LABEL_MAX`
    let len ← Method.okOr (u8TryFrom label.length) .badName
    putSlice pos (len :: label)
    putName (pos + 1 + label.length) zone

/-- The 32-bit numbers `vs`, one after the other from `pos` on; the end. -/
def putWords (pos : Nat) : List UInt32 → Method Error (List UInt8) Nat
  | [] => pure pos
  | v :: vs => do
    putSlice pos v.toBytesBE
    putWords (pos + 4) vs

/-- The OPT record that offers `size`. -/
def optRecord (size : UInt16) : List UInt8 :=
  [0] ++ rtype.OPT.toBytesBE ++ size.toBytesBE ++ List.replicate 6 0

/-- The sections of a reply that records are written to. -/
inductive Section where
  | answer
  | authority
deriving DecidableEq, Repr

/-- A reply under construction. -/
structure Reply where
  buf : List UInt8
  len : Nat
  limit : Nat
  an : UInt16
  ns : UInt16
  ar : UInt16
  edns : Option UInt16
deriving DecidableEq, Repr

namespace Reply

/-- The room kept for the OPT record. -/
def reserve (edns : Option UInt16) : Nat := if edns.isSome then OPT_LEN else 0

/-- `set_count`: the number `n` at `pos` of the header. -/
def setCount (r : Reply) (pos : Nat) (n : UInt16) : Reply :=
  -- the source's `if let Some`: without room nothing is written and nothing said
  match r.buf.setRange? pos n.toBytesBE with
  | some buf => { r with buf }
  | none => r

/-- The flags as they stand in the buffer. -/
def flags (r : Reply) : UInt16 := (be16 r.buf 2).getD 0

/-- `set_flags` -/
def setFlags (r : Reply) (f : UInt16) : Reply := r.setCount 2 f

/-- Set the response code. -/
def setRcode (r : Reply) (rcode : Rcode) : Reply :=
  r.setFlags ((r.flags &&& ~~~0x000F) ||| rcode.toUInt16)

/-- Set the TC bit. -/
def setTruncated (r : Reply) : Reply := r.setFlags (r.flags ||| TC)

/-- The header `bare` writes: the id, the flags, and four counters at zero. -/
def bareHead (id flags : UInt16) (rcode : Rcode) : List UInt8 :=
  id.toBytesBE ++ (QR ||| AA ||| (flags &&& (0x7800 ||| RD ||| CD)) ||| rcode.toUInt16).toBytesBE ++
    List.replicate 8 0

/-- A reply without a question, only a code. The buffer is the method's state, and the
    reply has it from there on. -/
def bare (id flags : UInt16) (rcode : Rcode) (limit : Nat) : Method Error (List UInt8) Reply := do
  let buf ← Method.get
  let limit := min limit buf.length
  if limit < HEADER_LEN then Method.throw .noRoom
  else
    putSlice 0 (bareHead id flags rcode)
    let buf ← Method.get
    return { buf, len := HEADER_LEN, limit, an := 0, ns := 0, ar := 0, edns := none }

/-- The start of the reply to `q`: the header, and the question itself. -/
def start (q : Query) (limit : Nat) : Method Error (List UInt8) Reply := do
  let buf ← Method.get
  let limit := min limit buf.length
  let r ← bare q.id q.flags .noError limit
  let e := HEADER_LEN + q.question.length
  -- the place of the OPT record is kept from here on
  if e + reserve q.edns > r.limit then Method.throw .noRoom
  else
    putSlice HEADER_LEN q.question
    let buf ← Method.get
    let r := { r with buf, len := e }
    let r := r.setCount 4 1
    return { r with edns := q.edns }

/-- The room records still have, after the place for the OPT record. -/
def room (r : Reply) : Nat := r.limit - (r.len + reserve r.edns)

/-- `putSlice` in the reply's buffer. -/
def write (pos : Nat) (xs : List UInt8) : Method Error Reply Unit := do
  let r ← Method.get
  let buf ← Method.okOr (r.buf.setRange? pos xs) .noRoom
  Method.set { r with buf }

/-- The head of a record for the name of the question; the place of its data. -/
def rrHead (type : UInt16) (ttl : UInt32) (rdlen : Nat) : Method Error Reply Nat := do
  let r ← Method.get
  -- two tests: the room of the reply, and the slice of the buffer
  if 12 + rdlen > r.room then Method.throw .noRoom
  else
    let pos := r.len
    if pos + 12 > r.buf.length then Method.throw .noRoom
    else
      write pos (QNAME_PTR ++ type.toBytesBE ++ CLASS_IN.toBytesBE ++ ttl.toBytesBE)
      let rdlen16 ← Method.okOr (u16TryFrom rdlen) .noRoom
      write (pos + 10) rdlen16.toBytesBE
      return pos + 12

/-- One record more in a section, up to `e`: the length and the counter, here and in the
    header. -/
def addRecord (s : Section) (e : Nat) (r : Reply) : Reply :=
  match s with
  | .answer =>
    let r := { r with len := e, an := r.an + 1 }
    r.setCount 6 r.an
  | .authority =>
    let r := { r with len := e, ns := r.ns + 1 }
    r.setCount 8 r.ns

/-- An A record for the name of the question. -/
def answerA (ip : Ipv4Addr) (ttl : UInt32) : Method Error Reply Unit := do
  let pos ← rrHead rtype.A ttl 4
  write pos ip.octets
  Method.modify (addRecord .answer (pos + 4))

/-- A CNAME record for the name of the question, to `target`. -/
def answerCname (target : Str) (ttl : UInt32) : Method Error Reply Unit := do
  -- the target is written out in full on the stack, before the reply is touched
  let (n, tmp) ← Method.scratch (List.replicate (NAME_MAX + 1) 0) (putName 0 target)
  let pos ← rrHead rtype.CNAME ttl n
  let rdata ← Method.okOr (tmp.getRange? 0 n) .noRoom
  write pos rdata
  Method.modify (addRecord .answer (pos + n))

/-- The SOA record of `zone` in the scratch buffer of `authority_soa`: the owner, the data
    after a gap of ten bytes, and then the ten bytes. -/
def putSoa (zone : Str) (ttl : UInt32) : Method Error (List UInt8) Nat := do
  let n ← putName 0 zone
  let rdataPos := n + 10
  let pos ← putSoaName rdataPos (str "ns.") zone
  -- the contact of the zone, and then serial, refresh, retry, expire and minimum
  let pos ← putSoaName pos (str "hostmaster.") zone
  let pos ← putWords pos [1, ttl, ttl, ttl, ttl]
  let rdlen ← Method.okOr (u16TryFrom (pos - rdataPos)) .noRoom
  putSlice n (rtype.SOA.toBytesBE ++ CLASS_IN.toBytesBE ++ ttl.toBytesBE ++ rdlen.toBytesBE)
  return pos

/-- The SOA record of `zone` in the authority section; all its times are `ttl`. -/
def authoritySoa (zone : Str) (ttl : UInt32) : Method Error Reply Unit := do
  let (n, tmp) ← Method.scratch (List.replicate (3 * (NAME_MAX + 1) + 20) 0) (putSoa zone ttl)
  let r ← Method.get
  -- the whole record or nothing
  if n > r.room then Method.throw .noRoom
  else
    let record ← Method.okOr (tmp.getRange? 0 n) .noRoom
    write r.len record
    Method.modify (addRecord .authority (r.len + n))

/-- The number of answers so far. -/
def answers (r : Reply) : UInt16 := r.an

/-- The end: the OPT record, if the question spoke EDNS, and the length of the message.
    The buffer goes back to the caller. -/
def finish (r : Reply) : Nat × List UInt8 :=
  if r.edns.isSome then
    match r.buf.setRange? r.len (optRecord (UInt16.ofNat EDNS_MAX)) with
    | some buf =>
      let r := { r with buf, len := r.len + OPT_LEN, ar := r.ar + 1 }
      let r := r.setCount 10 r.ar
      (r.len, r.buf)
    | none => (r.len, r.buf)
  else (r.len, r.buf)

end Reply

end HopDns

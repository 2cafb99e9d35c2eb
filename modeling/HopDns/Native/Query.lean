import HopDns.ForStd.Slice
import HopDns.ForStd.BigEndian
import HopDns.Native.Text

/-!
# Reading a question

The reading half of `wire` (RFC 1035 §4): the constants of the format, and
`parse_query` with what it calls.
-/

namespace HopDns

/-- The header of every message. -/
def HEADER_LEN : Nat := 12

/-- The largest message over UDP without EDNS. -/
def UDP_MAX : Nat := 512

/-- The largest message hopdns sends with EDNS. -/
def EDNS_MAX : Nat := 1232

/-- The longest name on the wire. -/
def NAME_MAX : Nat := 255

/-- The longest label. -/
def LABEL_MAX : Nat := 63

/-- The size of one OPT record without options. -/
def OPT_LEN : Nat := 11

/-- The pointer to the name in the question, which starts right after the header. -/
def QNAME_PTR : List UInt8 := [0xC0, 0x0C]

namespace rtype

/-- An IPv4 address. -/
def A : UInt16 := 1

/-- A canonical name. -/
def CNAME : UInt16 := 5

/-- The start of a zone. -/
def SOA : UInt16 := 6

/-- The EDNS pseudo record. -/
def OPT : UInt16 := 41

/-- Everything. -/
def ANY : UInt16 := 255

end rtype

/-- The class Internet. -/
def CLASS_IN : UInt16 := 1

/-- The class "any". -/
def CLASS_ANY : UInt16 := 255

/-- The response code: the low four bits of the flags. -/
inductive Rcode where
  | noError
  | formErr
  | servFail
  | nxDomain
  | notImp
  | refused
deriving DecidableEq, Repr

/-- `rcode as u16` -/
def Rcode.toUInt16 : Rcode → UInt16
  | noError => 0
  | formErr => 1
  | servFail => 2
  | nxDomain => 3
  | notImp => 4
  | refused => 5

/-- `Rcode::from_flags` -/
def Rcode.fromFlags (flags : UInt16) : UInt16 := flags &&& 0x000F

/-- This is an answer. -/
def QR : UInt16 := 0x8000

/-- Authoritative. -/
def AA : UInt16 := 0x0400

/-- Truncated. -/
def TC : UInt16 := 0x0200

/-- Recursion asked for. -/
def RD : UInt16 := 0x0100

/-- Checking off. -/
def CD : UInt16 := 0x0010

/-- The 16-bit number at `pos`. -/
def be16 (b : List UInt8) (pos : Nat) : Option UInt16 := do
  return UInt16.ofBytesBE (← b[pos]?) (← b[pos + 1]?)

/-- The 32-bit number at `pos`. -/
def be32 (b : List UInt8) (pos : Nat) : Option UInt32 := do
  return UInt32.ofBytesBE (← b[pos]?) (← b[pos + 1]?) (← b[pos + 2]?) (← b[pos + 3]?)

/-- A question that was read. -/
structure Query where
  id : UInt16
  flags : UInt16
  /-- the question as it stood on the wire: name, type, class -/
  question : List UInt8
  /-- the name on the wire, with the empty label -/
  qname : List UInt8
  qtype : UInt16
  qclass : UInt16
  /-- the UDP size offered with EDNS -/
  edns : Option UInt16
deriving DecidableEq, Repr

/-- Why a datagram is not an ordinary question. -/
inductive Bad where
  /-- send nothing back -/
  | drop
  /-- a bare answer with this code, without the question -/
  | reply (id flags : UInt16) (rcode : Rcode)
deriving DecidableEq, Repr

/-- The loop of `skip_plain_name`. -/
def skipPlainNameFrom (msg : List UInt8) (start pos : Nat) : Option Nat :=
  match _h : msg[pos]? with
  | none => none
  | some b =>
    if b.toNat = 0 then
      -- the empty label counts among the 255 bytes
      if pos + 1 - start ≤ NAME_MAX then some (pos + 1) else none
    else if b.toNat > LABEL_MAX then none -- a pointer or a reserved form
    else skipPlainNameFrom msg start (pos + 1 + b.toNat)
termination_by msg.length - pos
decreasing_by
  have := (List.getElem?_eq_some_iff.mp _h).1
  omega

/-- One turn of the loop. -/
theorem skipPlainNameFrom_some {msg : List UInt8} {start pos : Nat} {b : UInt8}
    (h : msg[pos]? = some b) : skipPlainNameFrom msg start pos =
      if b.toNat = 0 then
        if pos + 1 - start ≤ NAME_MAX then some (pos + 1) else none
      else if b.toNat > LABEL_MAX then none
      else skipPlainNameFrom msg start (pos + 1 + b.toNat) := by
  rw [skipPlainNameFrom]
  split
  · simp_all only [reduceCtorEq]
  · simp_all only [Option.some.injEq]

/-- Behind the end of the message no name is found. -/
theorem skipPlainNameFrom_none {msg : List UInt8} {start pos : Nat} (h : msg[pos]? = none) :
    skipPlainNameFrom msg start pos = none := by
  rw [skipPlainNameFrom]
  split
  · rfl
  · simp_all only [reduceCtorEq]

/-- The end of the name at `pos`, which carries no pointers. -/
def skipPlainName (msg : List UInt8) (pos : Nat) : Option Nat := skipPlainNameFrom msg pos pos

/-- The end of the name at `pos`, which may carry a pointer. -/
def skipName (msg : List UInt8) (pos : Nat) : Option Nat :=
  match _h : msg[pos]? with
  | none => none
  | some b =>
    if b.toNat = 0 then some (pos + 1)
    else if b.toNat ≤ 63 then skipName msg (pos + 1 + b.toNat)
    else if 0xC0 ≤ b.toNat then
      -- a pointer: its second byte has to be there, and where it points does not matter
      match msg[pos + 1]? with
      | none => none
      | some _ => some (pos + 2)
    else none
termination_by msg.length - pos
decreasing_by
  have := (List.getElem?_eq_some_iff.mp _h).1
  omega

/-- One turn of the loop. -/
theorem skipName_some {msg : List UInt8} {pos : Nat} {b : UInt8} (h : msg[pos]? = some b) :
    skipName msg pos =
      if b.toNat = 0 then some (pos + 1)
      else if b.toNat ≤ 63 then skipName msg (pos + 1 + b.toNat)
      else if 0xC0 ≤ b.toNat then
        match msg[pos + 1]? with
        | none => none
        | some _ => some (pos + 2)
      else none := by
  rw [skipName]
  split
  · simp_all only [reduceCtorEq]
  · simp_all only [Option.some.injEq]

/-- The OPT record among the `count` records from `pos` on: its UDP size. -/
def findOpt (msg : List UInt8) (pos : Nat) : Nat → Option UInt16
  | 0 => none
  | count + 1 => do
    let nameEnd ← skipName msg pos
    let type ← be16 msg nameEnd
    let size ← be16 msg (nameEnd + 2) -- the class, where an OPT record has its size
    -- behind the type, the class and the time to live
    let rdlen ← be16 msg (nameEnd + 8)
    if type = rtype.OPT then
      some size
    else
      -- a length past the end of the message shows at the next record, or nowhere
      findOpt msg (nameEnd + 10 + rdlen.toNat) count

/-- One question, read from `msg`. -/
def parseQuery (msg : List UInt8) : Except Bad Query :=
  match be16 msg 0, be16 msg 2 with
  | some id, some flags =>
    if msg.length < HEADER_LEN ∨ flags &&& QR ≠ 0 then .error .drop
    -- the opcode: only an ordinary question is read further
    else if (flags >>> 11) &&& 0xF ≠ 0 then .error (.reply id flags .notImp)
    else
      match be16 msg 4, be16 msg 6, be16 msg 8, be16 msg 10 with
      | some qd, some an, some ns, some ar =>
        if qd ≠ 1 then .error (.reply id flags .formErr)
        else
          -- the question comes first, so there is nothing its name could point back at
          match skipPlainName msg HEADER_LEN with
          | none => .error (.reply id flags .formErr)
          | some nameEnd =>
            match be16 msg nameEnd, be16 msg (nameEnd + 2) with
            | some qtype, some qclass =>
              match msg.getRange? HEADER_LEN (nameEnd + 4), msg.getRange? HEADER_LEN nameEnd with
              | some question, some qname =>
                .ok {
                  id, flags, question, qname, qtype, qclass,
                  edns := findOpt msg (nameEnd + 4) (an.toNat + ns.toNat + ar.toNat) }
              | _, _ => .error (.reply id flags .formErr)
            | _, _ => .error (.reply id flags .formErr)
      | _, _, _, _ => .error (.reply id flags .formErr)
  | _, _ => .error .drop

/-! ## The name as text -/

/-- `*buf.get_mut(n)? = b; n += 1` in a buffer of `NAME_MAX` bytes. -/
def pushText (text : Str) (b : UInt8) : Option Str :=
  if text.length < NAME_MAX then some (text ++ [b]) else none

/-- The dot before every label but the first. -/
def pushSeparator (text : Str) : Option Str :=
  if text.length > 0 then pushText text dot else some text

/-- A byte of a label, put at the end of the text, unless a host name cannot have it. -/
def pushLabelByte (text : Str) (b : UInt8) : Option Str :=
  if ¬(0x21 ≤ b ∧ b ≤ 0x7E) ∨ b = dot then none else pushText text (toAsciiLowercase b)

/-- The loop of `name_text`. -/
def nameTextFrom (wire : List UInt8) (pos : Nat) (text : Str) : Option Str :=
  match _h : wire[pos]? with
  | none => none
  | some b =>
    -- any length is taken here: that none is above 63 is the parser's doing
    if b.toNat = 0 then some text
    else do
      let label ← wire.getRange? (pos + 1) (pos + 1 + b.toNat)
      let text ← pushSeparator text
      let text ← label.foldlM pushLabelByte text
      nameTextFrom wire (pos + 1 + b.toNat) text
termination_by wire.length - pos
decreasing_by
  have := (List.getElem?_eq_some_iff.mp _h).1
  omega

/-- One turn of the loop. -/
theorem nameTextFrom_some {wire : List UInt8} {pos : Nat} {text : Str} {b : UInt8}
    (h : wire[pos]? = some b) : nameTextFrom wire pos text =
      if b.toNat = 0 then some text
      else (do
        let label ← wire.getRange? (pos + 1) (pos + 1 + b.toNat)
        let text ← pushSeparator text
        let text ← label.foldlM pushLabelByte text
        nameTextFrom wire (pos + 1 + b.toNat) text) := by
  rw [nameTextFrom]
  split
  · simp_all only [reduceCtorEq]
  · rename_i b' h'
    obtain rfl := Option.some.inj (h.symm.trans h')
    rfl

/-- The name on the wire as text in lower case, without a dot at the end; `none` for a name
    that cannot be a host name. -/
def nameText (wire : List UInt8) : Option Str := nameTextFrom wire 0 []

end HopDns

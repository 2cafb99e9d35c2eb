import HopDns.ForStd.BigEndian
import HopDns.ForStd.DnsName

/-!
# Messages on the wire

A DNS message (RFC 1035 §4.1) as its sections, its bytes, and a reader of those
bytes that takes the counters of the header at their word and must end where the
bytes end. Names and record data stay as the bytes they are, so a name may be a
pointer.

## Key results

- `Dns.Message.read_bytes`: the reader gives back a well-formed message
-/

namespace Dns

/-- The bytes of a name as a message may hold them: labels, and then the empty label or a
    pointer. -/
inductive NameBytes : List UInt8 → Prop
  | root : NameBytes [0]
  | pointer (b₀ b₁ : UInt8) : 0xC0 ≤ b₀.toNat → NameBytes [b₀, b₁]
  | label (l : List UInt8) {n : List UInt8} : LegalLabel l → NameBytes n →
      NameBytes (labelBytes l ++ n)

/-- Labels on the wire are a name without a pointer. -/
theorem NameBytes.wire {labels : List (List UInt8)} (h : Legal labels) :
    NameBytes (wire labels) := by
  induction labels with
  | nil => exact .root
  | cons l labels ih =>
    rw [wire_cons]
    exact .label l h.head (ih h.tail)

theorem Name.nameBytes (n : Name) : NameBytes n.wire := NameBytes.wire n.legal

/-- A name takes at least a byte. -/
theorem NameBytes.ne_nil {n : List UInt8} (h : NameBytes n) : n ≠ [] := by
  cases h <;> simp [labelBytes]

/-- A question: a name as it stands, a type and a class. -/
structure Question where
  name : List UInt8
  qtype : UInt16
  qclass : UInt16
deriving DecidableEq, Repr

/-- A record: the name of its owner as it stands, and its data. -/
structure Record where
  owner : List UInt8
  rtype : UInt16
  rclass : UInt16
  ttl : UInt32
  rdata : List UInt8
deriving DecidableEq, Repr

/-- What of a record stands before its data: the owner, the type, the class, the time to live
    and the length of the data. -/
structure RecordHead where
  owner : List UInt8
  rtype : UInt16
  rclass : UInt16
  ttl : UInt32
  rdlen : UInt16
deriving DecidableEq, Repr

/-- The head of a record. -/
def Record.head (r : Record) : RecordHead :=
  ⟨r.owner, r.rtype, r.rclass, r.ttl, UInt16.ofNat r.rdata.length⟩

/-- A message. -/
structure Message where
  id : UInt16
  flags : UInt16
  questions : List Question
  answers : List Record
  authority : List Record
  additional : List Record
deriving DecidableEq, Repr

/-- The response code: the low four bits of the flags. -/
def Message.rcode (m : Message) : UInt16 := m.flags &&& 0x000F

/-! ## To bytes -/

def Question.bytes (q : Question) : List UInt8 :=
  q.name ++ (q.qtype.toBytesBE ++ q.qclass.toBytesBE)

def Record.bytes (r : Record) : List UInt8 :=
  r.owner ++ (r.rtype.toBytesBE ++ (r.rclass.toBytesBE ++ (r.ttl.toBytesBE ++
    ((UInt16.ofNat r.rdata.length).toBytesBE ++ r.rdata))))

def RecordHead.bytes (h : RecordHead) : List UInt8 :=
  h.owner ++ (h.rtype.toBytesBE ++ (h.rclass.toBytesBE ++ (h.ttl.toBytesBE ++ h.rdlen.toBytesBE)))

/-- A record is its head and then its data. -/
theorem Record.bytes_eq (r : Record) : r.bytes = r.head.bytes ++ r.rdata := by
  simp only [bytes, RecordHead.bytes, head, List.append_assoc]

/-- The header: the id, the flags and the four counters. -/
def headerBytes (id flags qd an ns ar : UInt16) : List UInt8 :=
  id.toBytesBE ++ (flags.toBytesBE ++ (qd.toBytesBE ++ (an.toBytesBE ++ (ns.toBytesBE ++
    ar.toBytesBE))))

def Message.bytes (m : Message) : List UInt8 :=
  headerBytes m.id m.flags (UInt16.ofNat m.questions.length) (UInt16.ofNat m.answers.length)
    (UInt16.ofNat m.authority.length) (UInt16.ofNat m.additional.length) ++
  (m.questions.flatMap Question.bytes ++ (m.answers.flatMap Record.bytes ++
    (m.authority.flatMap Record.bytes ++ m.additional.flatMap Record.bytes)))

@[simp] theorem length_headerBytes (id flags qd an ns ar : UInt16) :
    (headerBytes id flags qd an ns ar).length = 12 := rfl

/-- A question takes four bytes more than its name. -/
theorem Question.length_bytes (q : Question) : q.bytes.length = q.name.length + 4 := by
  simp [bytes]

/-- A record takes ten bytes more than its owner and its data. -/
theorem Record.length_bytes (r : Record) :
    r.bytes.length = r.owner.length + 10 + r.rdata.length := by
  simp [bytes]
  omega

/-- A head takes ten bytes more than its owner. -/
theorem RecordHead.length_bytes (h : RecordHead) : h.bytes.length = h.owner.length + 10 := by
  simp [bytes]

/-! ## From bytes -/

def takeU16 : List UInt8 → Option (UInt16 × List UInt8)
  | b₀ :: b₁ :: rest => some (UInt16.ofBytesBE b₀ b₁, rest)
  | _ => none

def takeU32 : List UInt8 → Option (UInt32 × List UInt8)
  | b₀ :: b₁ :: b₂ :: b₃ :: rest => some (UInt32.ofBytesBE b₀ b₁ b₂ b₃, rest)
  | _ => none

/-- The first `n` bytes. -/
def takeBytes (n : Nat) (bs : List UInt8) : Option (List UInt8 × List UInt8) :=
  if n ≤ bs.length then some (bs.take n, bs.drop n) else none

/-- The bytes of a name, up to its empty label or its pointer. -/
def takeName (bs : List UInt8) : Option (List UInt8 × List UInt8) :=
  match bs with
  | [] => none
  | b :: rest =>
    if b.toNat = 0 then some ([b], rest)
    else if b.toNat ≤ 63 then
      if b.toNat ≤ rest.length then
        (takeName (rest.drop b.toNat)).map fun p => (b :: rest.take b.toNat ++ p.1, p.2)
      else none
    else if 0xC0 ≤ b.toNat then
      match rest with
      | [] => none
      | b₁ :: rest => some ([b, b₁], rest)
    else none
termination_by bs.length
decreasing_by
  simp only [List.length_drop, List.length_cons]
  omega

def takeQuestion (bs : List UInt8) : Option (Question × List UInt8) := do
  let (name, bs) ← takeName bs
  let (qtype, bs) ← takeU16 bs
  let (qclass, bs) ← takeU16 bs
  return (⟨name, qtype, qclass⟩, bs)

def takeRecord (bs : List UInt8) : Option (Record × List UInt8) := do
  let (owner, bs) ← takeName bs
  let (rtype, bs) ← takeU16 bs
  let (rclass, bs) ← takeU16 bs
  let (ttl, bs) ← takeU32 bs
  let (rdlen, bs) ← takeU16 bs
  let (rdata, bs) ← takeBytes rdlen.toNat bs
  return (⟨owner, rtype, rclass, ttl, rdata⟩, bs)

/-- `n` items, one after the other. -/
def takeMany {α : Type} (item : List UInt8 → Option (α × List UInt8)) :
    Nat → List UInt8 → Option (List α × List UInt8)
  | 0, bs => some ([], bs)
  | n + 1, bs => do
    let (a, bs) ← item bs
    let (as, bs) ← takeMany item n bs
    return (a :: as, bs)

/-- The message these bytes are, if they are one and no more than one. -/
def Message.read (bs : List UInt8) : Option Message := do
  let (id, bs) ← takeU16 bs
  let (flags, bs) ← takeU16 bs
  let (qd, bs) ← takeU16 bs
  let (an, bs) ← takeU16 bs
  let (ns, bs) ← takeU16 bs
  let (ar, bs) ← takeU16 bs
  let (questions, bs) ← takeMany takeQuestion qd.toNat bs
  let (answers, bs) ← takeMany takeRecord an.toNat bs
  let (authority, bs) ← takeMany takeRecord ns.toNat bs
  let (additional, bs) ← takeMany takeRecord ar.toNat bs
  if bs.isEmpty then some ⟨id, flags, questions, answers, authority, additional⟩ else none

/-! ## There and back -/

/-- A number of two bytes is taken off the front. -/
@[simp] theorem takeU16_append (v : UInt16) (rest : List UInt8) :
    takeU16 (v.toBytesBE ++ rest) = some (v, rest) := by
  simp only [takeU16, UInt16.toBytesBE, List.cons_append, List.nil_append,
    UInt16.ofBytesBE_toBytesBE]

/-- A number of four bytes is taken off the front. -/
@[simp] theorem takeU32_append (v : UInt32) (rest : List UInt8) :
    takeU32 (v.toBytesBE ++ rest) = some (v, rest) := by
  simp only [takeU32, UInt32.toBytesBE, List.cons_append, List.nil_append,
    UInt32.ofBytesBE_toBytesBE]

/-- As many bytes are taken off the front as there are to be. -/
private theorem takeBytes_append (xs rest : List UInt8) :
    takeBytes xs.length (xs ++ rest) = some (xs, rest) := by
  rw [takeBytes, if_pos (by simp), List.take_left' rfl, List.drop_left' rfl]

/-- The first byte says what stands at the front of a name. -/
private theorem takeName_cons (b : UInt8) (rest : List UInt8) :
    takeName (b :: rest) =
      if b.toNat = 0 then some ([b], rest)
      else if b.toNat ≤ 63 then
        if b.toNat ≤ rest.length then
          (takeName (rest.drop b.toNat)).map fun p => (b :: rest.take b.toNat ++ p.1, p.2)
        else none
      else if 0xC0 ≤ b.toNat then
        match rest with
        | [] => none
        | b₁ :: rest => some ([b, b₁], rest)
      else none := by
  rw [takeName.eq_def]

/-- A name is taken off the front, up to its end. -/
private theorem takeName_append {n : List UInt8} (h : NameBytes n) (rest : List UInt8) :
    takeName (n ++ rest) = some (n, rest) := by
  -- induction on the name: each label is taken off, and the rest is a name again
  induction h with
  | root => rw [List.singleton_append, takeName_cons, if_pos (by rfl)]
  | pointer b₀ b₁ hb =>
    rw [List.cons_append, takeName_cons, if_neg (by omega), if_neg (by omega), if_pos hb]
    rfl
  | @label l n hl hn ih =>
    have hlen := hl.toNat_ofNat
    -- the length byte of a label is below the two bits of a pointer
    have hlen' := hl
    unfold LegalLabel at hlen'
    rw [labelBytes, List.append_assoc, List.cons_append, takeName_cons, hlen, if_neg (by omega),
      if_pos (by omega), if_pos (by simp), List.drop_left' rfl, ih, List.take_left' rfl]
    rfl

/-- A question whose name a reader finds the end of. -/
def Question.WellFormed (q : Question) : Prop := NameBytes q.name

/-- A record whose name a reader finds the end of, and whose data its length can tell. -/
def Record.WellFormed (r : Record) : Prop := NameBytes r.owner ∧ r.rdata.length < 65536

/-- The length of a well-formed record's data is the one in its head. -/
theorem Record.length_bytes_eq {r : Record} (h : r.WellFormed) :
    r.bytes.length = r.head.bytes.length + r.head.rdlen.toNat := by
  rw [r.bytes_eq, List.length_append]
  congr 1
  exact (UInt16.toNat_ofNat_of_lt' h.2).symm

/-- A message of well-formed parts, no more than its counters can tell. -/
structure Message.WellFormed (m : Message) : Prop where
  questions : ∀ q ∈ m.questions, q.WellFormed
  answers : ∀ r ∈ m.answers, r.WellFormed
  authority : ∀ r ∈ m.authority, r.WellFormed
  additional : ∀ r ∈ m.additional, r.WellFormed
  qd : m.questions.length < 65536
  an : m.answers.length < 65536
  ns : m.authority.length < 65536
  ar : m.additional.length < 65536

/-- A well-formed question is taken off the front. -/
private theorem takeQuestion_append {q : Question} (h : q.WellFormed) (rest : List UInt8) :
    takeQuestion (q.bytes ++ rest) = some (q, rest) := by
  simp only [takeQuestion, Question.bytes, List.append_assoc, takeName_append h,
    takeU16_append, Option.bind_eq_bind, Option.bind_some, Option.pure_def]

/-- A well-formed record is taken off the front. -/
theorem takeRecord_append {r : Record} (h : r.WellFormed) (rest : List UInt8) :
    takeRecord (r.bytes ++ rest) = some (r, rest) := by
  have hlen : (UInt16.ofNat r.rdata.length).toNat = r.rdata.length :=
    UInt16.toNat_ofNat_of_lt' h.2
  simp only [takeRecord, Record.bytes, List.append_assoc, takeName_append h.1, takeU16_append,
    takeU32_append, hlen, takeBytes_append, Option.bind_eq_bind, Option.bind_some,
    Option.pure_def]

/-- Items that can each be read can be read one after the other. -/
private theorem takeMany_append {α : Type} {item : List UInt8 → Option (α × List UInt8)}
    (bytes : α → List UInt8) {as : List α} {n : Nat} (hn : n = as.length)
    (h : ∀ a ∈ as, ∀ rest, item (bytes a ++ rest) = some (a, rest)) (rest : List UInt8) :
    takeMany item n (as.flatMap bytes ++ rest) = some (as, rest) := by
  -- the counter is the length of the list, so it goes down with it
  subst hn
  induction as with
  | nil => rfl
  | cons a as ih =>
    rw [List.length_cons, List.flatMap_cons, List.append_assoc]
    simp only [takeMany, h a List.mem_cons_self, Option.bind_eq_bind, Option.bind_some,
      ih fun a' ha' => h a' (List.mem_cons_of_mem a ha'), Option.pure_def]

/-- The reader gives back a well-formed message. -/
theorem Message.read_bytes {m : Message} (h : m.WellFormed) : Message.read m.bytes = some m := by
  -- each section is as long as its counter says, so it is taken back whole
  have hq := takeMany_append Question.bytes (UInt16.toNat_ofNat_of_lt' h.qd)
    fun q hq rest => takeQuestion_append (h.questions q hq) rest
  have han := takeMany_append Record.bytes (UInt16.toNat_ofNat_of_lt' h.an)
    fun r hr rest => takeRecord_append (h.answers r hr) rest
  have hns := takeMany_append Record.bytes (UInt16.toNat_ofNat_of_lt' h.ns)
    fun r hr rest => takeRecord_append (h.authority r hr) rest
  have har := takeMany_append Record.bytes (UInt16.toNat_ofNat_of_lt' h.ar)
    (fun r hr rest => takeRecord_append (h.additional r hr) rest) []
  -- behind the last section nothing is left over
  rw [List.append_nil] at har
  simp only [read, bytes, headerBytes, List.append_assoc, takeU16_append, Option.bind_eq_bind,
    Option.bind_some, hq, han, hns, har, List.isEmpty_nil, if_true]

end Dns

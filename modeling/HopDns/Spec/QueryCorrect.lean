import HopDns.ForStd.DnsMessage
import HopDns.Spec.NameCorrect

/-!
# The datagrams that are questions

## Key results

- `parseQuery_eq_ok`: the datagrams `parse_query` accepts, and what it reads from them
- `parseQuery_cases`: what becomes of the others
-/

namespace HopDns

open ForStd

/-- The question of a name: the name, the type and the class on the wire. -/
def questionBytes (n : Dns.Name) (qtype qclass : UInt16) : List UInt8 :=
  (Dns.Question.mk n.wire qtype qclass).bytes

theorem length_questionBytes (n : Dns.Name) (qtype qclass : UInt16) :
    (questionBytes n qtype qclass).length = n.wire.length + 4 := Dns.Question.length_bytes _

/-- The number at a place is the one whose bytes stand there. -/
theorem be16_eq_some {b : List UInt8} {pos : Nat} {v : UInt16} :
    be16 b pos = some v ↔ b.HasAt pos v.toBytesBE := by
  rw [UInt16.toBytesBE, List.hasAt_cons, List.hasAt_cons]
  simp only [be16, Option.bind_eq_bind, Option.pure_def, List.hasAt_nil, and_true]
  constructor
  -- both bytes are there, and they are those of the number
  · intro h
    obtain ⟨b₀, h₀, h⟩ := Option.bind_eq_some_iff.mp h
    obtain ⟨b₁, h₁, h⟩ := Option.bind_eq_some_iff.mp h
    have hbytes := UInt16.toBytesBE_ofBytesBE b₀ b₁
    rw [Option.some.inj h, UInt16.toBytesBE] at hbytes
    obtain ⟨rfl, rfl⟩ := List.cons.inj hbytes |>.imp_right fun h => (List.cons.inj h).1
    exact ⟨h₀, h₁⟩
  · intro h'
    obtain ⟨h₀, h₁⟩ := h'
    simp only [h₀, h₁, Option.bind_some, UInt16.ofBytesBE_toBytesBE]

/-- Where there are two bytes there is a number. -/
theorem exists_be16 {b : List UInt8} {pos : Nat} (h : pos + 2 ≤ b.length) :
    ∃ v, be16 b pos = some v := by
  have h₀ := List.getElem?_eq_getElem (l := b) (i := pos) (by omega)
  have h₁ := List.getElem?_eq_getElem (l := b) (i := pos + 1) (by omega)
  refine ⟨UInt16.ofBytesBE b[pos] b[pos + 1], ?_⟩
  simp only [be16, h₀, h₁, Option.bind_eq_bind, Option.bind_some, Option.pure_def]

/-- What the header says, number by number. -/
theorem hasAt_headerBytes {msg xs : List UInt8} {id flags qd an ns ar : UInt16} :
    msg.HasAt 0 (Dns.headerBytes id flags qd an ns ar ++ xs) ↔
      be16 msg 0 = some id ∧ be16 msg 2 = some flags ∧ be16 msg 4 = some qd ∧
        be16 msg 6 = some an ∧ be16 msg 8 = some ns ∧ be16 msg 10 = some ar ∧
          msg.HasAt 12 xs := by
  simp only [List.hasAt_append, Dns.headerBytes, be16_eq_some, List.length_append,
    UInt16.length_toBytesBE, and_assoc, Nat.zero_add, Nat.reduceAdd]

/-- A question stands at a place when its name, its type and its class do. -/
theorem hasAt_questionBytes {msg : List UInt8} {n : Dns.Name} {qtype qclass : UInt16} {pos : Nat} :
    msg.HasAt pos (questionBytes n qtype qclass) ↔
      msg.HasAt pos n.wire ∧ be16 msg (pos + n.wire.length) = some qtype ∧
        be16 msg (pos + n.wire.length + 2) = some qclass := by
  simp only [questionBytes, Dns.Question.bytes, List.hasAt_append, be16_eq_some,
    UInt16.length_toBytesBE]

/-- The ranges `parse_query` takes for the question and its name. -/
private theorem getRange?_question {msg : List UInt8} {n : Dns.Name} {qtype qclass : UInt16}
    {pos : Nat} (h : msg.HasAt pos (questionBytes n qtype qclass)) :
    msg.getRange? pos (pos + n.wire.length + 4) = some (questionBytes n qtype qclass) ∧
      msg.getRange? pos (pos + n.wire.length) = some n.wire := by
  have hlen := length_questionBytes n qtype qclass
  have hlt := h.lt (List.ne_nil_of_length_pos (by omega))
  have hle := h.length_le (Nat.le_of_lt hlt)
  exact ⟨List.getRange?_eq_some_iff.mpr ⟨by omega, by omega, h⟩,
    List.getRange?_eq_some_iff.mpr ⟨rfl, by omega, (hasAt_questionBytes.mp h).1⟩⟩

/-- The datagrams `parse_query` accepts: a header with the QR bit clear, opcode 0 and one
    question, and then that question. -/
theorem parseQuery_eq_ok {msg : List UInt8} {q : Query} :
    parseQuery msg = .ok q ↔
      ∃ (n : Dns.Name) (an ns ar : UInt16),
        q.qname = n.wire ∧ q.question = questionBytes n q.qtype q.qclass ∧
          q.flags &&& QR = 0 ∧ (q.flags >>> 11) &&& 0xF = 0 ∧
            msg.HasAt 0 (Dns.headerBytes q.id q.flags 1 an ns ar ++ q.question) ∧
              q.edns = findOpt msg (HEADER_LEN + q.question.length)
                (an.toNat + ns.toNat + ar.toNat) := by
  constructor
  -- one split for each early return of `parse_query`
  · intro h
    simp only [parseQuery] at h
    split at h
    · rename_i id flags hid hflags
      split at h
      · exact nomatch h
      · rename_i hstart
        split at h
        · exact nomatch h
        · rename_i hopcode
          split at h
          · rename_i qd an ns ar hqd han hns har
            split at h
            · exact nomatch h
            · rename_i hone
              split at h
              · exact nomatch h
              · rename_i nameEnd hname
                -- every test passed: what stands at the head is a question
                obtain ⟨n, hat, rfl⟩ := skipPlainName_eq_some.mp hname
                split at h
                · rename_i qtype qclass htype hclass
                  have hquestion := hasAt_questionBytes.mpr ⟨hat, htype, hclass⟩
                  obtain ⟨hrange, hrange'⟩ := getRange?_question hquestion
                  simp only [hrange, hrange'] at h
                  obtain rfl := Except.ok.inj h
                  rw [not_or, Decidable.not_not] at hstart
                  rw [Decidable.not_not] at hopcode hone
                  subst hone
                  refine ⟨n, an, ns, ar, rfl, rfl, hstart.2, hopcode, ?_, ?_⟩
                  · exact hasAt_headerBytes.mpr ⟨hid, hflags, hqd, han, hns, har, hquestion⟩
                  · simp only [length_questionBytes, Nat.add_assoc]
                · exact nomatch h
          · exact nomatch h
    · exact nomatch h
  · intro h'
    obtain ⟨n, an, ns, ar, hname, hquestion, hqr, hopcode, hat, hedns⟩ := h'
    obtain ⟨hid, hflags, hqd, han, hns, har, hrest⟩ := hasAt_headerBytes.mp hat
    rw [hquestion] at hrest
    obtain ⟨hn, htype, hclass⟩ := hasAt_questionBytes.mp hrest
    -- the tests of the parser, one by one
    obtain ⟨hrange, hrange'⟩ := getRange?_question hrest
    have hskip : skipPlainName msg HEADER_LEN = some (12 + n.wire.length) :=
      skipPlainName_eq_some.mpr ⟨n, hn, rfl⟩
    have hlen : ¬msg.length < HEADER_LEN := by
      have := hn.lt (List.ne_nil_of_length_pos (Dns.length_wire_pos n.labels))
      unfold HEADER_LEN
      omega
    rw [hquestion, length_questionBytes, ← Nat.add_assoc] at hedns
    simp only [parseQuery, hid, hflags, hqd, han, hns, har]
    rw [if_neg (not_or.mpr ⟨hlen, Decidable.not_not.mpr hqr⟩),
      if_neg (Decidable.not_not.mpr hopcode), if_neg (Decidable.not_not.mpr rfl), hskip]
    simp only [htype, hclass, HEADER_LEN, hrange, hrange']
    unfold HEADER_LEN at hedns
    rw [← hedns, ← hname, ← hquestion]

/-- The datagram has no whole header, or the QR bit set: nothing goes back. -/
def Dropped (msg : List UInt8) : Prop :=
  msg.length < HEADER_LEN ∨ ∃ flags, be16 msg 2 = some flags ∧ flags &&& QR ≠ 0

/-- The code of a bare reply to a datagram with these flags: NOTIMP for another opcode than 0. -/
def badCode (flags : UInt16) : Rcode :=
  if (flags >>> 11) &&& 0xF ≠ 0 then .notImp else .formErr

/-- Nothing goes back, or the reply is to the id and the flags of the datagram. -/
theorem parseQuery_cases (msg : List UInt8) :
    (Dropped msg ∧ parseQuery msg = .error .drop) ∨
      (¬Dropped msg ∧ ∃ id flags, be16 msg 0 = some id ∧ be16 msg 2 = some flags ∧
        (parseQuery msg = .error (.reply id flags (badCode flags)) ∨
          ∃ q, parseQuery msg = .ok q ∧ q.id = id ∧ q.flags = flags)) := by
  -- a field of the header is missing in a short datagram only
  have hshort : ∀ pos, pos + 2 ≤ HEADER_LEN → be16 msg pos = none → Dropped msg := by
    intro pos hpos hnone
    refine .inl (Decidable.byContradiction fun hlen => ?_)
    obtain ⟨v, hv⟩ := @exists_be16 msg pos (by omega)
    rw [hv] at hnone
    cases hnone
  -- the two fields without which nothing can be sent back
  cases hid : be16 msg 0 with
  | none =>
    refine .inl ⟨hshort 0 (by decide) hid, ?_⟩
    simp only [parseQuery, hid]
  | some id =>
    cases hflags : be16 msg 2 with
    | none =>
      refine .inl ⟨hshort 2 (by decide) hflags, ?_⟩
      simp only [parseQuery, hid, hflags]
    | some flags =>
      have hdropped : Dropped msg ↔ msg.length < HEADER_LEN ∨ flags &&& QR ≠ 0 := by
        simp [Dropped, hflags]
      simp only [parseQuery, hid, hflags, hdropped]
      split
      · exact .inl ⟨‹_›, rfl⟩
      · -- from here on something goes back
        refine .inr ⟨‹_›, id, flags, rfl, rfl, ?_⟩
        unfold badCode
        -- the operation code, the header, the count, the name and the type in turn
        split
        · exact .inl rfl
        split
        · split
          · exact .inl rfl
          split
          · exact .inl rfl
          split
          · split
            · exact .inr ⟨_, rfl, rfl, rfl⟩
            · exact .inl rfl
          · exact .inl rfl
        · exact .inl rfl

/-- The question is one for the name `n`. -/
structure Query.Asks (q : Query) (n : Dns.Name) : Prop where
  qname : q.qname = n.wire
  question : q.question = questionBytes n q.qtype q.qclass

/-- An accepted question is one for a name. -/
theorem Query.exists_asks {msg : List UInt8} {q : Query} (h : parseQuery msg = .ok q) :
    ∃ n, q.Asks n := by
  obtain ⟨n, _, _, _, hqname, hquestion, -⟩ := parseQuery_eq_ok.mp h
  exact ⟨n, hqname, hquestion⟩

/-- A question is one for one name only. -/
theorem Query.Asks.unique {q : Query} {n n' : Dns.Name} (h : q.Asks n) (h' : q.Asks n') : n = n' :=
  Dns.Name.wire_inj (h.qname.symm.trans h'.qname)

/-- The question that is kept is as long as the one that is asked. -/
theorem Query.Asks.length_question {q : Query} {n : Dns.Name} (h : q.Asks n) :
    q.question.length = n.wire.length + 4 := by rw [h.question, length_questionBytes]

/-! ## A question for a name -/

/-- An OPT record is found where it stands. -/
theorem findOpt_optRecord {msg : List UInt8} {pos : Nat} {size : UInt16}
    (h : msg.HasAt pos (optRecord size)) (count : Nat) :
    findOpt msg pos (count + 1) = some size := by
  -- the record is the root, its type, its size and four bytes more
  rw [optRecord, List.append_assoc, List.append_assoc, List.singleton_append, List.hasAt_cons] at h
  obtain ⟨hroot, hrest⟩ := h
  obtain ⟨htype, hrest⟩ := List.hasAt_append.mp hrest
  obtain ⟨hsize, hrest⟩ := List.hasAt_append.mp hrest
  have hskip : skipName msg pos = some (pos + 1) := by
    rw [skipName_some hroot, if_pos UInt8.toNat_zero]
  have hrdlen : be16 msg (pos + 1 + 8) = some 0 := be16_eq_some.mpr
    (List.hasAt_append.mp (show msg.HasAt (pos + 1 + 4) ([0, 0, 0, 0] ++ [0, 0]) from hrest)).2
  rw [findOpt, hskip]
  simp only [Option.bind_eq_bind, Option.bind_some, be16_eq_some.mpr htype, hrdlen, if_true,
    show be16 msg (pos + 1 + 2) = some size from be16_eq_some.mpr hsize]

/-- The datagram that asks for a name, in class Internet and with EDNS. -/
def queryFor (n : Dns.Name) (qtype : UInt16) : List UInt8 :=
  Dns.headerBytes 0 RD 1 0 0 1 ++ (questionBytes n qtype CLASS_IN ++
    optRecord (UInt16.ofNat EDNS_MAX))

/-- What is read from that datagram. -/
def queryOf (n : Dns.Name) (qtype : UInt16) : Query where
  id := 0
  flags := RD
  question := questionBytes n qtype CLASS_IN
  qname := n.wire
  qtype := qtype
  qclass := CLASS_IN
  edns := some (UInt16.ofNat EDNS_MAX)

/-- The plain question is accepted. -/
theorem parseQuery_queryFor (n : Dns.Name) (qtype : UInt16) :
    parseQuery (queryFor n qtype) = .ok (queryOf n qtype) := by
  have hat : (queryFor n qtype).HasAt 0 (queryFor n qtype) := List.prefix_rfl
  obtain ⟨hid, hflags, hqd, han, hns, har, hrest⟩ := hasAt_headerBytes.mp hat
  obtain ⟨hquestion, hopt⟩ := List.hasAt_append.mp hrest
  refine parseQuery_eq_ok.mpr ⟨n, 0, 0, 1, rfl, rfl, (by decide : RD &&& QR = 0),
    (by decide : RD >>> 11 &&& 0xF = 0), ?_, ?_⟩
  · exact hasAt_headerBytes.mpr ⟨hid, hflags, hqd, han, hns, har, hquestion⟩
  · exact (findOpt_optRecord hopt 0).symm

theorem queryOf_asks (n : Dns.Name) (qtype : UInt16) : (queryOf n qtype).Asks n := ⟨rfl, rfl⟩

end HopDns

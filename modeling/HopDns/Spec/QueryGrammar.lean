import HopDns.Spec.QueryCorrect

/-!
# The grammar of a question

`parse_query` as a decision on the bytes of a datagram: what is dropped, what is
answered without being read further, and what is accepted. Of an accepted datagram
only the search for EDNS goes beyond the question.

## Key results

- `parseQuery_tail`: another tail behind the question changes nothing but EDNS
- `parseQuery_grammar`: every datagram is classified by its header and its question
-/

namespace HopDns

open ForStd

/-- The opcode in the header is that of an ordinary question. -/
def Ordinary (msg : List UInt8) : Prop :=
  ∃ flags, be16 msg 2 = some flags ∧ (flags >>> 11) &&& 0xF = 0

/-- QDCOUNT is 1, and behind the header stands the question: the labels of a name and the
    empty label, the type and the class. -/
def Poses (msg : List UInt8) (n : Dns.Name) (qtype qclass : UInt16) : Prop :=
  be16 msg 4 = some 1 ∧
    msg.HasAt HEADER_LEN (n.wire ++ (qtype.toBytesBE ++ qclass.toBytesBE))

/-- What is to become of a datagram. -/
structure Classified (msg : List UInt8) (r : Except Bad Query) : Prop where
  /-- too short for a header, or a reply -/
  drop : r = .error .drop ↔ Dropped msg
  /-- another opcode -/
  notImp : (∃ id flags, r = .error (.reply id flags .notImp)) ↔ ¬Dropped msg ∧ ¬Ordinary msg
  /-- not one question, or not a question -/
  formErr : (∃ id flags, r = .error (.reply id flags .formErr)) ↔
    ¬Dropped msg ∧ Ordinary msg ∧ ¬∃ n qtype qclass, Poses msg n qtype qclass
  /-- everything else -/
  ok : (∃ q, r = .ok q) ↔
    ¬Dropped msg ∧ Ordinary msg ∧ ∃ n qtype qclass, Poses msg n qtype qclass
  /-- a reply is to the datagram's own id and flags -/
  replied : ∀ id flags rcode, r = .error (.reply id flags rcode) →
    be16 msg 0 = some id ∧ be16 msg 2 = some flags
  /-- what is accepted is what stands there -/
  fields : ∀ q, r = .ok q → be16 msg 0 = some q.id ∧ be16 msg 2 = some q.flags ∧
    ∀ n qtype qclass, Poses msg n qtype qclass → q.qname = n.wire ∧ q.qtype = qtype ∧
      q.qclass = qclass ∧ q.question = n.wire ++ (qtype.toBytesBE ++ qclass.toBytesBE)

/-! ## What the header and the question decide -/

/-- An accepted datagram starts with its header and its question. -/
theorem exists_front {msg : List UInt8} {q : Query} (h : parseQuery msg = .ok q) :
    ∃ an ns ar, be16 msg 6 = some an ∧ be16 msg 8 = some ns ∧ be16 msg 10 = some ar ∧
      msg.take (HEADER_LEN + q.question.length) =
        Dns.headerBytes q.id q.flags 1 an ns ar ++ q.question := by
  obtain ⟨n, an, ns, ar, -, -, -, -, hat, -⟩ := parseQuery_eq_ok.mp h
  obtain ⟨-, -, -, han, hns, har, -⟩ := hasAt_headerBytes.mp hat
  have htake := List.prefix_iff_eq_take.mp hat
  rw [List.length_append, Dns.length_headerBytes, List.drop_zero] at htake
  exact ⟨an, ns, ar, han, hns, har, htake.symm⟩

/-- With another tail behind the question the datagram is accepted as well, and reads the
    same but for EDNS. -/
theorem parseQuery_tail {msg : List UInt8} {q : Query} (h : parseQuery msg = .ok q)
    {an ns ar : UInt16} (han : be16 msg 6 = some an) (hns : be16 msg 8 = some ns)
    (har : be16 msg 10 = some ar) (tail : List UInt8) :
    parseQuery (msg.take (HEADER_LEN + q.question.length) ++ tail) =
      .ok { q with
        edns := findOpt (msg.take (HEADER_LEN + q.question.length) ++ tail)
          (HEADER_LEN + q.question.length) (an.toNat + ns.toNat + ar.toNat) } := by
  -- what was read lies in front of the tail
  obtain ⟨n, _, _, _, hqname, hquestion, hqr, hopcode, -, -⟩ := parseQuery_eq_ok.mp h
  obtain ⟨an', ns', ar', han', hns', har', htake⟩ := exists_front h
  obtain rfl := Option.some.inj (han.symm.trans han')
  obtain rfl := Option.some.inj (hns.symm.trans hns')
  obtain rfl := Option.some.inj (har.symm.trans har')
  refine parseQuery_eq_ok.mpr ⟨n, an, ns, ar, hqname, hquestion, hqr, hopcode, ?_, rfl⟩
  -- the front is the same, whatever stands behind it
  rw [htake]
  exact List.prefix_append _ _

/-- A datagram that poses a question is accepted, with that question. -/
theorem Poses.parseQuery {msg : List UInt8} {n : Dns.Name} {qtype qclass : UInt16}
    (h : Poses msg n qtype qclass) (hkept : ¬Dropped msg) (hordinary : Ordinary msg) :
    ∃ q, parseQuery msg = .ok q ∧ q.qname = n.wire ∧ q.qtype = qtype ∧ q.qclass = qclass := by
  obtain ⟨flags, hflags, hopcode⟩ := hordinary
  have hlen : HEADER_LEN ≤ msg.length := Nat.le_of_not_lt fun hlt => hkept (.inl hlt)
  -- a response would have been dropped
  have hqr : flags &&& QR = 0 :=
    Decidable.not_not.mp fun hne => hkept (.inr ⟨flags, hflags, hne⟩)
  unfold HEADER_LEN at hlen
  obtain ⟨id, hid⟩ := @exists_be16 msg 0 (by omega)
  obtain ⟨an, han⟩ := @exists_be16 msg 6 (by omega)
  obtain ⟨ns, hns⟩ := @exists_be16 msg 8 (by omega)
  obtain ⟨ar, har⟩ := @exists_be16 msg 10 (by omega)
  -- the query that is read off the message
  let question := questionBytes n qtype qclass
  let edns := findOpt msg (HEADER_LEN + question.length) (an.toNat + ns.toNat + ar.toNat)
  refine ⟨⟨id, flags, question, n.wire, qtype, qclass, edns⟩, ?_, rfl, rfl, rfl⟩
  refine parseQuery_eq_ok.mpr ⟨n, an, ns, ar, rfl, rfl, hqr, hopcode, ?_, rfl⟩
  exact hasAt_headerBytes.mpr ⟨hid, hflags, h.1, han, hns, har, h.2⟩

/-- An accepted datagram is kept, has opcode 0, and poses the question that is read. -/
private theorem exists_poses {msg : List UInt8} {q : Query} (h : parseQuery msg = .ok q) :
    ¬Dropped msg ∧ Ordinary msg ∧ ∃ n, q.Asks n ∧ Poses msg n q.qtype q.qclass := by
  obtain ⟨n, an, ns, ar, hqname, hquestion, -, hopcode, hat, -⟩ := parseQuery_eq_ok.mp h
  obtain ⟨-, hflags, hqd, -, -, -, hrest⟩ := hasAt_headerBytes.mp hat
  refine ⟨fun hdropped => ?_, ⟨q.flags, hflags, hopcode⟩, n, ⟨hqname, hquestion⟩, hqd, ?_⟩
  · obtain ⟨-, hdrop⟩ | ⟨hkept, -⟩ := parseQuery_cases msg
    · cases h.symm.trans hdrop
    · exact hkept hdropped
  · rw [hquestion] at hrest
    exact hrest

/-- A datagram poses one question only. -/
theorem Poses.unique {msg : List UInt8} {n n' : Dns.Name} {qtype qtype' qclass qclass' : UInt16}
    (h : Poses msg n qtype qclass) (h' : Poses msg n' qtype' qclass') :
    n = n' ∧ qtype = qtype' ∧ qclass = qclass' := by
  obtain ⟨hn, htype, hclass⟩ := hasAt_questionBytes.mp h.2
  obtain ⟨hn', htype', hclass'⟩ := hasAt_questionBytes.mp h'.2
  obtain ⟨rest, hrest⟩ := hn
  obtain ⟨rest', hrest'⟩ := hn'
  -- the empty label ends the name, so the labels are told apart from what follows
  obtain ⟨hlabels, -⟩ := Dns.wire_append_inj n.legal n'.legal (hrest.trans hrest'.symm)
  obtain rfl : n = n' := Dns.Name.wire_inj (congrArg Dns.wire hlabels)
  exact ⟨rfl, Option.some.inj (htype.symm.trans htype'),
    Option.some.inj (hclass.symm.trans hclass')⟩

/-! ## Every datagram -/

/-- A bare reply is NOTIMP for another opcode and FORMERR for opcode 0. -/
private theorem badCode_cases {msg : List UInt8} {flags : UInt16}
    (hflags : be16 msg 2 = some flags) :
    (¬Ordinary msg ∧ badCode flags = .notImp) ∨ (Ordinary msg ∧ badCode flags = .formErr) := by
  have hordinary : Ordinary msg ↔ (flags >>> 11) &&& 0xF = 0 := by
    simp only [Ordinary, hflags, Option.some.injEq, exists_eq_left']
  by_cases hop : (flags >>> 11) &&& 0xF = 0
  · exact .inr ⟨hordinary.mpr hop, if_neg (Decidable.not_not.mpr hop)⟩
  · exact .inl ⟨fun h => hop (hordinary.mp h), if_pos hop⟩

/-- The four things that can become of a datagram, each with what decides for it. -/
private theorem parseQuery_decides (msg : List UInt8) :
    (Dropped msg ∧ parseQuery msg = .error .drop) ∨
      (¬Dropped msg ∧ ((∃ id flags, be16 msg 0 = some id ∧ be16 msg 2 = some flags ∧
        ((¬Ordinary msg ∧ parseQuery msg = .error (.reply id flags .notImp)) ∨
          (Ordinary msg ∧ (¬∃ n qtype qclass, Poses msg n qtype qclass) ∧
            parseQuery msg = .error (.reply id flags .formErr)))) ∨
        (Ordinary msg ∧ (∃ n qtype qclass, Poses msg n qtype qclass) ∧
          ∃ q, parseQuery msg = .ok q))) := by
  -- dropped, refused with a code, or accepted
  obtain ⟨hdropped, hdrop⟩ | ⟨hkept, id, flags, hid, hflags, hreply | ⟨q, hq, -⟩⟩ :=
    parseQuery_cases msg
  · exact .inl ⟨hdropped, hdrop⟩
  · refine .inr ⟨hkept, .inl ⟨id, flags, hid, hflags, ?_⟩⟩
    -- the operation code comes before the question
    obtain ⟨hother, hcode⟩ | ⟨hordinary, hcode⟩ := badCode_cases hflags
    · exact .inl ⟨hother, hcode ▸ hreply⟩
    · refine .inr ⟨hordinary, ?_, hcode ▸ hreply⟩
      -- a question would have been read
      rintro ⟨n, qtype, qclass, hposes⟩
      obtain ⟨q, hq, -⟩ := hposes.parseQuery hkept hordinary
      cases hreply.symm.trans hq
  · obtain ⟨-, hordinary, n, -, hposes⟩ := exists_poses hq
    exact .inr ⟨hkept, .inr ⟨hordinary, ⟨n, _, _, hposes⟩, q, hq⟩⟩

/-- What is read from an accepted datagram is what stands there. -/
private theorem parseQuery_fields {msg : List UInt8} {q : Query} (h : parseQuery msg = .ok q) :
    be16 msg 0 = some q.id ∧ be16 msg 2 = some q.flags ∧
      ∀ n qtype qclass, Poses msg n qtype qclass → q.qname = n.wire ∧ q.qtype = qtype ∧
        q.qclass = qclass ∧ q.question = n.wire ++ (qtype.toBytesBE ++ qclass.toBytesBE) := by
  obtain ⟨-, -, n, hasks, hposes⟩ := exists_poses h
  obtain ⟨_, _, _, _, -, -, -, -, hat, -⟩ := parseQuery_eq_ok.mp h
  obtain ⟨hid, hflags, -⟩ := hasAt_headerBytes.mp hat
  refine ⟨hid, hflags, fun n' qtype qclass hposes' => ?_⟩
  obtain ⟨rfl, rfl, rfl⟩ := hposes'.unique hposes
  exact ⟨hasks.qname, rfl, rfl, hasks.question⟩

/-- What becomes of a datagram is decided by its header and by whether it poses a question. -/
private theorem parseQuery_classified (msg : List UInt8) : Classified msg (parseQuery msg) := by
  -- one record of six facts for each of the four outcomes
  obtain ⟨hdropped, h⟩ | ⟨hkept, ⟨id, flags, hid, hflags, ⟨hother, h⟩ | ⟨hordinary, hnone, h⟩⟩ |
    ⟨hordinary, hsome, q, h⟩⟩ := parseQuery_decides msg
  · rw [h]
    exact {
      drop := iff_of_true rfl hdropped
      notImp := iff_of_false (by simp) fun h' => h'.1 hdropped
      formErr := iff_of_false (by simp) fun h' => h'.1 hdropped
      ok := iff_of_false (by simp) fun h' => h'.1 hdropped
      replied := by simp
      fields := by simp }
  · rw [h]
    exact {
      drop := iff_of_false (by simp) hkept
      notImp := iff_of_true ⟨id, flags, rfl⟩ ⟨hkept, hother⟩
      formErr := iff_of_false (by simp) fun h' => hother h'.2.1
      ok := iff_of_false (by simp) fun h' => hother h'.2.1
      replied := by simp [hid, hflags]
      fields := by simp }
  · rw [h]
    exact {
      drop := iff_of_false (by simp) hkept
      notImp := iff_of_false (by simp) fun h' => h'.2 hordinary
      formErr := iff_of_true ⟨id, flags, rfl⟩ ⟨hkept, hordinary, hnone⟩
      ok := iff_of_false (by simp) fun h' => hnone h'.2.2
      replied := by simp [hid, hflags]
      fields := by simp }
  · rw [h]
    exact {
      drop := iff_of_false (by simp) hkept
      notImp := iff_of_false (by simp) fun h' => h'.2 hordinary
      formErr := iff_of_false (by simp) fun h' => h'.2.2 hsome
      ok := iff_of_true ⟨q, rfl⟩ ⟨hkept, hordinary, hsome⟩
      replied := by simp
      fields := fun q' hq' => Except.ok.inj hq' ▸ parseQuery_fields h }

/-- The grammar of `parse_query`: every datagram is classified, and the fields of an accepted
    one, all but EDNS, stay what they are with any other bytes behind the question. -/
theorem parseQuery_grammar (msg : List UInt8) :
    Classified msg (parseQuery msg) ∧ ∀ q, parseQuery msg = .ok q → ∀ tail, ∃ edns,
      parseQuery (msg.take (HEADER_LEN + q.question.length) ++ tail) =
        .ok { q with edns := edns } := by
  refine ⟨parseQuery_classified msg, fun q hq tail => ?_⟩
  obtain ⟨an, ns, ar, han, hns, har, -⟩ := exists_front hq
  exact ⟨_, parseQuery_tail hq han hns har tail⟩

end HopDns

import HopDns.Native.Decode
import HopDns.Spec.QueryCorrect
import HopDns.Spec.ReplyCorrect

/-!
# Reading an answer

`decode` against messages on the wire: the names it reads, with and without a pointer,
the records it reads, and the whole of a message.

## Key results

- `readNameFrom_labels`: what the loop over a name makes of labels of any bytes
- `readName_wire`, `readName_pointer`: a name is read as its labels, each with a dot behind it
- `readRecords_yields`: records that can each be read can be read one after the other
- `decode_bytes`: a message whose records can be read is read as a whole
-/

namespace HopDns

open ForStd

/-! ## Names -/

/-- The labels as a full name: a dot behind each of them, and for the root a dot alone. -/
def fullName (labels : List Str) : Str :=
  if labels = [] then [dot] else labels.flatMap fun l => l ++ [dot]

/-- A label of ASCII bytes. -/
def AsciiLabel (l : Str) : Prop := ∀ b ∈ l, b < 0x80

instance (l : Str) : Decidable (AsciiLabel l) := inferInstanceAs (Decidable (∀ b ∈ l, b < 0x80))

/-- Labels of ASCII bytes. -/
def AsciiLabels (labels : List Str) : Prop := ∀ l ∈ labels, AsciiLabel l

instance (labels : List Str) : Decidable (AsciiLabels labels) :=
  inferInstanceAs (Decidable (∀ l ∈ labels, AsciiLabel l))

/-- A label of ASCII is its own text. -/
private theorem flatMap_charFrom {l : Str} (h : AsciiLabel l) : l.flatMap charFrom = l := by
  induction l with
  | nil => rfl
  | cons b l ih =>
    obtain ⟨hb, hl⟩ := List.forall_mem_cons.mp h
    rw [List.flatMap_cons, ih hl, charFrom, if_pos hb, List.singleton_append]

/-- The labels as `read_name` puts them down: byte by byte a character, with a dot behind each
    label. -/
def fullText (labels : List Str) : Str := labels.flatMap fun l => l.flatMap charFrom ++ [dot]

/-- The first label stands at the front of the full text. -/
theorem fullText_cons (l : Str) (labels : List Str) :
    fullText (l :: labels) = l.flatMap charFrom ++ [dot] ++ fullText labels := List.flatMap_cons

/-- ASCII labels are put down as they are. -/
private theorem fullText_ascii {labels : List Str} (h : AsciiLabels labels) :
    fullText labels = labels.flatMap fun l => l ++ [dot] := by
  induction labels with
  | nil => rfl
  | cons l labels ih =>
    obtain ⟨hl, hlabels⟩ := List.forall_mem_cons.mp h
    rw [fullText_cons, flatMap_charFrom hl, ih hlabels, List.flatMap_cons]

/-- With a dot behind each label a name is shorter by one than on the wire. -/
private theorem length_dotted (labels : List Str) :
    (labels.flatMap fun l => l ++ [dot]).length + 1 = (Dns.wire labels).length := by
  induction labels with
  | nil => rfl
  | cons l labels ih =>
    rw [List.flatMap_cons, List.length_append, List.length_append, List.length_singleton,
      Dns.length_wire_cons, ← ih]
    omega

/-- The loop of `read_name` over the labels that stand at its place, of any bytes. -/
theorem readNameFrom_labels {msg : List UInt8} {labels : List Str} (hlegal : Dns.Legal labels)
    {pos : Nat} (hat : msg.HasAt pos (Dns.wire labels)) {name : Str}
    (hname : name.length ≤ NAME_MAX) (stop : Option Nat) :
    Yields (readNameFrom msg name pos stop)
      (if name.length + (fullText labels).length ≤ NAME_MAX then
        .ok (if name ++ fullText labels = [] then [dot] else name ++ fullText labels,
          stop.getD (pos + (Dns.wire labels).length))
      else .error .malformed) := by
  -- the induction is on the labels, for every name read so far
  induction labels generalizing pos name with
  | nil =>
    -- the empty label: the name read so far, or the root
    rw [hasAt_wire_nil] at hat
    rw [readNameFrom, hat, show fullText [] = [] from rfl, List.append_nil, List.length_nil,
      if_pos (show name.length + 0 ≤ NAME_MAX from hname)]
    simp only
    rw [if_pos UInt8.toNat_zero]
    cases name with
    | nil => exact tryReserve_yields.bind (Computes.pure _)
    | cons b name => exact Computes.pure _
  | cons l labels ih =>
    obtain ⟨hb, hl, hrest⟩ := hasAt_wire_cons.mp hat
    have hlabel := hlegal.head
    have hlen := hlabel.toNat_ofNat
    unfold Dns.LegalLabel at hlabel
    -- the label is there, as the rest of the name is behind it
    have hrange : msg.getRange? (pos + 1) (pos + 1 + l.length) = some l := by
      have hlt := hrest.lt (List.ne_nil_of_length_pos (Dns.length_wire_pos labels))
      exact List.getRange?_eq_some_iff.mpr ⟨rfl, Nat.le_of_lt hlt, hl⟩
    have htext : name ++ fullText (l :: labels) =
        name ++ l.flatMap charFrom ++ [dot] ++ fullText labels := by
      simp only [fullText_cons, List.append_assoc]
    have hlength : name.length + (fullText (l :: labels)).length =
        (name ++ l.flatMap charFrom ++ [dot]).length + (fullText labels).length := by
      rw [← List.length_append, htext, List.length_append]
    have hend : pos + (Dns.wire (l :: labels)).length =
        pos + 1 + l.length + (Dns.wire labels).length := by
      rw [Dns.length_wire_cons]
      omega
    -- the loop reads the label and goes on behind it
    rw [readNameFrom, hb, htext, hlength, hend]
    simp only [hlen]
    rw [if_neg (by omega), if_pos hlabel.2]
    refine (okOr_yields hrange .malformed).bind (tryReserve_yields.bind ?_)
    -- a text that is too long by now stays so
    split
    · rename_i hbig
      rw [if_neg (by omega)]
      exact Computes.throw _
    · rename_i hfits
      exact ih hlegal.tail hrest (Nat.le_of_not_lt hfits)

/-- The loop reads the ASCII labels that stand at its place, when they fit a name. -/
private theorem readNameFrom_wire {msg : List UInt8} {labels : List Str} (hlegal : Dns.Legal labels)
    (hascii : AsciiLabels labels) {pos : Nat} (hat : msg.HasAt pos (Dns.wire labels))
    (hlen : (Dns.wire labels).length ≤ 256) (stop : Option Nat) :
    Yields (readNameFrom msg [] pos stop)
      (.ok (fullName labels, stop.getD (pos + (Dns.wire labels).length))) := by
  -- in ASCII the text is one octet shorter than the name on the wire
  have hread := @readNameFrom_labels msg labels hlegal pos hat [] (Nat.zero_le _) stop
  have hdotted := length_dotted labels
  have hname : (if (labels.flatMap fun l => l ++ [dot]) = [] then [dot]
      else labels.flatMap fun l => l ++ [dot]) = fullName labels := by
    unfold fullName
    cases labels with
    | nil => rfl
    | cons l labels => rw [if_neg (by simp), if_neg (List.cons_ne_nil l labels)]
  rw [fullText_ascii hascii, List.nil_append, List.length_nil,
    if_pos (by unfold NAME_MAX; omega), hname] at hread
  exact hread

/-- A name is read as a full name, and its end is behind it. -/
theorem readName_wire {msg : List UInt8} {labels : List Str} (hlegal : Dns.Legal labels)
    (hascii : AsciiLabels labels) {pos : Nat} (hat : msg.HasAt pos (Dns.wire labels))
    (hlen : (Dns.wire labels).length ≤ 256) :
    Yields (readName msg pos) (.ok (fullName labels, pos + (Dns.wire labels).length)) :=
  readNameFrom_wire hlegal hascii hat hlen none

/-- A pointer to the name of the question is read as that name, and its end is behind the
    pointer. -/
theorem readName_pointer {msg : List UInt8} {labels : List Str} (hlegal : Dns.Legal labels)
    (hascii : AsciiLabels labels) (hname : msg.HasAt HEADER_LEN (Dns.wire labels))
    (hlen : (Dns.wire labels).length ≤ 256) {pos : Nat} (hpos : HEADER_LEN < pos)
    (hat : msg.HasAt pos QNAME_PTR) :
    Yields (readName msg pos) (.ok (fullName labels, pos + 2)) := by
  unfold QNAME_PTR at hat
  -- the two octets of the pointer to the question
  have hv : be16 msg pos = some 0xC00C := be16_eq_some.mpr hat
  obtain ⟨hb, -⟩ := List.hasAt_cons.mp hat
  have htarget : ((0xC00C : UInt16) &&& 0x3FFF).toNat = HEADER_LEN := by decide
  have hread := readNameFrom_wire hlegal hascii hname hlen (some (pos + 2))
  -- one turn for the pointer, and from there on the name as it stands
  rw [readName, readNameFrom, hb]
  simp only [hv, htarget]
  rw [if_neg (by decide), if_neg (by decide), if_pos (by decide), dif_neg (by omega)]
  exact hread

/-! ## Records -/

/-- The number at a place is the one whose bytes stand there. -/
theorem be32_of_hasAt {b : List UInt8} {pos : Nat} {v : UInt32} (h : b.HasAt pos v.toBytesBE) :
    be32 b pos = some v := by
  simp only [UInt32.toBytesBE, List.hasAt_cons] at h
  obtain ⟨h₀, h₁, h₂, h₃, -⟩ := h
  simp only [be32, h₀, h₁, h₂, h₃, Option.bind_eq_bind, Option.bind_some, Option.pure_def,
    UInt32.ofBytesBE_toBytesBE]

/-- The part of `read_record` that reads the data, at `rd`. -/
def readData (msg : List UInt8) (type : UInt16) (rd : Nat) (rdata : List UInt8) : Fallible Rdata :=
  if type = rtype.A then
    match rdata with
    | [a, b, c, d] => pure (Rdata.a ⟨a, b, c, d⟩)
    | _ => Method.throw .malformed
  else if type = rtype.CNAME then do
    let (target, _) ← readName msg rd
    pure (Rdata.cname target)
  else if type = rtype.SOA then do
    let (mname, p) ← readName msg rd
    let (rname, p) ← readName msg p
    let n := fun i => Method.okOr (be32 msg (p + 4 * i)) .malformed
    let serial ← n 0
    let refresh ← n 1
    let retry ← n 2
    let expire ← n 3
    let minimum ← n 4
    pure (Rdata.soa mname rname serial refresh retry expire minimum)
  else pure (Rdata.other type)

/-- A record is read part after part. -/
theorem readRecord_eq (msg : List UInt8) (pos : Nat) :
    readRecord msg pos = do
      let (name, pos) ← readName msg pos
      let type ← Method.okOr (be16 msg pos) .malformed
      let ttl ← Method.okOr (be32 msg (pos + 4)) .malformed
      let rdlen ← Method.okOr (be16 msg (pos + 8)) .malformed
      let rdata ← Method.okOr (msg.getRange? (pos + 10) (pos + 10 + rdlen.toNat)) .malformed
      let data ← readData msg type (pos + 10) rdata
      return (⟨name, type, ttl, data⟩, pos + 10 + rdlen.toNat) := by
  unfold readRecord readData
  refine bind_congr fun p => ?_
  refine bind_congr fun type => bind_congr fun ttl => bind_congr fun rdlen => ?_
  refine bind_congr fun rdata => ?_
  -- what follows the data is in every branch
  split
  · rcases rdata with _ | ⟨a, _ | ⟨b, _ | ⟨c, _ | ⟨d, _ | ⟨e, rest⟩⟩⟩⟩⟩ <;> rfl
  · split
    · simp only [bind_assoc, pure_bind]
    · split
      · simp only [bind_assoc, pure_bind]
      · rfl

/-- A record is read where it stands, if its owner and its data are. -/
theorem readRecord_yields {msg : List UInt8} {pos : Nat} {rr : Dns.Record} {name : Str}
    {data : Rdata} (hat : msg.HasAt pos rr.bytes) (hsize : rr.rdata.length < 65536)
    (hname : Yields (readName msg pos) (.ok (name, pos + rr.owner.length)))
    (hdata : Yields (readData msg rr.rtype (pos + rr.owner.length + 10) rr.rdata) (.ok data)) :
    Yields (readRecord msg pos)
      (.ok (⟨name, rr.rtype, rr.ttl, data⟩, pos + rr.bytes.length)) := by
  -- the fields of the record, each at its place
  have hbytes := rr.length_bytes
  have hle := hat.length_le (Nat.le_of_lt (hat.lt (List.ne_nil_of_length_pos (by omega))))
  simp only [Dns.Record.bytes, List.hasAt_append, UInt16.length_toBytesBE,
    UInt32.length_toBytesBE] at hat
  -- what stands at each field's place
  obtain ⟨-, htype, -, httl, hlen, hrdata⟩ := hat
  have hrdlen : (UInt16.ofNat rr.rdata.length).toNat = rr.rdata.length :=
    UInt16.toNat_ofNat_of_lt' hsize
  have hrange : msg.getRange? (pos + rr.owner.length + 10)
      (pos + rr.owner.length + 10 + (UInt16.ofNat rr.rdata.length).toNat) = some rr.rdata := by
    rw [hrdlen]
    exact List.getRange?_eq_some_iff.mpr ⟨rfl, by omega, hrdata⟩
  rw [readRecord_eq, show pos + rr.bytes.length =
    pos + rr.owner.length + 10 + (UInt16.ofNat rr.rdata.length).toNat by rw [hrdlen]; omega]
  refine hname.bind ?_
  refine (okOr_yields (be16_eq_some.mpr htype) .malformed).bind ?_
  refine (okOr_yields (be32_of_hasAt httl) .malformed).bind ?_
  refine (okOr_yields (be16_eq_some.mpr hlen) .malformed).bind ?_
  refine (okOr_yields hrange .malformed).bind ?_
  exact hdata.bind (Computes.pure _)

/-- Records, each of which can be read, are read one after the other. -/
theorem readRecords_yields {α : Type} {msg : List UInt8} {wire : α → Dns.Record}
    {record : α → Record} {as : List α} (hread : ∀ a ∈ as, ∀ pos, HEADER_LEN < pos →
      msg.HasAt pos (wire a).bytes →
        Yields (readRecord msg pos) (.ok (record a, pos + (wire a).bytes.length)))
    {pos : Nat} (hpos : HEADER_LEN < pos)
    (hat : msg.HasAt pos (as.flatMap fun a => (wire a).bytes)) (out : List Record) :
    Yields (readRecords msg pos out as.length)
      (.ok (out ++ as.map record, pos + (as.flatMap fun a => (wire a).bytes).length)) := by
  -- the induction is on the records
  induction as generalizing pos out with
  | nil =>
    rw [List.map_nil, List.append_nil]
    exact Computes.pure _
  | cons a as ih =>
    obtain ⟨ha, has⟩ := List.forall_mem_cons.mp hread
    rw [List.flatMap_cons, List.hasAt_append] at hat
    have hrest := ih has (show HEADER_LEN < pos + (wire a).bytes.length by omega) hat.2
      (out ++ [record a])
    rw [List.append_assoc, List.singleton_append, ← List.map_cons, Nat.add_assoc,
      ← List.length_append] at hrest
    rw [List.length_cons, readRecords, List.flatMap_cons]
    exact (ha pos hpos hat.1).bind (tryReserve_yields.bind hrest)

/-! ## Messages -/

/-- The end of a name without a pointer. -/
theorem skipName_wire {msg : List UInt8} {labels : List Str} (hlegal : Dns.Legal labels)
    {pos : Nat} (hat : msg.HasAt pos (Dns.wire labels)) :
    skipName msg pos = some (pos + (Dns.wire labels).length) := by
  -- the induction is on the labels
  induction labels generalizing pos with
  | nil =>
    rw [hasAt_wire_nil] at hat
    rw [skipName_some hat, if_pos UInt8.toNat_zero]
    rfl
  | cons l labels ih =>
    obtain ⟨hb, -, hrest⟩ := hasAt_wire_cons.mp hat
    have hl := hlegal.head
    have hlen := hl.toNat_ofNat
    unfold Dns.LegalLabel at hl
    rw [skipName_some hb, hlen, if_neg (by omega), if_pos hl.2, ih hlegal.tail hrest,
      Dns.length_wire_cons, show pos + 1 + l.length + (Dns.wire labels).length =
        pos + (l.length + 1 + (Dns.wire labels).length) by omega]

/-- A message with one question is read as a whole, when each of its records can be read. -/
theorem decode_bytes {α β : Type} {n : Dns.Name} {m : Dns.Message} {q : Dns.Question}
    (hquestions : m.questions = [q]) (hname : q.name = n.wire) {as : List α} {bs : List β}
    {wire : α → Dns.Record} {wire' : β → Dns.Record} {record : α → Record} {record' : β → Record}
    (hanswers : m.answers = as.map wire) (hauthority : m.authority = bs.map wire')
    (han : as.length < 65536) (hns : bs.length < 65536)
    (hread : m.bytes.HasAt HEADER_LEN n.wire → ∀ a ∈ as, ∀ pos, HEADER_LEN < pos →
      m.bytes.HasAt pos (wire a).bytes →
        Yields (readRecord m.bytes pos) (.ok (record a, pos + (wire a).bytes.length)))
    (hread' : ∀ b ∈ bs, ∀ pos, HEADER_LEN < pos → m.bytes.HasAt pos (wire' b).bytes →
      Yields (readRecord m.bytes pos) (.ok (record' b, pos + (wire' b).bytes.length))) :
    Yields (decode m.bytes)
      (.ok ⟨m.id, m.flags, as.map record, bs.map record', UInt16.ofNat m.additional.length⟩) := by
  generalize hmsg : m.bytes = msg at hread hread' ⊢
  -- the parts of the message, each at its place
  have hat : ∀ xs, xs = msg → msg.HasAt 0 xs := by
    rintro xs rfl
    exact List.prefix_rfl
  rw [Dns.Message.bytes, hquestions, hanswers, hauthority] at hmsg
  have hat := hat _ hmsg
  obtain ⟨hid, hflags, hqd, han', hns', har, hbody⟩ := hasAt_headerBytes.mp hat
  simp only [List.flatMap_cons, List.flatMap_nil, List.append_nil, List.flatMap_map,
    List.length_map, List.hasAt_append] at han' hns' hbody
  obtain ⟨hq, ha, hb, -⟩ := hbody
  have hqlen := q.length_bytes
  -- the questions are skipped by the name and the four bytes behind it
  have hwire : msg.HasAt HEADER_LEN n.wire := by
    rw [Dns.Question.bytes, hname, List.hasAt_append] at hq
    exact hq.1
  have hskip : skipName msg HEADER_LEN = some (HEADER_LEN + n.wire.length) :=
    skipName_wire n.legal hwire
  have hquestion : Yields (skipQuestions msg HEADER_LEN ((1 : UInt16).toNat))
      (.ok (12 + q.bytes.length)) := by
    rw [hqlen, hname, ← Nat.add_assoc]
    exact (okOr_yields hskip .malformed).bind (Computes.pure _)
  have hpos : HEADER_LEN < 12 + q.bytes.length := by
    unfold HEADER_LEN
    omega
  -- the two sections that are read follow one another
  have hreads := readRecords_yields (hread hwire) hpos ha []
  have hreads' := readRecords_yields hread'
    (show HEADER_LEN < 12 + q.bytes.length + (as.flatMap fun a => (wire a).bytes).length by omega)
    hb []
  rw [List.nil_append] at hreads hreads'
  have hcount : (UInt16.ofNat as.length).toNat = as.length := UInt16.toNat_ofNat_of_lt' han
  have hcount' : (UInt16.ofNat bs.length).toNat = bs.length := UInt16.toNat_ofNat_of_lt' hns
  -- the fields in the order the source reads them
  unfold decode
  refine (okOr_yields hid .malformed).bind ?_
  refine (okOr_yields hflags .malformed).bind ?_
  refine (okOr_yields har .malformed).bind ?_
  refine (okOr_yields hqd .malformed).bind ?_
  refine (okOr_yields han' .malformed).bind ?_
  refine (okOr_yields hns' .malformed).bind ?_
  refine hquestion.bind ?_
  rw [hcount, hcount']
  exact hreads.bind (hreads'.bind (Computes.pure _))

end HopDns

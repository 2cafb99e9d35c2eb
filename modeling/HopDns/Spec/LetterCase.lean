import HopDns.Spec.ReplyFlags

/-!
# The case of the letters in a question

A name is looked up in lower case, and goes back as it was asked for. Datagrams that
differ in the case of letters of the question name alone get replies that differ in the
name alone, each with its own spelling. All length bytes of the two names are the same, so
their labels go along with each other, and what stands behind the names is the same.

## Key results

- `parseQuery_case`: what is read from two such datagrams
- `Draft.render_withName`: the name has no part in what is drawn up but its length
- `Server.handle_case`: the two replies
-/

namespace HopDns

open ForStd

/-- The byte at `i` is one inside a label of the name that stands at `pos`. -/
inductive LabelByte (msg : List UInt8) : Nat → Nat → Prop where
  | here {pos i : Nat} {b : UInt8} (hb : msg[pos]? = some b) (hshort : b.toNat ≤ LABEL_MAX)
      (hafter : pos < i) (hwithin : i ≤ pos + b.toNat) : LabelByte msg pos i
  | later {pos i : Nat} {b : UInt8} (hb : msg[pos]? = some b) (hlabel : 0 < b.toNat)
      (hshort : b.toNat ≤ LABEL_MAX) (h : LabelByte msg (pos + 1 + b.toNat) i) :
      LabelByte msg pos i

/-- From `pos` on, `msg'` is `msg`, up to the case of the letters inside the labels of the name
    that stands there. -/
def CaseFrom (pos : Nat) (msg msg' : List UInt8) : Prop :=
  ∀ i, pos ≤ i → msg'[i]? = msg[i]? ∨
    (LabelByte msg pos i ∧ msg'[i]?.map toAsciiLowercase = msg[i]?.map toAsciiLowercase)

/-- The datagrams differ only in the case of letters inside the labels of the question name. -/
def DiffersInCase (msg msg' : List UInt8) : Prop :=
  ∀ i, msg'[i]? = msg[i]? ∨
    (LabelByte msg HEADER_LEN i ∧ msg'[i]?.map toAsciiLowercase = msg[i]?.map toAsciiLowercase)

/-! ## The names in the questions -/

section

variable {msg msg' : List UInt8} {pos i : Nat} {b : UInt8}

/-- A byte of a label stands behind the length of that label. -/
theorem LabelByte.lt (h : LabelByte msg pos i) : pos < i := by
  induction h with
  | here hb hshort hafter hwithin => exact hafter
  | later hb hlabel hshort h ih => omega

/-- Bytes behind a label are bytes of the labels behind it. -/
theorem LabelByte.behind (h : LabelByte msg pos i) (hb : msg[pos]? = some b)
    (hi : pos + 1 + b.toNat ≤ i) : LabelByte msg (pos + 1 + b.toNat) i := by
  cases h with
  | here hb' hshort hafter hwithin =>
    obtain rfl := Option.some.inj (hb.symm.trans hb')
    omega
  | later hb' hlabel hshort h =>
    obtain rfl := Option.some.inj (hb.symm.trans hb')
    exact h

/-- The bytes of the labels of a name lie where the name stands. -/
private theorem LabelByte.lt_wire {labels : List Str} (hlegal : Dns.Legal labels)
    (hat : msg.HasAt pos (Dns.wire labels)) (h : LabelByte msg pos i) :
    i < pos + (Dns.wire labels).length := by
  -- the induction is on the labels of the name
  induction labels generalizing pos with
  | nil =>
    -- at the end of the name the byte is zero, so there is no label for `i` to lie in
    have hb := hasAt_wire_nil.mp hat
    cases h with
    | here hb' hshort hafter hwithin =>
      obtain rfl := Option.some.inj (hb.symm.trans hb')
      simp at hwithin
      omega
    | later hb' hlabel hshort h =>
      obtain rfl := Option.some.inj (hb.symm.trans hb')
      simp at hlabel
  | cons l labels ih =>
    obtain ⟨hb, -, hrest⟩ := hasAt_wire_cons.mp hat
    have hlen := hlegal.head.toNat_ofNat
    rw [Dns.length_wire_cons]
    by_cases hi : pos + 1 + l.length ≤ i
    -- `i` lies behind this label
    · have hbehind := h.behind hb (by rw [hlen]; exact hi)
      rw [hlen] at hbehind
      have := ih hlegal.tail hrest hbehind
      omega
    · omega

/-- A length byte is the same in both. -/
private theorem CaseFrom.length_byte (h : CaseFrom pos msg msg') : msg'[pos]? = msg[pos]? := by
  obtain h | ⟨hlabel, -⟩ := h pos (Nat.le_refl pos)
  · exact h
  · exact absurd hlabel.lt (Nat.lt_irrefl pos)

/-- Behind a label the same holds of what is left of the name. -/
theorem CaseFrom.behind (h : CaseFrom pos msg msg') (hb : msg[pos]? = some b) :
    CaseFrom (pos + 1 + b.toNat) msg msg' := by
  intro i hi
  exact (h i (by omega)).imp_right fun ⟨hlabel, hcase⟩ => ⟨hlabel.behind hb hi, hcase⟩

/-- The labels of the one are where those of the other are. -/
private theorem LabelByte.of_caseFrom (hbyte : LabelByte msg pos i) (h : CaseFrom pos msg msg') :
    LabelByte msg' pos i := by
  induction hbyte with
  | here hb hshort hafter hwithin => exact .here (h.length_byte.trans hb) hshort hafter hwithin
  | later hb hlabel hshort _ ih =>
    exact .later (h.length_byte.trans hb) hlabel hshort (ih (h.behind hb))

/-- A label, with other letters, stands where the label stands. -/
private theorem exists_label_case {l : Str} (hat : msg.HasAt pos l)
    (h : ∀ i, pos ≤ i → msg'[i]?.map toAsciiLowercase = msg[i]?.map toAsciiLowercase) :
    ∃ l', lowercase l' = lowercase l ∧ msg'.HasAt pos l' := by
  -- byte by byte, each with its other case
  induction l generalizing pos with
  | nil => exact ⟨[], rfl, List.hasAt_nil msg' pos⟩
  | cons b l ih =>
    obtain ⟨hb, hrest⟩ := List.hasAt_cons.mp hat
    obtain ⟨l', hl', hat'⟩ := ih hrest fun i hi => h i (by omega)
    have hbyte := h pos (Nat.le_refl pos)
    rw [hb] at hbyte
    obtain ⟨b', hb', hcase⟩ := Option.map_eq_some_iff.mp hbyte
    refine ⟨b' :: l', ?_, List.hasAt_cons.mpr ⟨hb', hat'⟩⟩
    rw [lowercase, List.map_cons, hcase, lowercase, List.map_cons]
    exact congrArg (toAsciiLowercase b :: ·) hl'

/-- A name with other letters stands where the name stands, and what is behind it is the
    same. -/
private theorem exists_wire_case {labels : List Str} (hlegal : Dns.Legal labels)
    (hat : msg.HasAt pos (Dns.wire labels)) (h : CaseFrom pos msg msg') :
    ∃ labels', labels'.map lowercase = labels.map lowercase ∧ msg'.HasAt pos (Dns.wire labels') ∧
      ∀ i, pos + (Dns.wire labels).length ≤ i → msg'[i]? = msg[i]? := by
  -- the induction is on the labels; the two names keep the same lengths
  induction labels generalizing pos with
  | nil =>
    refine ⟨[], rfl, hasAt_wire_nil.mpr (h.length_byte.trans (hasAt_wire_nil.mp hat)), ?_⟩
    intro i hi
    -- behind the name there are no letters of a label
    have hpos := Dns.length_wire_pos []
    obtain h | ⟨hlabel, -⟩ := h i (by omega)
    · exact h
    · have := hlabel.lt_wire hlegal hat
      omega
  | cons l labels ih =>
    obtain ⟨hb, hl, hrest⟩ := hasAt_wire_cons.mp hat
    have hlen := hlegal.head.toNat_ofNat
    have hbehind := h.behind hb
    rw [hlen] at hbehind
    -- the length byte is no letter, so what is left of the name stands at the same place in both
    obtain ⟨labels', hlabels', hat', hsame⟩ := ih hlegal.tail hrest hbehind
    have hfold : ∀ i, pos + 1 ≤ i →
        msg'[i]?.map toAsciiLowercase = msg[i]?.map toAsciiLowercase := by
      intro i hi
      obtain h | ⟨-, hcase⟩ := h i (by omega)
      · rw [h]
      · exact hcase
    obtain ⟨l', hl', hatl'⟩ := exists_label_case hl hfold
    have hlen' : l'.length = l.length := by
      rw [← length_lowercase l', hl', length_lowercase]
    refine ⟨l' :: labels', by rw [List.map_cons, List.map_cons, hl', hlabels'], ?_, ?_⟩
    · exact hasAt_wire_cons.mpr
        ⟨by rw [hlen']; exact h.length_byte.trans hb, hatl', by rw [hlen']; exact hat'⟩
    · intro i hi
      rw [Dns.length_wire_cons] at hi
      exact hsame i (by omega)

end

/-! ## What is read of the questions -/

section

variable {msg msg' : List UInt8} {pos : Nat} (hsame : ∀ i, pos ≤ i → msg'[i]? = msg[i]?)

include hsame

private theorem be16_congr {k : Nat} (hk : pos ≤ k) : be16 msg' k = be16 msg k := by
  rw [be16, be16, hsame k hk, hsame (k + 1) (by omega)]

/-- The end of a name depends on what stands from its start on. -/
private theorem skipName_congr {k : Nat} (hk : pos ≤ k) :
    skipName msg' k = skipName msg k ∧ ∀ e, skipName msg k = some e → k ≤ e := by
  -- along the reading of `msg`: a pointer ends the name, so nothing before `pos` is read
  induction k using skipName.induct msg with
  | case1 k hnone =>
    -- the message ends here
    have hskip : ∀ m : List UInt8, m[k]? = none → skipName m k = none := by
      intro m hm
      rw [skipName]
      split
      · rfl
      · simp_all
    rw [hskip msg hnone, hskip msg' ((hsame k hk).trans hnone)]
    exact ⟨rfl, fun e he => by cases he⟩
  -- the root, a label, a pointer and the two reserved forms, read the same in both
  | case2 k b hb hzero =>
    simp only [skipName_some hb, skipName_some ((hsame k hk).trans hb), if_pos hzero]
    refine ⟨trivial, fun e he => ?_⟩
    have := Option.some.inj he
    omega
  | case3 k b hb hzero hlabel ih =>
    simp only [skipName_some hb, skipName_some ((hsame k hk).trans hb), if_neg hzero,
      if_pos hlabel]
    obtain ⟨heq, hle⟩ := ih (by omega)
    refine ⟨heq, fun e he => ?_⟩
    have := hle e he
    omega
  -- a pointer whose second byte is missing
  | case4 k b hb hzero hlabel hpointer hnone =>
    simp only [skipName_some hb, skipName_some ((hsame k hk).trans hb), if_neg hzero,
      if_neg hlabel, if_pos hpointer, hsame (k + 1) (by omega), hnone]
    exact ⟨trivial, fun e he => by cases he⟩
  -- a pointer, which ends the name two bytes on
  | case5 k b hb hzero hlabel hpointer b' hb' =>
    simp only [skipName_some hb, skipName_some ((hsame k hk).trans hb), if_neg hzero,
      if_neg hlabel, if_pos hpointer, hsame (k + 1) (by omega), hb']
    refine ⟨trivial, fun e he => ?_⟩
    have := Option.some.inj he
    omega
  | case6 k b hb hzero hlabel hpointer =>
    simp only [skipName_some hb, skipName_some ((hsame k hk).trans hb), if_neg hzero,
      if_neg hlabel, if_neg hpointer]
    exact ⟨trivial, fun e he => by cases he⟩

/-- The OPT record depends on what stands from the first record on. -/
private theorem findOpt_congr (count : Nat) {k : Nat} (hk : pos ≤ k) :
    findOpt msg' k count = findOpt msg k count := by
  -- the induction is on the count; what a record says of itself has no letters of the name
  induction count generalizing k with
  | zero => rfl
  | succ count ih =>
    obtain ⟨hskip, hend⟩ := skipName_congr hsame hk
    rw [findOpt, findOpt, hskip]
    cases he : skipName msg k with
    | none => rfl
    | some e =>
      have hle := hend e he
      -- the search goes on at the same place
      have hnext : ∀ rdlen : UInt16, findOpt msg' (e + 10 + rdlen.toNat) count =
          findOpt msg (e + 10 + rdlen.toNat) count := fun rdlen => ih (by omega)
      simp only [Option.bind_eq_bind, Option.bind_some, be16_congr hsame (k := e) (by omega),
        be16_congr hsame (k := e + 2) (by omega), be16_congr hsame (k := e + 8) (by omega), hnext]

end

namespace DiffersInCase

variable {msg msg' : List UInt8} (h : DiffersInCase msg msg')

include h

private theorem caseFrom : CaseFrom HEADER_LEN msg msg' := fun i _ => h i

/-- Messages that differ in case do so both ways. -/
theorem symm : DiffersInCase msg' msg := by
  intro i
  obtain h' | ⟨hlabel, hcase⟩ := h i
  · exact .inl h'.symm
  · exact .inr ⟨hlabel.of_caseFrom h.caseFrom, hcase.symm⟩

/-- The headers are the same. -/
theorem head {i : Nat} (hi : i ≤ HEADER_LEN) : msg'[i]? = msg[i]? := by
  obtain h | ⟨hlabel, -⟩ := h i
  · exact h
  · have := hlabel.lt
    omega

private theorem be16_head {i : Nat} (hi : i + 2 ≤ HEADER_LEN) : be16 msg' i = be16 msg i := by
  rw [be16, be16, h.head (by omega), h.head (by omega)]

/-- The messages are of one length. -/
theorem length_eq : msg'.length = msg.length := by
  -- a list ends where it has no byte, and with another case a byte is still one
  have hnone : ∀ i, msg'.length ≤ i ↔ msg.length ≤ i := by
    intro i
    rw [← List.getElem?_eq_none_iff, ← List.getElem?_eq_none_iff]
    obtain h | ⟨-, hcase⟩ := h i
    · rw [h]
    · rw [← Option.map_eq_none_iff (f := toAsciiLowercase), hcase, Option.map_eq_none_iff]
  have hle := (hnone msg.length).mpr (Nat.le_refl _)
  have hge := (hnone msg'.length).mp (Nat.le_refl _)
  omega

/-- No answer goes to the one when none goes to the other. -/
private theorem dropped_iff : Dropped msg' ↔ Dropped msg := by
  rw [Dropped, Dropped, h.length_eq, h.be16_head (by decide)]

end DiffersInCase

/-! ## Names with other letters -/

section

variable {labels labels' : List Str} (h : labels'.map lowercase = labels.map lowercase)

/-- A name in lower case is as long on the wire. -/
private theorem length_wire_lowercase (labels : List Str) :
    (Dns.wire (labels.map lowercase)).length = (Dns.wire labels).length := by
  induction labels with
  | nil => rfl
  | cons l labels ih =>
    rw [List.map_cons, Dns.length_wire_cons, Dns.length_wire_cons, ih, length_lowercase]

include h

/-- Names that differ in case are of one length on the wire. -/
private theorem length_wire_case : (Dns.wire labels').length = (Dns.wire labels).length := by
  rw [← length_wire_lowercase labels', h, length_wire_lowercase]

/-- Names that differ in case are both legal. -/
private theorem legal_case (hlegal : Dns.Legal labels) : Dns.Legal labels' := by
  intro l' hl'
  have hmem : lowercase l' ∈ labels.map lowercase := h ▸ List.mem_map_of_mem hl'
  obtain ⟨l, hl, hcase⟩ := List.mem_map.mp hmem
  have hlen : l'.length = l.length := by
    rw [← length_lowercase l', ← hcase, length_lowercase]
  unfold Dns.LegalLabel
  rw [hlen]
  exact hlegal l hl

/-- Names that differ in case are both shown, or neither is. -/
private theorem visibleLabels_case : VisibleLabels labels' ↔ VisibleLabels labels := by
  have hfold : ∀ labels : List Str,
      VisibleLabels labels ↔ VisibleLabels (labels.map lowercase) := by
    intro labels
    simp only [VisibleLabels, List.forall_mem_map, visibleLabel_lowercase]
  rw [hfold labels', h, ← hfold labels]

end

/-- Where a name stands in the one, a name with other letters stands in the other. -/
private theorem exists_name_case {msg msg' : List UInt8} {pos : Nat} {n : Dns.Name}
    (hat : msg.HasAt pos n.wire) (h : CaseFrom pos msg msg') :
    ∃ n' : Dns.Name, n'.labels.map lowercase = n.labels.map lowercase ∧
      n'.wire.length = n.wire.length ∧ msg'.HasAt pos n'.wire ∧
        ∀ i, pos + n.wire.length ≤ i → msg'[i]? = msg[i]? := by
  obtain ⟨labels', hlabels', hat', hsame⟩ := exists_wire_case n.legal hat h
  have hlen : (Dns.wire labels').length = n.wire.length := length_wire_case hlabels'
  have hfits : (Dns.wire labels').length ≤ 255 := by
    rw [hlen]
    exact n.fits
  exact ⟨⟨labels', legal_case hlabels' n.legal, hfits⟩, hlabels', hlen, hat', hsame⟩

/-- Names with other letters read as the same text. -/
private theorem nameText_case {n n' : Dns.Name}
    (h : n'.labels.map lowercase = n.labels.map lowercase) :
    nameText n'.wire = nameText n.wire := by
  have htext : text n'.labels = text n.labels := congrArg [dot].intercalate h
  rw [nameText_wire, nameText_wire, htext]
  simp only [visibleLabels_case h]

/-! ## The questions -/

/-- The same question for a name with other letters. -/
def Query.respelled (q : Query) (n : Dns.Name) : Query :=
  { q with qname := n.wire, question := questionBytes n q.qtype q.qclass }

/-- If the one datagram is a question, the other is the same question for a name with other
    letters. -/
private theorem DiffersInCase.parseQuery_ok {msg msg' : List UInt8} (h : DiffersInCase msg msg')
    {q : Query} (hq : parseQuery msg = .ok q) : ∃ n n' : Dns.Name, q.Asks n ∧
      msg.HasAt HEADER_LEN n.wire ∧ msg'.HasAt HEADER_LEN n'.wire ∧
        n'.labels.map lowercase = n.labels.map lowercase ∧
          parseQuery msg' = .ok (q.respelled n') := by
  -- the first datagram is its header, its question and the rest
  obtain ⟨n, an, ns, ar, hqname, hquestion, hqr, hopcode, hat, hedns⟩ := parseQuery_eq_ok.mp hq
  obtain ⟨hid, hflags, hqd, han, hns, har, hrest⟩ := hasAt_headerBytes.mp hat
  rw [hquestion] at hrest
  obtain ⟨hname, htype, hclass⟩ := hasAt_questionBytes.mp hrest
  obtain ⟨n', hlabels, hlen, hname', hsame⟩ := exists_name_case hname h.caseFrom
  refine ⟨n, n', ⟨hqname, hquestion⟩, hname, hname', hlabels,
    parseQuery_eq_ok.mpr ⟨n', an, ns, ar, rfl, rfl, hqr, hopcode, ?_, ?_⟩⟩
  · -- the header is the same, and so are the type and the class behind the name
    have htype' : be16 msg' (12 + n'.wire.length) = some q.qtype := by
      rw [hlen]
      exact (be16_congr hsame (Nat.le_refl _)).trans htype
    have hclass' : be16 msg' (12 + n'.wire.length + 2) = some q.qclass := by
      rw [hlen]
      exact (be16_congr hsame (Nat.le_add_right _ _)).trans hclass
    exact hasAt_headerBytes.mpr ⟨(h.be16_head (by decide)).trans hid,
      (h.be16_head (by decide)).trans hflags, (h.be16_head (by decide)).trans hqd,
      (h.be16_head (by decide)).trans han, (h.be16_head (by decide)).trans hns,
      (h.be16_head (by decide)).trans har, hasAt_questionBytes.mpr ⟨hname', htype', hclass'⟩⟩
  · -- the OPT record stands behind the question
    have hquestion' : (q.respelled n').question.length = q.question.length := by
      rw [hquestion, Query.respelled, length_questionBytes, length_questionBytes, hlen]
    have hbehind : 12 + n.wire.length ≤ HEADER_LEN + q.question.length := by
      rw [hquestion, length_questionBytes, HEADER_LEN]
      omega
    rw [hquestion', findOpt_congr hsame _ hbehind]
    exact hedns

/-- The two datagrams are no questions, and for the same reason; or they are the same question
    for names with other letters. -/
theorem parseQuery_case {msg msg' : List UInt8} (h : DiffersInCase msg msg') :
    (∃ bad, parseQuery msg = .error bad ∧ parseQuery msg' = .error bad) ∨
      ∃ (q : Query) (n n' : Dns.Name), parseQuery msg = .ok q ∧ q.Asks n ∧
        msg.HasAt HEADER_LEN n.wire ∧ msg'.HasAt HEADER_LEN n'.wire ∧
          n'.labels.map lowercase = n.labels.map lowercase ∧
            parseQuery msg' = .ok (q.respelled n') := by
  -- both are accepted, or both refused for the same reason
  cases hq : parseQuery msg with
  | ok q =>
    obtain ⟨n, n', hn, hat, hat', hlabels, hq'⟩ := h.parseQuery_ok hq
    exact .inr ⟨q, n, n', rfl, hn, hat, hat', hlabels, hq'⟩
  | error bad =>
    refine .inl ⟨bad, rfl, ?_⟩
    obtain ⟨hdropped, hdrop⟩ | ⟨hkept, id, flags, hid, hflags, hbad | ⟨q, hok, -⟩⟩ :=
      parseQuery_cases msg
    · obtain ⟨-, hdrop'⟩ | ⟨hkept', -⟩ := parseQuery_cases msg'
      · rw [hdrop', ← hdrop, hq]
      · exact absurd (h.dropped_iff.mpr hdropped) hkept'
    -- something goes back to both, and the code is read off the header alone
    · obtain ⟨hdropped', -⟩ | ⟨-, id', flags', hid', hflags', hbad' | ⟨q', hok', -⟩⟩ :=
        parseQuery_cases msg'
      · exact absurd (h.dropped_iff.mp hdropped') hkept
      · rw [h.be16_head (by decide), hid] at hid'
        rw [h.be16_head (by decide), hflags] at hflags'
        obtain rfl := Option.some.inj hid'
        obtain rfl := Option.some.inj hflags'
        rw [hbad', ← hbad, hq]
      · -- a question on the one side is one on the other
        obtain ⟨_, _, -, -, -, -, hok⟩ := h.symm.parseQuery_ok hok'
        rw [hq] at hok
        cases hok
    · rw [hq] at hok
      cases hok

/-! ## The replies -/

namespace Draft

/-- The draft with another name in its question. -/
def withName (d : Draft) (name : List UInt8) : Draft :=
  { d with question := d.question.map fun question => { question with name } }

section

variable {d : Draft} {name : List UInt8}
  (hname : ∀ question ∈ d.question, name.length = question.name.length)

include hname

/-- Another name of the same length leaves the length of the draft. -/
private theorem length_bytes_withName : (d.withName name).bytes.length = d.bytes.length := by
  rw [length_bytes, length_bytes, body, body, List.length_append, List.length_append]
  refine congrArg (12 + ·) (congrArg (· + _) ?_)
  cases hquestion : d.question with
  | none => simp [withName, hquestion]
  | some question =>
    simp only [withName, hquestion, Option.map_some, Option.toList_some, List.flatMap_cons,
      List.flatMap_nil, List.append_nil, Dns.Question.length_bytes]
    rw [hname question hquestion]

private theorem room_withName (limit : Nat) : (d.withName name).room limit = d.room limit := by
  rw [room, room, length_bytes_withName hname]
  rfl

/-- The SOA of a zone is the same under either name. -/
private theorem renderSoa_withName (limit : Nat) (zone : Str) :
    (d.withName name).renderSoa limit zone = (d.renderSoa limit zone).withName name := by
  unfold renderSoa
  rw [room_withName hname]
  split
  · split <;> rfl
  · rfl

/-- The name has no part in what is drawn up, but its length. -/
theorem render_withName (limit : Nat) (v : Verdict) :
    (d.withName name).render limit v = (d.render limit v).withName name := by
  -- the verdict speaks of rooms and records, never of the name itself
  cases v with
  | refused => rfl
  | aliased target =>
    simp only [render, room_withName hname]
    split
    · split <;> rfl
    · rfl
  | zone known ips zone =>
    have hfit : (d.withName name).fitting limit ips = d.fitting limit ips := by
      rw [fitting, fitting, room_withName hname]
    simp only [render, hfit]
    split
    · cases known with
      | true => exact renderSoa_withName hname limit zone
      | false => exact renderSoa_withName (d := d.withRcode .nxDomain) hname limit zone
    · rfl

end

/-- The name stands right behind the header of a closed draft, and nothing else depends on it. -/
private theorem closed_withName {d : Draft} {question : Dns.Question}
    (h : d.question = some question) :
    ∃ head tail, head.length = HEADER_LEN ∧ d.closed = head ++ (question.name ++ tail) ∧
      ∀ name, (d.withName name).closed = head ++ (name ++ tail) := by
  -- everything but the name is the same for every name
  have hclosed : ∀ name, (d.withName name).closed =
      Dns.headerBytes d.id d.flags 1 (UInt16.ofNat (d.count .answer))
        (UInt16.ofNat (d.count .authority)) (UInt16.ofNat d.additional.length) ++
          (name ++ ((question.qtype.toBytesBE ++ question.qclass.toBytesBE) ++
            (d.records.flatMap (fun r => r.2.bytes) ++
              d.additional.flatMap Dns.Record.bytes))) := by
    intro name
    simp only [closed, body, withName, h, Option.map_some, Option.toList_some, List.flatMap_cons,
      List.flatMap_nil, List.append_nil, Dns.Question.bytes, List.append_assoc]
    rfl
  refine ⟨_, _, Dns.length_headerBytes _ _ _ _ _ _, ?_, hclosed⟩
  -- with its own name a draft is what it was
  have hself : d.withName question.name = d := by
    cases d
    simp only [withName] at h ⊢
    rw [h]
    rfl
  rw [← hclosed question.name, hself]

end Draft

/-- Two replies, to `msg` and to `msg'`, are the same but for the letters of the name in their
    questions, and there each has its own spelling. -/
structure SameButName (msg msg' reply reply' : List UInt8) : Prop where
  length : reply'.length = reply.length
  own : ∀ i, LabelByte msg HEADER_LEN i → i < reply.length →
    reply[i]? = msg[i]? ∧ reply'[i]? = msg'[i]?
  rest : ∀ i, ¬LabelByte msg HEADER_LEN i → reply'[i]? = reply[i]?

/-- Names of the same length between the same bytes. -/
private theorem sameButName_append {msg msg' head tail : List UInt8} {n n' : Dns.Name}
    (h : DiffersInCase msg msg') (hhead : head.length = HEADER_LEN)
    (hat : msg.HasAt HEADER_LEN n.wire) (hat' : msg'.HasAt HEADER_LEN n'.wire)
    (hlen : n'.wire.length = n.wire.length) :
    SameButName msg msg' (head ++ (n.wire ++ tail)) (head ++ (n'.wire ++ tail)) := by
  -- each byte of the name in the reply is that of its own datagram
  have hown : ∀ k, k < n.wire.length →
      (head ++ (n.wire ++ tail))[HEADER_LEN + k]? = msg[HEADER_LEN + k]? ∧
        (head ++ (n'.wire ++ tail))[HEADER_LEN + k]? = msg'[HEADER_LEN + k]? := by
    intro k hk
    have hreply := (List.hasAt_middle head n.wire tail).getElem? hk
    have hreply' := (List.hasAt_middle head n'.wire tail).getElem? (hlen ▸ hk)
    rw [hhead] at hreply hreply'
    rw [hreply, hreply', hat.getElem? hk, hat'.getElem? (hlen ▸ hk)]
    exact ⟨rfl, rfl⟩
  refine ⟨by simp [hlen], fun i hi _ => ?_, fun i hi => ?_⟩
  -- inside the name the bytes are the datagrams' own
  · have hlow := hi.lt
    have hhigh := hi.lt_wire n.legal hat
    obtain ⟨k, rfl⟩ : ∃ k, i = HEADER_LEN + k := ⟨i - HEADER_LEN, by omega⟩
    exact hown k (by unfold Dns.Name.wire; omega)
  -- before the name both replies are the same
  · by_cases hlow : i < HEADER_LEN
    · rw [List.getElem?_append_left (by omega), List.getElem?_append_left (by omega)]
    obtain ⟨k, rfl⟩ : ∃ k, i = HEADER_LEN + k := ⟨i - HEADER_LEN, by omega⟩
    by_cases hk : k < n.wire.length
    · -- a length byte of the name: the same in both datagrams
      obtain ⟨hreply, hreply'⟩ := hown k hk
      rw [hreply, hreply']
      exact (h _).resolve_right fun hcase => hi hcase.1
    -- behind the names both replies go on alike
    · rw [List.getElem?_append_right (by omega), List.getElem?_append_right (by omega),
        List.getElem?_append_right (by omega), List.getElem?_append_right (by omega), hlen]

namespace Server

/-- The verdict depends on the text of the name. -/
private theorem verdict_respelled (s : Server) (cache : Cache) {q : Query} {n n' : Dns.Name}
    (hn : q.Asks n) (h : n'.labels.map lowercase = n.labels.map lowercase) :
    s.verdict cache (q.respelled n') = s.verdict cache q := by
  have htext : nameText (q.respelled n').qname = nameText q.qname := by
    rw [hn.qname]
    exact nameText_case h
  unfold verdict
  rw [htext]
  rfl

/-- The reply to the same question for a name with other letters is the same one, with that
    name. -/
private theorem replyDraft_respelled (s : Server) (cache : Cache) {q : Query} {n n' : Dns.Name}
    (hn : q.Asks n) (h : n'.labels.map lowercase = n.labels.map lowercase) (limit : Nat) :
    s.replyDraft cache (q.respelled n') n' limit =
      (s.replyDraft cache q n limit).withName n'.wire := by
  have hlen : ∀ question ∈ (Reply.startDraft q n).question,
      n'.wire.length = question.name.length := by
    intro question hquestion
    obtain rfl := Option.some.inj hquestion
    exact length_wire_case h
  rw [replyDraft, replyDraft, s.verdict_respelled cache hn h, ← Draft.render_withName hlen]
  rfl

/-- The reply to the other datagram is drawn up with the other name. -/
private theorem Drafted.respelled {s : Server} {cache : Cache} {msg msg' out out' : List UInt8}
    (h : DiffersInCase msg msg') (hout : out.length = out'.length) {d : Draft}
    (hd : Drafted s cache msg out d) :
    ∃ d', Drafted s cache msg' out' d' ∧ SameButName msg msg' d.closed d'.closed := by
  cases hd with
  | @answer q n hq hn hfits =>
    -- the other datagram asks the same question, but for the spelling
    obtain ⟨bad, hbad, -⟩ | ⟨q₀, n₀, n', hq₀, hn₀, hat, hat', hlabels, hq'⟩ := parseQuery_case h
    · rw [hq] at hbad
      cases hbad
    obtain rfl := Except.ok.inj (hq.symm.trans hq₀)
    obtain rfl := hn.unique hn₀
    have hlen : n'.wire.length = n.wire.length := length_wire_case hlabels
    -- the limit and the length of the question do not depend on the spelling
    have hlimit : replyLimit (q.respelled n') out' = replyLimit q out := by
      rw [replyLimit, replyLimit, hout]
      rfl
    have hquestion : (q.respelled n').question.length = q.question.length := by
      rw [hn.question, Query.respelled, length_questionBytes, length_questionBytes, hlen]
    have hfits' : Fits (q.respelled n') out' := by
      rw [Fits, hlimit, hquestion]
      exact hfits
    refine ⟨_, .answer hq' ⟨rfl, rfl⟩ hfits', ?_⟩
    rw [hlimit, s.replyDraft_respelled cache hn hlabels]
    obtain ⟨head, tail, hhead, hclosed, hclosed'⟩ := Draft.closed_withName
      (show (s.replyDraft cache q n (replyLimit q out)).question =
        some ⟨n.wire, q.qtype, q.qclass⟩ from (Draft.render_frame _ _ _).2.1)
    rw [hclosed, hclosed']
    exact sameButName_append h hhead hat hat' hlen
  | @bare id flags rcode hbad hout₀ =>
    obtain ⟨bad, hbad₀, hbad'⟩ | ⟨q, -, -, hq, -⟩ := parseQuery_case h
    · obtain rfl := Except.error.inj (hbad.symm.trans hbad₀)
      refine ⟨_, .bare hbad' (hout ▸ hout₀), rfl, fun i hi hlt => ?_, fun _ _ => rfl⟩
      -- a bare reply ends where a name would stand
      have hle := hi.lt
      have hlen : (Reply.bareDraft id flags rcode).closed.length = HEADER_LEN := rfl
      omega
    · rw [hbad] at hq
      cases hq

/-- The case of the question never matters: datagrams that differ in the case of letters inside
    the labels of the question name alone get replies of the same length, or both none; and the
    replies are the same, byte for byte, but for the name, which each has as it was asked. -/
theorem handle_case (s : Server) (cache : Cache) {msg msg' out out' : List UInt8}
    (h : DiffersInCase msg msg') (hout : out.length = out'.length) :
    (s.handle cache msg' out').1 = (s.handle cache msg out).1 ∧
      ∀ len, (s.handle cache msg out).1 = some len →
        SameButName msg msg' ((s.handle cache msg out).2.take len)
          ((s.handle cache msg' out').2.take len) := by
  -- a reply to one means a reply to the other
  cases hlen : (s.handle cache msg out).1 with
  | none =>
    refine ⟨?_, fun len hlen' => by cases hlen'⟩
    cases hlen' : (s.handle cache msg' out').1 with
    | none => rfl
    | some len' =>
      -- a reply to the one is a reply to the other
      obtain ⟨d', hd', -⟩ := exists_drafted hlen'
      obtain ⟨d, hd, -⟩ := hd'.respelled h.symm hout.symm
      obtain ⟨buf, hrun, -⟩ := hd.handle_eq
      rw [hrun] at hlen
      cases hlen
  | some len =>
    obtain ⟨d, hd, rfl, htake, -⟩ := exists_drafted hlen
    obtain ⟨d', hd', hsame⟩ := hd.respelled h hout
    obtain ⟨buf, hrun, -, htake'⟩ := hd'.handle_eq
    rw [hsame.length] at hrun htake'
    refine ⟨by rw [hrun], fun len' hlen' => ?_⟩
    obtain rfl := Option.some.inj hlen'
    rw [htake, hrun, htake']
    exact hsame

/-- `HOP.local` -/
def hopCapital : Dns.Name := ⟨[str "HOP", str "local"], by decide, by decide⟩

/-- The two questions differ in case alone. -/
private theorem hopCapital_differs :
    DiffersInCase (queryFor hopLocal rtype.A) (queryFor hopCapital rtype.A) := by
  intro i
  -- the two datagrams are equal before the first label and behind it
  by_cases hlow : i < 13
  · have htake : (queryFor hopCapital rtype.A).take 13 = (queryFor hopLocal rtype.A).take 13 := by
      decide +kernel
    rw [← List.getElem?_take_of_lt hlow, htake, List.getElem?_take_of_lt hlow]
    exact .inl rfl
  by_cases hhigh : 16 ≤ i
  · have hdrop : (queryFor hopCapital rtype.A).drop 16 = (queryFor hopLocal rtype.A).drop 16 := by
      decide +kernel
    obtain ⟨k, rfl⟩ : ∃ k, i = 16 + k := ⟨i - 16, by omega⟩
    rw [← List.getElem?_drop, hdrop, List.getElem?_drop]
    exact .inl rfl
  -- the three letters of the first label
  refine .inr ⟨.here (b := 3) (by decide +kernel) (by decide) (by unfold HEADER_LEN; omega)
    (by simp [HEADER_LEN]; omega), ?_⟩
  obtain rfl | rfl | rfl : i = 13 ∨ i = 14 ∨ i = 15 := by omega
  · decide +kernel
  · decide +kernel
  · decide +kernel

/-- The domain itself is asked for in two spellings. -/
theorem handle_case_apex :
    SameButName (queryFor hopLocal rtype.A) (queryFor hopCapital rtype.A)
      (((⟨DEFAULT_DOMAIN, CNAMEs.default⟩ : Server).handle Cache.new (queryFor hopLocal rtype.A)
        (List.replicate 600 0)).2.take 115)
      (((⟨DEFAULT_DOMAIN, CNAMEs.default⟩ : Server).handle Cache.new (queryFor hopCapital rtype.A)
        (List.replicate 600 0)).2.take 115) :=
  (handle_case ⟨DEFAULT_DOMAIN, CNAMEs.default⟩ Cache.new hopCapital_differs rfl).2 115
    (by decide +kernel)

end Server

end HopDns

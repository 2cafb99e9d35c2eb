import HopDns.Native.Decode
import HopDns.Spec.QueryCorrect

/-!
# A question that is built

`encode_query` against `parse_query`: which questions can be built, and what is read
from those that are.

## Key results

- `length_wire_nameLabels`: the length of a name on the wire, from its text
- `encodeQuery_ok`, `encodeName_of_encodeQuery`: what is written, and when
- `encodeQuery_inverse`: the writer and the reader are inverse
-/

namespace HopDns

open ForStd

/-! ## The length of a name -/

/-- Labels take two bytes more on the wire than with dots between them. -/
private theorem length_wire_eq {labels : List Str} (h : labels ≠ []) :
    (Dns.wire labels).length = ([dot].intercalate labels).length + 2 := by
  -- the induction is on the labels, each with its length byte
  induction labels with
  | nil => exact absurd rfl h
  | cons l labels ih =>
    rw [Dns.length_wire_cons]
    cases labels with
    | nil => rw [List.intercalate_singleton, Dns.wire_nil, List.length_singleton]
    | cons l' labels =>
      rw [List.intercalate_cons dot l (by simp), List.length_append, List.length_cons,
        ih (by simp)]
      omega

/-- The length of a name on the wire: one byte for each dot and each other byte of its text,
    the length of the first label and the empty label; the root is the empty label alone. -/
def wireLength (name : Str) : Nat :=
  if (stripDot name).isEmpty then 1 else (stripDot name).length + 2

/-- The length of the name, counted from its text. -/
theorem length_wire_nameLabels (name : Str) :
    (Dns.wire (nameLabels name)).length = wireLength name := by
  unfold nameLabels wireLength
  dsimp only
  split
  · rfl
  · rw [length_wire_eq (List.splitOn_ne_nil dot _), List.intercalate_splitOn]

/-- The name can be a question's: without one dot at its end it is empty, or its dots split it
    into labels of 1 to 63 bytes; and it takes at most 255 bytes on the wire. -/
structure Encodable (name : Str) : Prop where
  labels : stripDot name = [] ∨
    ∀ l ∈ (stripDot name).splitOn dot, 1 ≤ l.length ∧ l.length ≤ LABEL_MAX
  fits : wireLength name ≤ NAME_MAX

/-- The labels are legal when each has between 1 and 63 bytes. -/
private theorem legal_nameLabels {name : Str} : Dns.Legal (nameLabels name) ↔ stripDot name = [] ∨
    ∀ l ∈ (stripDot name).splitOn dot, 1 ≤ l.length ∧ l.length ≤ LABEL_MAX := by
  unfold nameLabels
  dsimp only
  split
  · rename_i hempty
    exact iff_of_true Dns.legal_nil (.inl (List.isEmpty_iff.mp hempty))
  · rename_i hempty
    rw [or_iff_right fun h => hempty (List.isEmpty_iff.mpr h)]
    rfl

/-- Such are the names that have a name on the wire. -/
theorem encodable_iff {name : Str} : Encodable name ↔ ∃ n, encodeName name = some n := by
  constructor
  · intro h
    have hfits := h.fits
    rw [← length_wire_nameLabels] at hfits
    exact ⟨⟨nameLabels name, legal_nameLabels.mpr h.labels, hfits⟩, encodeName_eq_some.mpr rfl⟩
  · rintro ⟨n, hn⟩
    have hlabels := encodeName_eq_some.mp hn
    refine ⟨legal_nameLabels.mp (hlabels ▸ n.legal), ?_⟩
    rw [← length_wire_nameLabels, ← hlabels]
    exact n.fits

/-! ## The text of a name -/

/-- The labels of a text without foreign bytes are those of a host name. -/
private theorem visibleLabels_nameLabels {name : Str}
    (h : ∀ b ∈ stripDot name, 0x21 ≤ b ∧ b ≤ 0x7E) :
    VisibleLabels (nameLabels name) := by
  unfold nameLabels
  dsimp only
  split
  · exact fun l hl => nomatch hl
  · intro l hl b hb
    have hmem : b ∈ [dot].intercalate ((stripDot name).splitOn dot) := List.mem_intercalate hl hb
    rw [List.intercalate_splitOn] at hmem
    -- a label holds no dot, or it would have been cut there
    exact ⟨h b hmem, fun hdot => List.not_mem_splitOn hl (hdot ▸ hb)⟩

/-- Lower case goes past the dots. -/
private theorem lowercase_intercalate (labels : List Str) :
    [dot].intercalate (labels.map lowercase) = lowercase ([dot].intercalate labels) := by
  induction labels with
  | nil => rfl
  | cons l labels ih =>
    cases labels with
    | nil => simp only [List.map_cons, List.map_nil, List.intercalate_singleton]
    | cons l' labels =>
      rw [List.map_cons, List.intercalate_cons dot _ (by simp), ih,
        List.intercalate_cons dot l (by simp), lowercase_append]
      rfl

/-- The labels of a name put together again, in lower case. -/
theorem text_nameLabels (name : Str) : text (nameLabels name) = lowercase (stripDot name) := by
  unfold nameLabels
  dsimp only
  split
  · rename_i hempty
    rw [List.isEmpty_iff.mp hempty]
    rfl
  · rw [text, lowercase_intercalate, List.intercalate_splitOn]

/-! ## What is written -/

/-- The bytes of a question with one name, in class Internet. -/
def queryBytes (id : UInt16) (n : Dns.Name) (qtype : UInt16) (edns : Option UInt16) : List UInt8 :=
  Dns.headerBytes id RD 1 0 0 (if edns.isSome then 1 else 0) ++
    (questionBytes n qtype CLASS_IN ++ edns.elim [] optRecord)

/-- The length of a question is known before it is written. -/
theorem length_queryBytes (id : UInt16) (n : Dns.Name) (qtype : UInt16) (edns : Option UInt16) :
    (queryBytes id n qtype edns).length =
      HEADER_LEN + n.wire.length + 4 + Reply.reserve edns := by
  rw [queryBytes, List.length_append, List.length_append, Dns.length_headerBytes,
    length_questionBytes, HEADER_LEN]
  cases edns with
  | none => rfl
  | some size =>
    rw [Option.elim_some, show (optRecord size).length = Reply.reserve (some size) from rfl]
    omega

/-- The header `encode_query` writes first: an additional record is counted only later. -/
private theorem queryHead_eq (id : UInt16) :
    id.toBytesBE ++ RD.toBytesBE ++ (1 : UInt16).toBytesBE ++ List.replicate 6 0 =
      Dns.headerBytes id RD 1 0 0 0 := by
  have hzero : (0 : UInt16).toBytesBE = [0, 0] := by decide
  simp only [Dns.headerBytes, List.append_assoc, hzero]
  rfl

/-- The question in a buffer with room for it, and then what is left to do. -/
private theorem encodeQuery_question {id qtype : UInt16} {name : Str} {n : Dns.Name}
    {edns : Option UInt16} {out o : List UInt8} (hn : encodeName name = some n)
    (hset : out.setRange? 0 (Dns.headerBytes id RD 1 0 0 0 ++ questionBytes n qtype CLASS_IN) =
      some o) :
    (encodeQuery id name qtype edns).run out =
      (match edns with
      | none => pure (HEADER_LEN + n.wire.length + 4)
      | some size => do
        putSlice (HEADER_LEN + n.wire.length + 4) (optRecord size)
        Method.modify fun out => (out.setRange? 10 (1 : UInt16).toBytesBE).getD out
        return HEADER_LEN + n.wire.length + 4 + OPT_LEN : Method Error (List UInt8) Nat).run o := by
  -- three writes: the header, the name, and the type with the class
  rw [List.setRange?_append, Option.bind_eq_some_iff] at hset
  obtain ⟨o₁, hhead, hset⟩ := hset
  rw [questionBytes, Dns.Question.bytes, List.setRange?_append, Option.bind_eq_some_iff] at hset
  obtain ⟨o₂, hname, hquestion⟩ := hset
  have hputName : (putName HEADER_LEN name).run o₁ = (.ok (HEADER_LEN + n.wire.length), o₂) :=
    putName_run_ok.mpr ⟨n, hn, rfl, hname⟩
  have hquestion : o₂.setRange? (HEADER_LEN + n.wire.length)
      (qtype.toBytesBE ++ CLASS_IN.toBytesBE) = some o := hquestion
  rw [encodeQuery, queryHead_eq, Method.run_bind_ok _ (putSlice_run_ok.mpr hhead),
    Method.run_bind_ok _ hputName]
  exact Method.run_bind_ok _ (putSlice_run_ok.mpr hquestion)

/-- A name that can be written is, in a buffer with room for the question. -/
theorem encodeQuery_ok {id qtype : UInt16} {name : Str} {n : Dns.Name} {edns : Option UInt16}
    {out : List UInt8} (hn : encodeName name = some n)
    (hlen : (queryBytes id n qtype edns).length ≤ out.length) :
    ∃ out', (encodeQuery id name qtype edns).run out =
        (.ok (queryBytes id n qtype edns).length, out') ∧
      out'.take (queryBytes id n qtype edns).length = queryBytes id n qtype edns := by
  let written := Dns.headerBytes id RD 1 0 0 0 ++ questionBytes n qtype CLASS_IN
  -- header and question, as far as every query goes
  have hwritten : written.length = HEADER_LEN + n.wire.length + 4 := by
    rw [List.length_append, Dns.length_headerBytes, length_questionBytes, HEADER_LEN, Nat.add_assoc]
  rw [length_queryBytes] at hlen ⊢
  obtain ⟨o, hset⟩ : ∃ o, out.setRange? 0 written = some o :=
    ⟨_, List.setRange?_of_le written (by omega)⟩
  -- they stand at the start of the buffer
  have htake : o.take (0 + written.length) = out.take 0 ++ written := List.take_setRange? hset
  rw [Nat.zero_add, List.take_zero, List.nil_append, hwritten] at htake
  have hsize := List.length_setRange? hset
  rw [encodeQuery_question hn hset]
  -- without EDNS this is all
  cases edns with
  | none =>
    refine ⟨o, rfl, ?_⟩
    rw [show Reply.reserve none = 0 from rfl, Nat.add_zero, htake, queryBytes, Option.elim_none,
      List.append_nil]
    rfl
  | some size =>
    rw [show Reply.reserve (some size) = OPT_LEN from rfl] at hlen ⊢
    have hopt : (optRecord size).length = OPT_LEN := rfl
    -- the OPT record goes behind the question, and is counted in the header
    obtain ⟨o₁, hset₁⟩ : ∃ o₁, o.setRange? (HEADER_LEN + n.wire.length + 4) (optRecord size) =
        some o₁ := ⟨_, List.setRange?_of_le _ (by omega)⟩
    have htake₁ := List.take_setRange? hset₁
    have hsize₁ := List.length_setRange? hset₁
    have hcount :
        10 + (1 : UInt16).toBytesBE.length ≤ HEADER_LEN + n.wire.length + 4 + OPT_LEN := by
      rw [UInt16.length_toBytesBE, HEADER_LEN]
      omega
    obtain ⟨o₂, hset₂⟩ : ∃ o₂, o₁.setRange? 10 (1 : UInt16).toBytesBE = some o₂ :=
      ⟨_, List.setRange?_of_le _ (by omega)⟩
    have htake₂ := List.take_setRange?_within hset₂ hcount (by omega)
    refine ⟨o₂, ?_, ?_⟩
    · rw [Method.run_bind_ok _ (putSlice_run_ok.mpr hset₁),
        Method.run_bind_ok _ (Method.run_modify _ _), hset₂]
      rfl
    · rw [hopt] at htake₁
      rw [htake₂, htake₁, htake, queryBytes]
      simp only [Option.elim_some, List.append_assoc]
      rfl

/-- A writer that returns had a name to write, and room for it. -/
theorem encodeName_of_encodeQuery {id qtype : UInt16} {name : Str} {edns : Option UInt16}
    {out out' : List UInt8} {m : Nat}
    (h : (encodeQuery id name qtype edns).run out = (.ok m, out')) :
    ∃ n, encodeName name = some n ∧ (queryBytes id n qtype edns).length ≤ out.length := by
  rw [encodeQuery] at h
  -- the writes have gone through, so each of them had room
  obtain ⟨_, o₁, h₁, h⟩ := Method.run_bind_eq_ok.mp h
  obtain ⟨pos, o₂, h₂, h⟩ := Method.run_bind_eq_ok.mp h
  obtain ⟨_, o₃, h₃, h⟩ := Method.run_bind_eq_ok.mp h
  obtain ⟨n, hn, rfl, hset₂⟩ := putName_run_ok.mp h₂
  have hset₁ := putSlice_run_ok.mp h₁
  have hset₃ := putSlice_run_ok.mp h₃
  have hsize := ((List.length_setRange? hset₃).trans (List.length_setRange? hset₂)).trans
    (List.length_setRange? hset₁)
  -- the last write is the one that reaches furthest
  refine ⟨n, hn, ?_⟩
  rw [length_queryBytes]
  cases edns with
  -- without EDNS the question is the end, with it the OPT record is
  | none =>
    have hle := (List.setRange?_eq_some hset₃).1
    rw [List.length_append, UInt16.length_toBytesBE, UInt16.length_toBytesBE,
      List.length_setRange? hset₂, List.length_setRange? hset₁] at hle
    rw [show Reply.reserve none = 0 from rfl]
    omega
  | some size =>
    obtain ⟨_, o₄, h₄, -⟩ := Method.run_bind_eq_ok.mp h
    have hle := (List.setRange?_eq_some (putSlice_run_ok.mp h₄)).1
    rw [show (optRecord size).length = Reply.reserve (some size) from rfl, hsize] at hle
    exact hle

/-! ## What is read back -/

/-- What is read from a built question. -/
def builtQuery (id : UInt16) (n : Dns.Name) (qtype : UInt16) (edns : Option UInt16) : Query where
  id := id
  flags := RD
  question := questionBytes n qtype CLASS_IN
  qname := n.wire
  qtype := qtype
  qclass := CLASS_IN
  edns := edns

/-- The question that was written is accepted, as it was meant. -/
theorem parseQuery_queryBytes (id : UInt16) (n : Dns.Name) (qtype : UInt16) (edns : Option UInt16) :
    parseQuery (queryBytes id n qtype edns) = .ok (builtQuery id n qtype edns) := by
  -- what was built is read field by field
  have hat : (queryBytes id n qtype edns).HasAt 0 (queryBytes id n qtype edns) := List.prefix_rfl
  obtain ⟨hid, hflags, hqd, han, hns, har, hrest⟩ := hasAt_headerBytes.mp hat
  obtain ⟨hquestion, hopt⟩ := List.hasAt_append.mp hrest
  refine parseQuery_eq_ok.mpr ⟨n, 0, 0, if edns.isSome then 1 else 0, rfl, rfl,
    (by decide : RD &&& QR = 0), (by decide : RD >>> 11 &&& 0xF = 0), ?_, ?_⟩
  · exact hasAt_headerBytes.mpr ⟨hid, hflags, hqd, han, hns, har, hquestion⟩
  -- the record count says how far the search goes
  · cases edns with
    -- no record is counted, so none is searched
    | none => rfl
    | some size => exact (findOpt_optRecord hopt 0).symm

/-- The writer of questions and the reader are inverse. It writes exactly the questions whose
    name can be one's and that fit the buffer; and what is read from what it wrote is what it
    was given, the name without its dot and in lower case. -/
theorem encodeQuery_inverse (id : UInt16) (name : Str) (qtype : UInt16) (edns : Option UInt16)
    (out : List UInt8) :
    ((∃ m out', (encodeQuery id name qtype edns).run out = (.ok m, out')) ↔
      Encodable name ∧ HEADER_LEN + wireLength name + 4 + Reply.reserve edns ≤ out.length) ∧
    ∀ m out', (encodeQuery id name qtype edns).run out = (.ok m, out') →
      m = HEADER_LEN + wireLength name + 4 + Reply.reserve edns ∧
        ∃ q, parseQuery (out'.take m) = .ok q ∧ q.id = id ∧ q.qtype = qtype ∧
          q.qclass = CLASS_IN ∧ q.edns = edns ∧
            ((∀ b ∈ stripDot name, 0x21 ≤ b ∧ b ≤ 0x7E) →
              nameText q.qname = some (lowercase (stripDot name))) := by
  -- the length in bytes is the one that the name tells beforehand
  have hlength : ∀ n, encodeName name = some n → (queryBytes id n qtype edns).length =
      HEADER_LEN + wireLength name + 4 + Reply.reserve edns := by
    intro n hn
    rw [length_queryBytes, Dns.Name.wire, encodeName_eq_some.mp hn, length_wire_nameLabels]
  refine ⟨⟨fun h => ?_, fun h => ?_⟩, fun m out' hrun => ?_⟩
  -- a query that was written had a name and room
  · obtain ⟨m, out', hrun⟩ := h
    obtain ⟨n, hn, hle⟩ := encodeName_of_encodeQuery hrun
    exact ⟨encodable_iff.mpr ⟨n, hn⟩, hlength n hn ▸ hle⟩
  -- with both of them it is written
  · obtain ⟨hname, hle⟩ := h
    obtain ⟨n, hn⟩ := encodable_iff.mp hname
    obtain ⟨out', hrun, -⟩ := encodeQuery_ok hn ((hlength n hn).symm ▸ hle)
    exact ⟨_, out', hrun⟩
  -- what was written is read back
  · obtain ⟨n, hn, hle⟩ := encodeName_of_encodeQuery hrun
    obtain ⟨out₁, hrun₁, htake⟩ := encodeQuery_ok hn hle
    obtain ⟨hm, rfl⟩ := Prod.mk.inj (hrun.symm.trans hrun₁)
    obtain rfl := Except.ok.inj hm
    refine ⟨hlength n hn, builtQuery id n qtype edns, ?_, rfl, rfl, rfl, rfl, fun hvisible => ?_⟩
    · rw [htake, parseQuery_queryBytes]
    · have hlabels := encodeName_eq_some.mp hn
      have hall : VisibleLabels n.labels := hlabels ▸ visibleLabels_nameLabels hvisible
      rw [show (builtQuery id n qtype edns).qname = n.wire from rfl, nameText_wire, if_pos hall,
        hlabels, text_nameLabels]

end HopDns

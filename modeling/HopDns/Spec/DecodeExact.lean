import HopDns.Spec.PointerName
import HopDns.Spec.RecordData

/-!
# What an answer is read as

`decode` against the grammar of a message, for any bytes at all: the records it returns are
those that stand in the answer and the authority section, with the data that their types
call for, and where it returns none there are none to return.

## Key results

- `readRecord_sound`, `readRecord_read`: one record, both ways
- `questionsEnd_eq_some`: where the questions end
- `decode_exact`: the messages that are read, and what they are read as
-/

namespace HopDns

open ForStd

/-! ## What is read -/

/-- What is read at `rd` as the data of a record: an address from the data itself, and names and
    numbers from the message. -/
inductive DataRead (msg : List UInt8) (rd : Nat) (rr : Dns.Record) : Rdata → Prop
  | a {ip : Ipv4Addr} (htype : rr.rtype = rtype.A) (hdata : rr.rdata = ip.octets) :
      DataRead msg rd rr (.a ip)
  | cname {labels : List Str} {e : Nat} (htype : rr.rtype = rtype.CNAME)
      (hname : Legible msg rd labels e) : DataRead msg rd rr (.cname (readText labels))
  | soa {mlabels rlabels : List Str} {p p' : Nat} {serial refresh retry expire minimum : UInt32}
      (htype : rr.rtype = rtype.SOA) (hmname : Legible msg rd mlabels p)
      (hrname : Legible msg p rlabels p')
      (hnumbers : msg.HasAt p'
        ([serial, refresh, retry, expire, minimum].flatMap UInt32.toBytesBE)) :
      DataRead msg rd rr
        (.soa (readText mlabels) (readText rlabels) serial refresh retry expire minimum)
  | other (ha : rr.rtype ≠ rtype.A) (hcname : rr.rtype ≠ rtype.CNAME)
      (hsoa : rr.rtype ≠ rtype.SOA) : DataRead msg rd rr (.other rr.rtype)

/-- The record that stands at a place, and what it is read as. -/
structure RecordRead (msg : List UInt8) (pos : Nat) (rr : Dns.Record) (r : Record) : Prop where
  wellFormed : rr.WellFormed
  stands : msg.HasAt pos rr.bytes
  name : ∃ labels, Legible msg pos labels (pos + rr.owner.length) ∧ r.name = readText labels
  rtype : r.rtype = rr.rtype
  ttl : r.ttl = rr.ttl
  data : DataRead msg (pos + rr.owner.length + 10) rr r.data

/-- The records that stand one after another, and what they are read as. -/
inductive RecordsRead (msg : List UInt8) : Nat → List Dns.Record → List Record → Prop
  | nil {pos : Nat} : RecordsRead msg pos [] []
  | cons {pos : Nat} {rr : Dns.Record} {rrs : List Dns.Record} {r : Record} {rs : List Record}
      (h : RecordRead msg pos rr r) (hrest : RecordsRead msg (pos + rr.bytes.length) rrs rs) :
      RecordsRead msg pos (rr :: rrs) (r :: rs)

/-! ## The data -/

/-- A number of four bytes is found where its bytes stand. -/
private theorem be32_eq_some {b : List UInt8} {pos : Nat} {v : UInt32} :
    be32 b pos = some v ↔ b.HasAt pos v.toBytesBE := by
  refine ⟨fun h => ?_, be32_of_hasAt⟩
  simp only [be32, Option.bind_eq_bind, Option.bind_eq_some_iff, Option.pure_def,
    Option.some.injEq] at h
  obtain ⟨b₀, h₀, b₁, h₁, b₂, h₂, b₃, h₃, rfl⟩ := h
  simp only [UInt32.toBytesBE_ofBytesBE, List.hasAt_cons, h₀, h₁, h₂, h₃, List.hasAt_nil, and_true]

/-- The data that were read stand there, by the type of the record. -/
private theorem readData_sound {msg : List UInt8} {rd : Nat} {rr : Dns.Record} {data : Rdata}
    {mem mem' : Mem} (h : (readData msg rr.rtype rd rr.rdata).run mem = (.ok data, mem')) :
    DataRead msg rd rr data := by
  unfold readData at h
  split at h
  · rename_i htype
    -- an address is four bytes, and no more
    split at h
    · rename_i a b c d hdata
      obtain rfl := Except.ok.inj (Prod.mk.inj h).1
      exact .a htype hdata
    · cases h
  · rename_i ha
    split at h
    · rename_i htype
      -- the target is read from the message, and not from the data alone
      obtain ⟨⟨target, e⟩, s, hname, h⟩ := Method.run_bind_eq_ok.mp h
      obtain rfl := Except.ok.inj (Prod.mk.inj h).1
      obtain ⟨labels, hlegible, rfl⟩ := readName_sound hname
      exact .cname htype hlegible
    · rename_i hcname
      split at h
      · rename_i htype
        -- two names, and behind the second one the five numbers, each where the one before it ends
        obtain ⟨⟨mname, p⟩, s, hmname, h⟩ := Method.run_bind_eq_ok.mp h
        obtain ⟨⟨rname, p'⟩, s, hrname, h⟩ := Method.run_bind_eq_ok.mp h
        obtain ⟨serial, s, h₀, h⟩ := Method.run_bind_eq_ok.mp h
        obtain ⟨refresh, s, h₁, h⟩ := Method.run_bind_eq_ok.mp h
        obtain ⟨retry, s, h₂, h⟩ := Method.run_bind_eq_ok.mp h
        obtain ⟨expire, s, h₃, h⟩ := Method.run_bind_eq_ok.mp h
        obtain ⟨minimum, s, h₄, h⟩ := Method.run_bind_eq_ok.mp h
        obtain rfl := Except.ok.inj (Prod.mk.inj h).1
        obtain ⟨mlabels, hm, rfl⟩ := readName_sound hmname
        obtain ⟨rlabels, hr, rfl⟩ := readName_sound hrname
        -- the fields that were read are those that stand there
        refine .soa htype hm hr ?_
        simp only [List.flatMap_cons, List.flatMap_nil, List.append_nil, List.hasAt_append,
          UInt32.length_toBytesBE, ← be32_eq_some]
        exact ⟨(Method.run_okOr_eq_ok.mp h₀).1, (Method.run_okOr_eq_ok.mp h₁).1,
          (Method.run_okOr_eq_ok.mp h₂).1, (Method.run_okOr_eq_ok.mp h₃).1,
          (Method.run_okOr_eq_ok.mp h₄).1⟩
      · rename_i hsoa
        obtain rfl := Except.ok.inj (Prod.mk.inj h).1
        exact .other ha hcname hsoa

/-- The data that stand there are read. -/
private theorem readData_read {msg : List UInt8} {rd : Nat} {rr : Dns.Record} {data : Rdata}
    (h : DataRead msg rd rr data) : Yields (readData msg rr.rtype rd rr.rdata) (.ok data) := by
  unfold readData
  cases h with
  -- each of the types is read as its data call for
  | a htype hdata =>
    rw [if_pos htype, hdata]
    exact Computes.pure _
  | cname htype hname =>
    rw [htype, if_neg (by decide), if_pos rfl]
    exact (readName_legible hname).bind (Computes.pure _)
  -- the numbers stand one behind the other
  | soa htype hmname hrname hnumbers =>
    simp only [List.flatMap_cons, List.flatMap_nil, List.append_nil, List.hasAt_append,
      UInt32.length_toBytesBE] at hnumbers
    obtain ⟨h₀, h₁, h₂, h₃, h₄⟩ := hnumbers
    rw [htype, if_neg (by decide), if_neg (by decide), if_pos rfl]
    refine (readName_legible hmname).bind ((readName_legible hrname).bind ?_)
    refine (okOr_yields (be32_of_hasAt h₀) .malformed).bind ?_
    refine (okOr_yields (be32_of_hasAt h₁) .malformed).bind ?_
    refine (okOr_yields (be32_of_hasAt h₂) .malformed).bind ?_
    refine (okOr_yields (be32_of_hasAt h₃) .malformed).bind ?_
    exact (okOr_yields (be32_of_hasAt h₄) .malformed).bind (Computes.pure _)
  | other ha hcname hsoa =>
    rw [if_neg ha, if_neg hcname, if_neg hsoa]
    exact Computes.pure _

/-! ## The records -/

/-- A record that was read stands at its place. -/
theorem readRecord_sound {msg : List UInt8} {pos next : Nat} {r : Record} {mem mem' : Mem}
    (h : (readRecord msg pos).run mem = (.ok (r, next), mem')) :
    ∃ rr, RecordRead msg pos rr r ∧ next = pos + rr.bytes.length := by
  rw [readRecord_eq] at h
  -- the parts of the record in the order in which they are read
  obtain ⟨⟨name, e⟩, s₁, hname, h⟩ := Method.run_bind_eq_ok.mp h
  obtain ⟨type, s₂, htype, h⟩ := Method.run_bind_eq_ok.mp h
  obtain ⟨ttl, s₃, httl, h⟩ := Method.run_bind_eq_ok.mp h
  obtain ⟨rdlen, s₄, hrdlen, h⟩ := Method.run_bind_eq_ok.mp h
  obtain ⟨rdata, s₅, hrdata, h⟩ := Method.run_bind_eq_ok.mp h
  obtain ⟨data, s₆, hdata, h⟩ := Method.run_bind_eq_ok.mp h
  obtain ⟨rfl, rfl⟩ := Prod.mk.inj (Except.ok.inj (Prod.mk.inj h).1)
  -- the owner may end in a pointer, and the fields stand behind it
  obtain ⟨labels, hlegible, rfl⟩ := readName_sound hname
  obtain ⟨owner, howner, hat, rfl⟩ := hlegible.ends
  have htype := be16_eq_some.mp (Method.run_okOr_eq_ok.mp htype).1
  have httl := be32_eq_some.mp (Method.run_okOr_eq_ok.mp httl).1
  have hrdlen := be16_eq_some.mp (Method.run_okOr_eq_ok.mp hrdlen).1
  obtain ⟨hlen, hle, hrdata⟩ := List.getRange?_eq_some_iff.mp (Method.run_okOr_eq_ok.mp hrdata).1
  -- the class is passed over, but it is there
  have hroom : pos + owner.length + 2 + 2 ≤ msg.length := by omega
  obtain ⟨cls, hcls⟩ := exists_be16 hroom
  have hcls := be16_eq_some.mp hcls
  have hsize : rdata.length = rdlen.toNat := by omega
  have hrdlen' : UInt16.ofNat rdata.length = rdlen := by rw [hsize, UInt16.ofNat_toNat]
  -- these are the parts of the record that stands there
  refine ⟨⟨owner, type, cls, ttl, rdata⟩, ⟨⟨howner, ?_⟩, ?_, ⟨labels, hlegible, rfl⟩, rfl, rfl, ?_⟩,
    ?_⟩
  · exact hsize ▸ rdlen.toNat_lt
  · simp only [Dns.Record.bytes, List.hasAt_append, UInt16.length_toBytesBE,
      UInt32.length_toBytesBE, hrdlen']
    exact ⟨hat, htype, hcls, httl, hrdlen, hrdata⟩
  · exact @readData_sound msg _ ⟨owner, type, cls, ttl, rdata⟩ data _ _ hdata
  · rw [Dns.Record.length_bytes]
    simp only [hsize]
    omega

/-- A record that stands at a place is read. -/
theorem readRecord_read {msg : List UInt8} {pos : Nat} {rr : Dns.Record} {r : Record}
    (h : RecordRead msg pos rr r) :
    Yields (readRecord msg pos) (.ok (r, pos + rr.bytes.length)) := by
  obtain ⟨labels, hlegible, hname⟩ := h.name
  have hr : r = ⟨readText labels, rr.rtype, rr.ttl, r.data⟩ := by
    rw [← hname, ← h.rtype, ← h.ttl]
  rw [hr]
  exact readRecord_yields h.stands h.wellFormed.2 (readName_legible hlegible) (readData_read h.data)

/-- Records that were read in a row stand in a row. -/
private theorem readRecords_sound {msg : List UInt8} {pos count e : Nat} {out rs : List Record}
    {mem mem' : Mem} (h : (readRecords msg pos out count).run mem = (.ok (rs, e), mem')) :
    ∃ rrs rs', rs = out ++ rs' ∧ rrs.length = count ∧ RecordsRead msg pos rrs rs' ∧
      e = pos + (rrs.flatMap Dns.Record.bytes).length := by
  -- the induction is on the number of records that are still to be read
  induction count generalizing pos out mem with
  | zero =>
    obtain ⟨rfl, rfl⟩ := Prod.mk.inj (Except.ok.inj (Prod.mk.inj h).1)
    exact ⟨[], [], (List.append_nil out).symm, rfl, .nil, rfl⟩
  | succ count ih =>
    rw [readRecords] at h
    -- the first record leads to the place of the next one
    obtain ⟨⟨r, next⟩, s, hr, h⟩ := Method.run_bind_eq_ok.mp h
    obtain ⟨_, s', -, h⟩ := Method.run_bind_eq_ok.mp h
    obtain ⟨rr, hread, rfl⟩ := readRecord_sound hr
    obtain ⟨rrs, rs', rfl, rfl, hrest, rfl⟩ := ih h
    refine ⟨rr :: rrs, r :: rs', ?_, rfl, .cons hread hrest, ?_⟩
    · rw [List.append_assoc, List.singleton_append]
    · rw [List.flatMap_cons, List.length_append, Nat.add_assoc]

/-- Records that stand in a row are read in a row. -/
private theorem readRecords_read {msg : List UInt8} {pos : Nat} {rrs : List Dns.Record}
    {rs : List Record} (h : RecordsRead msg pos rrs rs) (out : List Record) :
    Yields (readRecords msg pos out rrs.length)
      (.ok (out ++ rs, pos + (rrs.flatMap Dns.Record.bytes).length)) := by
  induction h generalizing out with
  | nil =>
    rw [List.append_nil]
    exact Computes.pure _
  | @cons pos rr rrs r rs h hrest ih =>
    -- what is read so far is handed on
    have hread := ih (out ++ [r])
    rw [List.append_assoc, List.singleton_append, Nat.add_assoc, ← List.length_append,
      ← List.flatMap_cons] at hread
    rw [List.length_cons, readRecords]
    exact (readRecord_read h).bind (tryReserve_yields.bind hread)

/-! ## The message -/

/-- So many questions stand from a place up to another: each a name, with a pointer or without,
    and the four bytes of its type and its class. Nobody looks at these four, so those of the last
    question may lie behind the end of the bytes. -/
inductive QuestionsStand (msg : List UInt8) : Nat → Nat → Nat → Prop
  | nil {pos : Nat} : QuestionsStand msg pos 0 pos
  | cons {pos count e : Nat} {name : List UInt8} (hname : Dns.NameBytes name)
      (hat : msg.HasAt pos name) (hrest : QuestionsStand msg (pos + name.length + 4) count e) :
      QuestionsStand msg pos (count + 1) e

/-- The place that is searched for behind the questions is the one where they end. -/
theorem questionsEnd_eq_some {msg : List UInt8} {pos count e : Nat} :
    questionsEnd msg pos count = some e ↔ QuestionsStand msg pos count e := by
  constructor
  -- the induction is on the number of questions
  · intro h
    induction count generalizing pos with
    | zero =>
      obtain rfl := Option.some.inj h
      exact .nil
    | succ count ih =>
      obtain ⟨e', hskip, hrest⟩ := Option.bind_eq_some_iff.mp h
      obtain ⟨name, hname, hat, rfl⟩ := skipName_eq_some.mp hskip
      exact .cons hname hat (ih hrest)
  · intro h
    induction h with
    | nil => rfl
    | cons hname hat _ ih =>
      rw [questionsEnd, skipName_of_hasAt hname hat, Option.bind_eq_bind, Option.bind_some, ih]

/-- The questions that stand at a place are passed over. -/
private theorem skipQuestions_read {msg : List UInt8} {pos count e : Nat}
    (h : QuestionsStand msg pos count e) : Yields (skipQuestions msg pos count) (.ok e) := by
  induction h with
  | nil => exact Computes.pure _
  | cons hname hat _ ih => exact (okOr_yields (skipName_of_hasAt hname hat) .malformed).bind ih

/-- The parts of a message that is read: its header, its questions up to the place behind them, and
    the records from there on, as many of each as the header says. -/
structure MessageRead (msg : List UInt8) (qd an ns : UInt16) (pos : Nat)
    (answers authority : List Dns.Record) (m : Message) : Prop where
  header : msg.HasAt 0 (Dns.headerBytes m.id m.flags qd an ns m.additional)
  questions : QuestionsStand msg HEADER_LEN qd.toNat pos
  an : answers.length = an.toNat
  ns : authority.length = ns.toNat
  answers_read : RecordsRead msg pos answers m.answers
  authority_read : RecordsRead msg (pos + (answers.flatMap Dns.Record.bytes).length) authority
    m.authority

/-- What was read as a message stands in the bytes. -/
theorem decode_sound {msg : List UInt8} {m : Message} {mem mem' : Mem}
    (h : (decode msg).run mem = (.ok m, mem')) :
    ∃ qd an ns pos answers authority, MessageRead msg qd an ns pos answers authority m := by
  rw [decode] at h
  -- the fields of the header in the order in which they are read
  obtain ⟨id, s₀, hid, h⟩ := Method.run_bind_eq_ok.mp h
  obtain ⟨flags, s₁, hflags, h⟩ := Method.run_bind_eq_ok.mp h
  obtain ⟨ar, s₂, har, h⟩ := Method.run_bind_eq_ok.mp h
  obtain ⟨qd, s₃, hqd, h⟩ := Method.run_bind_eq_ok.mp h
  obtain ⟨an, s₄, han, h⟩ := Method.run_bind_eq_ok.mp h
  obtain ⟨ns, s₅, hns, h⟩ := Method.run_bind_eq_ok.mp h
  obtain ⟨pos, s₆, hpos, h⟩ := Method.run_bind_eq_ok.mp h
  obtain ⟨⟨rs, pos'⟩, s₇, hrs, h⟩ := Method.run_bind_eq_ok.mp h
  obtain ⟨⟨rs', e⟩, s₈, hrs', h⟩ := Method.run_bind_eq_ok.mp h
  obtain rfl := Except.ok.inj (Prod.mk.inj h).1
  -- the records of both sections, as they were read
  obtain ⟨answers, rs, rfl, hlen, hread, rfl⟩ := readRecords_sound hrs
  obtain ⟨authority, rs', rfl, hlen', hread', rfl⟩ := readRecords_sound hrs'
  refine ⟨qd, an, ns, pos, answers, authority, ?_,
    questionsEnd_eq_some.mp (questionsEnd_of_run hpos), hlen, hlen', hread, hread'⟩
  -- the header is its six fields
  have hheader := @hasAt_headerBytes msg [] id flags qd an ns ar
  rw [List.append_nil] at hheader
  exact hheader.mpr ⟨(Method.run_okOr_eq_ok.mp hid).1, (Method.run_okOr_eq_ok.mp hflags).1,
    (Method.run_okOr_eq_ok.mp hqd).1, (Method.run_okOr_eq_ok.mp han).1,
    (Method.run_okOr_eq_ok.mp hns).1, (Method.run_okOr_eq_ok.mp har).1, List.hasAt_nil _ _⟩

/-- What stands in the bytes is read as a message. -/
private theorem decode_read {msg : List UInt8} {qd an ns : UInt16} {pos : Nat}
    {answers authority : List Dns.Record} {m : Message}
    (h : MessageRead msg qd an ns pos answers authority m) : Yields (decode msg) (.ok m) := by
  -- the fields of the header stand where they are read
  have hheader := @hasAt_headerBytes msg [] m.id m.flags qd an ns m.additional
  rw [List.append_nil] at hheader
  obtain ⟨hid, hflags, hqd, han, hns, har, -⟩ := hheader.mp h.header
  have hanswers := readRecords_read h.answers_read []
  have hauthority := readRecords_read h.authority_read []
  rw [h.an] at hanswers
  rw [h.ns] at hauthority
  -- `decode` step by step, none of which fails
  unfold decode
  refine (okOr_yields hid .malformed).bind ?_
  refine (okOr_yields hflags .malformed).bind ?_
  refine (okOr_yields har .malformed).bind ?_
  refine (okOr_yields hqd .malformed).bind ?_
  refine (okOr_yields han .malformed).bind ?_
  refine (okOr_yields hns .malformed).bind ?_
  refine (skipQuestions_read h.questions).bind ?_
  refine hanswers.bind ?_
  exact hauthority.bind (Computes.pure _)

/-- Of any bytes, `decode` returns what they say and nothing else: it comes to a message exactly
    when this is the header that stands first, as many questions as it counts stand behind it, and
    these are what the records behind the questions are read as, each under the name that stands
    there, whatever pointers lead to it, with its type, its time to live and the data of its type;
    and otherwise the bytes are malformed. -/
theorem decode_exact (msg : List UInt8) :
    (∀ m, Yields (decode msg) (.ok m) ↔
      ∃ qd an ns pos answers authority, MessageRead msg qd an ns pos answers authority m) ∧
    (Yields (decode msg) (.error .malformed) ↔ ∀ m qd an ns pos answers authority,
      ¬MessageRead msg qd an ns pos answers authority m) := by
  refine ⟨fun m => ⟨fun h => decode_sound h.ample, ?_⟩, fun h m qd an ns pos as bs hread => ?_, ?_⟩
  · rintro ⟨qd, an, ns, pos, answers, authority, h⟩
    exact decode_read h
  · cases h.unique (decode_read hread)
  · intro hnone
    -- what ends in a message has one that stands in the bytes
    obtain ⟨r, hyields, rfl | ⟨m, rfl⟩⟩ := decode_ends msg
    · exact hyields
    · obtain ⟨qd, an, ns, pos, answers, authority, h⟩ := decode_sound hyields.ample
      exact absurd h (hnone m qd an ns pos answers authority)

/-! ## Against the grammar -/

/-- One well-formed record stands at a place. -/
private theorem record_unique {msg : List UInt8} {pos : Nat} {rr rr' : Dns.Record}
    (h : rr.WellFormed)
    (h' : rr'.WellFormed) (hat : msg.HasAt pos rr.bytes) (hat' : msg.HasAt pos rr'.bytes) :
    rr = rr' := by
  obtain ⟨rest, hrest⟩ := hat
  obtain ⟨rest', hrest'⟩ := hat'
  have htake := Dns.takeRecord_append h rest
  rw [hrest, ← hrest', Dns.takeRecord_append h' rest'] at htake
  exact (Prod.mk.inj (Option.some.inj htake)).1.symm

/-- The records that are read are the well-formed ones that stand there. -/
theorem RecordsRead.unique {msg : List UInt8} {pos : Nat} {rrs rrs' : List Dns.Record}
    {rs : List Record} (h : RecordsRead msg pos rrs rs) (h' : ∀ rr ∈ rrs', rr.WellFormed)
    (hat : msg.HasAt pos (rrs'.flatMap Dns.Record.bytes)) (hlen : rrs.length = rrs'.length) :
    rrs = rrs' := by
  induction h generalizing rrs' with
  | nil => exact (List.length_eq_zero_iff.mp hlen.symm).symm
  | cons h _ ih =>
    -- as many records are read as are written
    cases rrs' with
    | nil => cases hlen
    | cons rr' rrs' =>
      obtain ⟨hrr', hrrs'⟩ := List.forall_mem_cons.mp h'
      rw [List.flatMap_cons, List.hasAt_append] at hat
      -- one record stands at a place, and the others behind it
      obtain rfl := record_unique h.wellFormed hrr' h.stands hat.1
      rw [ih hrrs' hat.2 (Nat.succ.inj hlen)]

/-- Well-formed questions stand up to where their bytes end. -/
private theorem questionsStand_bytes {msg : List UInt8} {pos : Nat} {qs : List Dns.Question}
    (h : ∀ q ∈ qs, q.WellFormed) (hat : msg.HasAt pos (qs.flatMap Dns.Question.bytes)) :
    QuestionsStand msg pos qs.length (pos + (qs.flatMap Dns.Question.bytes).length) := by
  -- the induction is on the questions that were written
  induction qs generalizing pos with
  | nil => exact .nil
  | cons q qs ih =>
    obtain ⟨hq, hqs⟩ := List.forall_mem_cons.mp h
    rw [List.flatMap_cons, List.hasAt_append] at hat
    have hname : msg.HasAt pos q.name := (List.hasAt_append.mp hat.1).1
    have hrest := ih hqs hat.2
    rw [Dns.Question.length_bytes, ← Nat.add_assoc] at hrest
    rw [List.flatMap_cons, List.length_append, Dns.Question.length_bytes, ← Nat.add_assoc,
      ← Nat.add_assoc]
    exact .cons hq hname hrest

/-- The questions end at one place. -/
theorem QuestionsStand.unique {msg : List UInt8} {pos count e e' : Nat}
    (h : QuestionsStand msg pos count e) (h' : QuestionsStand msg pos count e') : e = e' :=
  Option.some.inj
    ((questionsEnd_eq_some.mpr h).symm.trans (questionsEnd_eq_some.mpr h'))

/-- Of a well-formed message the records that are read are those of the message. -/
theorem MessageRead.unique {m' : Dns.Message} (hm' : m'.WellFormed) {qd an ns : UInt16} {pos : Nat}
    {answers authority : List Dns.Record} {m : Message}
    (h : MessageRead m'.bytes qd an ns pos answers authority m) :
    m.id = m'.id ∧ m.flags = m'.flags ∧ answers = m'.answers ∧ authority = m'.authority := by
  have hat : m'.bytes.HasAt 0 m'.bytes := List.prefix_rfl
  -- the bytes start with the header, which has one reading only
  obtain ⟨hid, hflags, hqd, han, hns, -, hbody⟩ := hasAt_headerBytes.mp hat
  have hheader := h.header
  rw [← List.append_nil (Dns.headerBytes ..)] at hheader
  obtain ⟨hid', hflags', hqd', han', hns', -⟩ := hasAt_headerBytes.mp hheader
  obtain rfl := Option.some.inj (hqd.symm.trans hqd')
  obtain rfl := Option.some.inj (han.symm.trans han')
  obtain rfl := Option.some.inj (hns.symm.trans hns')
  simp only [List.hasAt_append] at hbody
  obtain ⟨hq, ha, hb, -⟩ := hbody
  -- the questions that stand there are those that were written, so the records start behind them
  have hpos := h.questions
  rw [UInt16.toNat_ofNat_of_lt' hm'.qd, show HEADER_LEN = 12 from rfl] at hpos
  obtain rfl := hpos.unique (questionsStand_bytes hm'.questions hq)
  -- the answers are the first of the records
  have hanswers : answers = m'.answers := h.answers_read.unique hm'.answers ha
    (h.an.trans (UInt16.toNat_ofNat_of_lt' hm'.an))
  subst hanswers
  exact ⟨Option.some.inj (hid'.symm.trans hid), Option.some.inj (hflags'.symm.trans hflags), rfl,
    h.authority_read.unique hm'.authority hb (h.ns.trans (UInt16.toNat_ofNat_of_lt' hm'.ns))⟩

end HopDns

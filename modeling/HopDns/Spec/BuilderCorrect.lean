import HopDns.Spec.DecodeCorrect
import HopDns.Spec.AskCorrect

/-!
# The reader undoes the builder

Any calls of the reply builder, some of which may fail, and then the reader over the
finished reply: it gives back the records of the calls that returned.

## Key results

- `callAll_shows`: the draft after any calls has the records of those that returned
- `decode_finish`: reading the finished reply gives back those records
-/

namespace HopDns

open ForStd
open Reply (aRecord cnameRecord soaRecord encodeZone)

/-! ## The calls -/

/-- A call of `answer_a` or `answer_cname`. -/
inductive AnswerCall where
  | a (ip : Ipv4Addr) (ttl : UInt32)
  | cname (target : Str) (ttl : UInt32)
deriving DecidableEq, Repr

/-- A call of `authority_soa`. -/
structure SoaCall where
  zone : Str
  ttl : UInt32
deriving DecidableEq, Repr

namespace AnswerCall

def call : AnswerCall → Method Error Reply Unit
  | a ip ttl => Reply.answerA ip ttl
  | cname target ttl => Reply.answerCname target ttl

/-- The record the call asks for, under the name `owner`. -/
def record (owner : Str) : AnswerCall → Record
  | a ip ttl => ⟨owner, rtype.A, ttl, .a ip⟩
  | cname target ttl => ⟨owner, rtype.CNAME, ttl, .cname (fullName (nameLabels target))⟩

/-- The target, if there is one, is made of ASCII labels. -/
def Ascii : AnswerCall → Prop
  | a _ _ => True
  | cname target _ => AsciiLabels (nameLabels target)

instance (c : AnswerCall) : Decidable c.Ascii :=
  match c with
  | a _ _ => isTrue trivial
  | cname target _ => inferInstanceAs (Decidable (AsciiLabels (nameLabels target)))

/-- The call adds this record when it returns. -/
def Writes : AnswerCall → Dns.Record → Prop
  | a ip ttl, rr => rr = aRecord ip ttl
  | cname target ttl, rr => ∃ n, encodeName target = some n ∧ rr = cnameRecord n ttl

end AnswerCall

namespace SoaCall

def call (s : SoaCall) : Method Error Reply Unit := Reply.authoritySoa s.zone s.ttl

/-- The record the call asks for. -/
def record (s : SoaCall) : Record where
  name := fullName (nameLabels s.zone)
  rtype := rtype.SOA
  ttl := s.ttl
  data := .soa (fullName (str "ns" :: nameLabels s.zone))
    (fullName (str "hostmaster" :: nameLabels s.zone)) 1 s.ttl s.ttl s.ttl s.ttl

/-- The zone is made of ASCII labels, and its mailbox is a name that is not too long. -/
def Readable (s : SoaCall) : Prop :=
  AsciiLabels (nameLabels s.zone) ∧
    (Dns.wire (str "hostmaster" :: nameLabels s.zone)).length ≤ NAME_MAX

instance (s : SoaCall) : Decidable s.Readable := inferInstanceAs (Decidable (_ ∧ _))

/-- The call adds this record when it returns. -/
def Writes (s : SoaCall) (rr : Dns.Record) : Prop :=
  ∃ n, encodeZone s.zone = some n ∧ rr = soaRecord n s.ttl

end SoaCall

/-- The calls, one after the other: those that returned, and the reply they leave. -/
def callAll {α : Type} (call : α → Method Error Reply Unit) : List α → Reply → List α × Reply
  | [], r => ([], r)
  | a :: rest, r =>
    match (call a).run r with
    | (.ok (), r) =>
      let (done, r) := callAll call rest r
      (a :: done, r)
    | (.error _, r) => callAll call rest r

/-! ## What they write -/

/-- The draft with records more in one section. -/
def Draft.addAll (d : Draft) (s : Section) (rrs : List Dns.Record) : Draft :=
  { d with records := d.records ++ rrs.map (s, ·) }

private theorem Draft.addAll_nil (d : Draft) (s : Section) : d.addAll s [] = d := by simp [addAll]

private theorem Draft.addAll_cons (d : Draft) (s : Section) (rr : Dns.Record)
    (rrs : List Dns.Record) :
    d.addAll s (rr :: rrs) = (d.add s rr).addAll s rrs := by simp [addAll, add]

variable {limit size : Nat}

/-- A writer adds one record to the draft, or fails and leaves the reply as it was. -/
def AddsOne {α : Type} (call : α → Method Error Reply Unit) (s : Section)
    (Writes : α → Dns.Record → Prop) (limit size : Nat) : Prop :=
  ∀ a (r : Reply) (d : Draft), r.Shows limit size d →
    (∃ e, (call a).run r = (.error e, r)) ∨
      ∃ r' rr, (call a).run r = (.ok (), r') ∧ r'.Shows limit size (d.add s rr) ∧ Writes a rr

/-- The draft after any calls has the records of those that returned, in their order. -/
theorem callAll_shows {α : Type} {call : α → Method Error Reply Unit} {s : Section}
    {Writes : α → Dns.Record → Prop} (hcall : AddsOne call s Writes limit size) (calls : List α)
    {r : Reply} {d : Draft} (h : r.Shows limit size d) :
    ∃ done : List (α × Dns.Record), done.map (·.1) = (callAll call calls r).1 ∧
      (∀ p ∈ done, p.1 ∈ calls ∧ Writes p.1 p.2) ∧
      (callAll call calls r).2.Shows limit size (d.addAll s (done.map (·.2))) := by
  -- the induction is on the calls still to be made
  induction calls generalizing r d with
  | nil => exact ⟨[], rfl, (fun p hp => by cases hp), by rwa [List.map_nil, Draft.addAll_nil]⟩
  | cons a rest ih =>
    -- what the rest puts in, all the calls put in
    have hmem : ∀ done : List (α × Dns.Record), (∀ p ∈ done, p.1 ∈ rest ∧ Writes p.1 p.2) →
        ∀ p ∈ done, p.1 ∈ a :: rest ∧ Writes p.1 p.2 := by
      intro done hdone p hp
      exact ⟨List.mem_cons_of_mem a (hdone p hp).1, (hdone p hp).2⟩
    obtain ⟨e, hrun⟩ | ⟨r', rr, hrun, hshow, hwrites⟩ := hcall a r d h
    · -- a call that failed has no part in the reply
      obtain ⟨done, hdone, hall, hrest⟩ := ih h
      rw [callAll, hrun]
      exact ⟨done, hdone, hmem done hall, hrest⟩
    · obtain ⟨done, hdone, hall, hrest⟩ := ih hshow
      rw [callAll, hrun]
      -- a call that went through has its record in front of the others
      refine ⟨(a, rr) :: done, congrArg (a :: ·) hdone, ?_, ?_⟩
      · intro p hp
        obtain rfl | hp := List.mem_cons.mp hp
        · exact ⟨List.mem_cons_self, hwrites⟩
        · exact hmem done hall p hp
      · rw [List.map_cons, Draft.addAll_cons]
        exact hrest

/-- An answer that is written is one record more among the answers. -/
private theorem AnswerCall.addsOne : AddsOne call .answer Writes limit size := by
  intro c r d h
  -- a record goes in where there is room for it, and otherwise the reply is as it was
  cases c with
  | a ip ttl =>
    by_cases hroom : 16 ≤ d.room limit
    · obtain ⟨r', hrun, hshow⟩ := Reply.answerA_ok h ip ttl hroom
      exact .inr ⟨r', _, hrun, hshow, rfl⟩
    · exact .inl ⟨_, Reply.answerA_full h ip ttl (by omega)⟩
  -- a target that is no name goes in nowhere
  | cname target ttl =>
    cases hn : encodeName target with
    | none => exact .inl (Reply.answerCname_none h ttl fun n hn' => by cases hn.symm.trans hn')
    | some n =>
      by_cases hroom : 12 + n.wire.length ≤ d.room limit
      · obtain ⟨r', hrun, hshow⟩ := Reply.answerCname_ok h ttl hn hroom
        exact .inr ⟨r', _, hrun, hshow, n, hn, rfl⟩
      · refine .inl (Reply.answerCname_none h ttl fun n' hn' => ?_)
        obtain rfl := Option.some.inj (hn.symm.trans hn')
        omega

/-- An SOA that is written is one record more in the authority section. -/
private theorem SoaCall.addsOne : AddsOne call .authority Writes limit size := by
  intro c r d h
  cases hn : encodeZone c.zone with
  | none => exact .inl (Reply.authoritySoa_none h c.ttl fun n hn' => by cases hn.symm.trans hn')
  | some n =>
    by_cases hroom : 3 * n.wire.length + 44 ≤ d.room limit
    · obtain ⟨r', hrun, hshow⟩ := Reply.authoritySoa_ok h c.ttl hn hroom
      exact .inr ⟨r', _, hrun, hshow, n, hn, rfl⟩
    · refine .inl (Reply.authoritySoa_none h c.ttl fun n' hn' => ?_)
      obtain rfl := Option.some.inj (hn.symm.trans hn')
      omega

/-! ## What is read back -/

/-- Where a record stands its owner stands, and its data behind the ten bytes. -/
private theorem hasAt_rdata {msg : List UInt8} {pos : Nat} {rr : Dns.Record}
    (h : msg.HasAt pos rr.bytes) :
    msg.HasAt pos rr.owner ∧ msg.HasAt (pos + rr.owner.length + 10) rr.rdata := by
  simp only [Dns.Record.bytes, List.hasAt_append, UInt16.length_toBytesBE,
    UInt32.length_toBytesBE] at h
  obtain ⟨howner, -, -, -, -, hrdata⟩ := h
  exact ⟨howner, hrdata⟩

/-- The record of a call for an answer is read back, under the name of the question. -/
theorem AnswerCall.Writes.readRecord {c : AnswerCall} {rr : Dns.Record} (h : c.Writes rr)
    (hascii : c.Ascii) {msg : List UInt8} {labels : List Str} (hlegal : Dns.Legal labels)
    (hlabels : AsciiLabels labels) (hlen : (Dns.wire labels).length ≤ 256)
    (hname : msg.HasAt HEADER_LEN (Dns.wire labels)) {pos : Nat} (hpos : HEADER_LEN < pos)
    (hat : msg.HasAt pos rr.bytes) :
    Yields (readRecord msg pos) (.ok (c.record (fullName labels), pos + rr.bytes.length)) := by
  obtain ⟨howner, hrdata⟩ := hasAt_rdata hat
  -- the owner is the pointer to the question's name, which reads as that name
  cases c with
  | a ip ttl =>
    obtain rfl := h
    have hread := readName_pointer hlegal hlabels hname hlen hpos howner
    exact readRecord_yields hat (show 4 < 65536 by decide) hread (Computes.pure _)
  | cname target ttl =>
    -- the target is written out in full
    obtain ⟨n, hn, rfl⟩ := h
    have hfits := n.length_wire_le
    have hread := readName_pointer hlegal hlabels hname hlen hpos howner
    have htarget := readName_wire n.legal (encodeName_eq_some.mp hn ▸ hascii) hrdata
      (Nat.le_succ_of_le hfits)
    rw [encodeName_eq_some.mp hn] at htarget
    exact readRecord_yields hat (show n.wire.length < 65536 by omega) hread
      (htarget.bind (Computes.pure _))

/-- The record of a call for an SOA record is read back. -/
theorem SoaCall.Writes.readRecord {c : SoaCall} {rr : Dns.Record} (h : c.Writes rr)
    (hreadable : c.Readable) {msg : List UInt8} {pos : Nat} (hat : msg.HasAt pos rr.bytes) :
    Yields (readRecord msg pos) (.ok (c.record, pos + rr.bytes.length)) := by
  -- the owner is the zone, written out in full
  obtain ⟨howner, hrdata⟩ := hasAt_rdata hat
  obtain ⟨n, hn, rfl⟩ := h
  obtain ⟨hn, -⟩ := Reply.encodeZone_eq_some.mp hn
  have hlabels := encodeName_eq_some.mp hn
  obtain ⟨hascii, hmax⟩ := hreadable
  rw [← hlabels] at hascii hmax
  have hfits := n.length_wire_le
  have hdata := Reply.length_soaData n c.ttl
  -- the data: two names below the zone, and five numbers
  have hrdata : msg.HasAt (pos + n.wire.length + 10) (Dns.wire (str "ns" :: n.labels) ++
      (Dns.wire (str "hostmaster" :: n.labels) ++
        [1, c.ttl, c.ttl, c.ttl, c.ttl].flatMap UInt32.toBytesBE)) := by
    rw [Dns.wire_cons, Dns.wire_cons]
    simpa only [soaRecord, Reply.soaData, Dns.Name.wire, List.append_assoc] using hrdata
  -- the places of the two names and of the numbers behind them
  generalize hp : pos + n.wire.length + 10 = p at hrdata
  obtain ⟨hns, hrest⟩ := List.hasAt_append.mp hrdata
  obtain ⟨hhost, hwords⟩ := List.hasAt_append.mp hrest
  -- the longer of the two is short enough by assumption
  have hlen : (Dns.wire (str "ns" :: n.labels)).length ≤ 256 ∧
      (Dns.wire (str "hostmaster" :: n.labels)).length ≤ 256 := by
    rw [Dns.length_wire_cons] at hmax ⊢
    rw [Dns.length_wire_cons]
    have hlonger : (str "ns").length + 8 = (str "hostmaster").length := by decide
    unfold NAME_MAX at hmax
    omega
  -- both names are read back whole
  have hns := readName_wire (n.legal.cons (by decide))
    (List.forall_mem_cons.mpr ⟨by decide +kernel, hascii⟩) hns hlen.1
  have hhost := readName_wire (n.legal.cons (by decide))
    (List.forall_mem_cons.mpr ⟨by decide +kernel, hascii⟩) hhost hlen.2
  generalize p + (Dns.wire (str "ns" :: n.labels)).length = p₁ at hns hhost hwords
  generalize p₁ + (Dns.wire (str "hostmaster" :: n.labels)).length = p₂ at hhost hwords
  simp only [List.flatMap_cons, List.hasAt_append, UInt32.length_toBytesBE] at hwords
  obtain ⟨h₀, h₁, h₂, h₃, h₄, -⟩ := hwords
  -- the data is read as two names and five numbers
  have hread : Yields (readData msg rtype.SOA p (Reply.soaData n c.ttl)) (.ok c.record.data) := by
    unfold readData
    rw [if_neg (by decide), if_neg (by decide), if_pos rfl]
    refine hns.bind (hhost.bind ?_)
    refine (okOr_yields (be32_of_hasAt h₀) .malformed).bind ?_
    refine (okOr_yields (be32_of_hasAt h₁) .malformed).bind ?_
    refine (okOr_yields (be32_of_hasAt h₂) .malformed).bind ?_
    refine (okOr_yields (be32_of_hasAt h₃) .malformed).bind ?_
    refine (okOr_yields (be32_of_hasAt h₄) .malformed).bind ?_
    unfold SoaCall.record
    rw [← hlabels]
    exact Computes.pure _
  have howner : Yields (readName msg pos) (.ok (c.record.name, pos + n.wire.length)) := by
    have hname : c.record.name = fullName n.labels := by
      rw [hlabels]
      rfl
    rw [hname]
    exact readName_wire n.legal hascii howner (Nat.le_succ_of_le hfits)
  rw [← hp] at hread
  exact readRecord_yields hat (show (Reply.soaData n c.ttl).length < 65536 by omega) howner hread

/-! ## There and back -/

namespace Draft

/-- Records of the two sections, one section after the other, are those of their sections. -/
private theorem message_addAll {d : Draft} (hempty : d.records = []) (rrs rrs' : List Dns.Record) :
    ((d.addAll .answer rrs).addAll .authority rrs').Ordered ∧
      ((d.addAll .answer rrs).addAll .authority rrs').message.answers = rrs ∧
        ((d.addAll .answer rrs).addAll .authority rrs').message.authority = rrs' := by
  -- the answers come first, then the authority records
  have hrecords : ((d.addAll .answer rrs).addAll .authority rrs').records =
      rrs.map (Section.answer, ·) ++ rrs'.map (Section.authority, ·) := by
    simp [addAll, hempty]
  -- a section holds what was put in under its name
  have hsection : ∀ s, ((d.addAll .answer rrs).addAll .authority rrs').inSection s =
      (if .answer = s then rrs else []) ++ (if .authority = s then rrs' else []) := by
    have hfilter : ∀ (s s' : Section) (l : List Dns.Record),
        ((l.map (s, ·)).filter fun r => r.1 = s').map (·.2) = if s = s' then l else [] := by
      intro s s' l
      exact @inSection_map { d with records := l.map (s, ·) } s l rfl s'
    intro s
    rw [inSection, hrecords, List.filter_append, List.map_append, hfilter, hfilter]
  have hanswer : ((d.addAll .answer rrs).addAll .authority rrs').inSection .answer = rrs := by
    simp [hsection]
  have hauthority :
      ((d.addAll .answer rrs).addAll .authority rrs').inSection .authority = rrs' := by
    simp [hsection]
  exact ⟨by rw [Ordered, hrecords, hanswer, hauthority], hanswer, hauthority⟩

/-- Every record takes bytes, so there are no more records than there is room for. -/
private theorem length_records_le (d : Draft) : d.records.length ≤ d.bytes.length := by
  have hrecords : ∀ l : List (Section × Dns.Record),
      l.length ≤ (l.flatMap fun r => r.2.bytes).length := by
    intro l
    induction l with
    | nil => exact Nat.le_refl 0
    | cons r l ih =>
      rw [List.flatMap_cons, List.length_append, List.length_cons, Dns.Record.length_bytes]
      omega
  have := hrecords d.records
  rw [length_bytes, body, List.length_append]
  omega

end Draft

/-- The records of a reply can be counted in 16 bits. -/
private theorem length_records_lt {r : Reply} {d : Draft} (h : r.Shows limit size d)
    (hlimit : limit ≤ EDNS_MAX) : d.records.length < 65536 := by
  have hle := d.length_records_le
  have hfits := h.fits
  unfold EDNS_MAX at hlimit
  omega

/-- A host name has visible bytes only, and these are ASCII. -/
theorem asciiLabels_of_nameText {n : Dns.Name} {t : Str} (h : nameText n.wire = some t) :
    AsciiLabels n.labels := by
  obtain ⟨hvisible, -⟩ := visible_of_nameText h
  intro l hl b hb
  have hhigh := UInt8.le_iff_toNat_le.mp (hvisible l hl b hb).1.2
  rw [UInt8.lt_iff_toNat_lt]
  simp only [UInt8.reduceToNat] at hhigh ⊢
  omega

/-- A reply that was started holds the question. -/
private theorem start_shows {q : Query} {n : Dns.Name} (hn : q.Asks n) {limit : Nat}
    {out buf : List UInt8} {r : Reply} (hstart : (Reply.start q limit).run out = (.ok r, buf)) :
    r.Shows (min limit out.length) out.length (Reply.startDraft q n) := by
  by_cases hfits : HEADER_LEN + q.question.length + Reply.reserve q.edns ≤ min limit out.length
  · obtain ⟨r', buf', hrun, hshow⟩ := Reply.start_ok hn.question limit hfits
    obtain ⟨hr, -⟩ := Prod.mk.inj (hstart.symm.trans hrun)
    obtain rfl := Except.ok.inj hr
    exact hshow
  · obtain ⟨e, buf', hrun⟩ := Reply.start_none q limit (Nat.lt_of_not_le hfits)
    cases hstart.symm.trans hrun

/-- Reading undoes building. A reply to a question for a host name, after any calls for answers
    and then any calls for SOA records, reads as the answers and the SOA records of the calls
    that returned, in their order, with the OPT record counted when the question spoke EDNS. -/
theorem decode_finish {msg out buf : List UInt8} {q : Query} {t : Str} {n : Dns.Name} {limit : Nat}
    {r : Reply} (hq : parseQuery msg = .ok q) (hn : q.qname = n.wire)
    (ht : nameText q.qname = some t) (hlimit : limit ≤ EDNS_MAX)
    (hstart : (Reply.start q limit).run out = (.ok r, buf)) (answers : List AnswerCall)
    (zones : List SoaCall) (hanswers : ∀ c ∈ answers, c.Ascii) (hzones : ∀ c ∈ zones, c.Readable) :
    let done := callAll AnswerCall.call answers r
    let done' := callAll SoaCall.call zones done.2
    Yields (decode (done'.2.finish.2.take done'.2.finish.1))
      (.ok {
        id := q.id
        flags := Reply.replyFlags q.flags .noError
        answers := done.1.map (AnswerCall.record (fullName n.labels))
        authority := done'.1.map SoaCall.record
        additional := if q.edns.isSome then 1 else 0 }) := by
  intro done done'
  obtain ⟨n', hn'⟩ := Query.exists_asks hq
  -- the question asks for one name only
  obtain rfl : n' = n := Dns.Name.wire_inj (hn'.qname.symm.trans hn)
  have hascii : AsciiLabels n'.labels := asciiLabels_of_nameText (by rw [← hn'.qname]; exact ht)
  have hstarted := start_shows hn' hstart
  -- each list of calls leaves the records of those that went through
  obtain ⟨as, hdone, has, hshow⟩ := callAll_shows AnswerCall.addsOne answers hstarted
  obtain ⟨bs, hdone', hbs, hshow'⟩ := callAll_shows SoaCall.addsOne zones hshow
  obtain ⟨hordered, hmanswers, hmauthority⟩ :=
    Draft.message_addAll (show (Reply.startDraft q n').records = [] from rfl)
      (as.map (·.2)) (bs.map (·.2))
  -- `d` is what the reply shows once all calls are made
  generalize hd : ((Reply.startDraft q n').addAll .answer (as.map (·.2))).addAll .authority
    (bs.map (·.2)) = d at hshow' hordered hmanswers hmauthority
  -- `finish` closes what the reply shows
  obtain ⟨buf', hfinish, -, htake⟩ := Reply.finish_eq hshow'
  show Yields (decode
    (((callAll SoaCall.call zones (callAll AnswerCall.call answers r).2).2.finish).2.take
      ((callAll SoaCall.call zones (callAll AnswerCall.call answers r).2).2.finish).1)) _
  rw [hfinish]
  simp only
  rw [htake, d.closed_eq hordered]
  -- the counters tell how many records there are, since the records fit the limit
  have hcount : as.length + bs.length < 65536 := by
    have hrecords : d.records.length = as.length + bs.length := by
      rw [← hd]
      simp [Draft.addAll, Reply.startDraft]
    rw [← hrecords]
    apply length_records_lt hshow'
    exact Nat.le_trans (Nat.min_le_left _ _) hlimit
  have hquestions : d.message.questions = [⟨n'.wire, q.qtype, q.qclass⟩] := by
    rw [← hd]
    rfl
  -- each section is read back record by record, the zones after the answers
  have hread : Yields (decode d.message.bytes) (.ok ⟨d.message.id, d.message.flags,
      as.map fun p => p.1.record (fullName n'.labels), bs.map fun p => p.1.record,
      UInt16.ofNat d.message.additional.length⟩) :=
    decode_bytes hquestions rfl hmanswers hmauthority (by omega) (by omega)
      (fun hname p hp pos hpos hat => (has p hp).2.readRecord (hanswers _ (has p hp).1) n'.legal
        hascii (Nat.le_succ_of_le n'.fits) hname hpos hat)
      (fun p hp pos _ hat => (hbs p hp).2.readRecord (hzones _ (hbs p hp).1) hat)
  -- the header's fields are those of the query
  have hid : d.message.id = q.id := by
    rw [← hd]
    rfl
  have hflags : d.message.flags = Reply.replyFlags q.flags .noError := by
    rw [← hd]
    rfl
  have hadditional : UInt16.ofNat d.message.additional.length = if q.edns.isSome then 1 else 0 := by
    have hedns : d.edns = q.edns := by
      rw [← hd]
      rfl
    rw [← hedns]
    unfold Draft.message Draft.additional
    simp only
    split <;> rfl
  -- what the calls were about is what was written
  have hcalls : (as.map fun p => p.1.record (fullName n'.labels)) =
      done.1.map (AnswerCall.record (fullName n'.labels)) := by
    rw [← hdone, List.map_map]
    rfl
  have hcalls' : (bs.map fun p => p.1.record) = done'.1.map SoaCall.record := by
    rw [← hdone', List.map_map]
    rfl
  rw [hid, hflags, hadditional, hcalls, hcalls'] at hread
  exact hread

/-- Three calls for answers, the second of which fails. -/
def someAnswers : List AnswerCall :=
  [.a ⟨10, 0, 0, 1⟩ 5, .cname (str "a..b") 5, .cname (str "target.example") 7]

/-- A reply to a question for ANY, with an answer that is no name left out, is read as it was
    written. -/
theorem decode_finish_alias :
    ∃ r buf, (Reply.start (queryOf Server.aliasName rtype.ANY) 512).run (List.replicate 512 0) =
        (.ok r, buf) ∧
      Yields
        (decode ((callAll SoaCall.call [⟨str "hop.local", 5⟩]
            (callAll AnswerCall.call someAnswers r).2).2.finish.2.take
          (callAll SoaCall.call [⟨str "hop.local", 5⟩]
            (callAll AnswerCall.call someAnswers r).2).2.finish.1))
        (.ok {
          id := 0
          flags := Reply.replyFlags RD .noError
          answers := (callAll AnswerCall.call someAnswers r).1.map
            (AnswerCall.record (fullName Server.aliasName.labels))
          authority := (callAll SoaCall.call [⟨str "hop.local", 5⟩]
            (callAll AnswerCall.call someAnswers r).2).1.map SoaCall.record
          additional := 1 }) := by
  obtain ⟨r, buf, hrun, -⟩ := @Reply.start_ok (queryOf Server.aliasName rtype.ANY) Server.aliasName
    rfl 512 (List.replicate 512 0) (by decide +kernel)
  exact ⟨r, buf, hrun, decode_finish (parseQuery_queryFor Server.aliasName rtype.ANY) rfl
    (nameText_of_visible (by decide +kernel)) (by decide +kernel) hrun someAnswers
    [⟨str "hop.local", 5⟩]
    (by decide +kernel) (by decide +kernel)⟩

end HopDns

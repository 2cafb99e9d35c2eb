import HopDns.ForStd.Distinct
import HopDns.Native.Server
import HopDns.Spec.ReplyCorrect

/-!
# What the server decides

The decision of the server on a question, apart from the bytes it becomes: the
`Verdict`. A verdict is drawn up as a draft in the room the reply has, and a
record that does not fit, or that is no name, makes it a SERVFAIL without records.

## Key results

- `Draft.render_ordered`, `Draft.render_wellFormed`: what is drawn up is a message
-/

namespace HopDns

open ForStd
open Reply (aRecord cnameRecord soaRecord encodeZone)

/-- What the server decides about a question. -/
inductive Verdict where
  /-- not ours to answer -/
  | refused
  /-- a static CNAME -/
  | aliased (target : Str)
  /-- in one of our zones: the addresses the name has for this question, and whether the name
      is known -/
  | zone (known : Bool) (ips : List Ipv4Addr) (zone : Str)
deriving DecidableEq

namespace Lookup

/-- The addresses of a lookup. -/
def addresses (cache : Cache) : Lookup → List Ipv4Addr
  | .apex => []
  | .cluster ips => ips.getD []
  | .merged job => (cache.merged job).flatten.eraseDups

end Lookup

namespace Server

/-- Whether a question of this class is one for the Internet. -/
def asksInternet (qclass : UInt16) : Bool := qclass = CLASS_IN ∨ qclass = CLASS_ANY

/-- Whether a question of this type asks for addresses. -/
def asksAddress (qtype : UInt16) : Bool := qtype = rtype.A ∨ qtype = rtype.ANY

/-- The decision on a name, for a question of class Internet. -/
def verdictOn (s : Server) (cache : Cache) (name : Str) (qtype : UInt16) : Verdict :=
  match s.cnames.lookup name with
  | some target => .aliased target
  | none =>
    if inZone name s.domain then
      let lookup := s.lookup cache name
      .zone (lookup.known cache) (if asksAddress qtype then lookup.addresses cache else [])
        s.domain
    else
      match s.cnames.zoneOf name with
      | some zone => .zone false [] zone
      | none => .refused

/-- The decision on a question. -/
def verdict (s : Server) (cache : Cache) (q : Query) : Verdict :=
  match nameText q.qname with
  | none => .refused
  | some name => if asksInternet q.qclass then s.verdictOn cache name q.qtype else .refused

end Server

namespace Draft

/-- The draft with answers more. -/
def addAnswers (d : Draft) (rrs : List Dns.Record) : Draft :=
  { d with records := d.records ++ rrs.map (Section.answer, ·) }

/-- As many of the addresses as there is room for. -/
def fitting (d : Draft) (limit : Nat) (ips : List Ipv4Addr) : List Ipv4Addr :=
  ips.take (d.room limit / 16)

/-- The SOA record of a zone, or the failure to write it. -/
def renderSoa (d : Draft) (limit : Nat) (zone : Str) : Draft :=
  match encodeZone zone with
  | some n =>
    if 3 * n.wire.length + 44 ≤ d.room limit then d.add .authority (soaRecord n TTL)
    else d.withRcode .servFail
  | none => d.withRcode .servFail

/-- The reply to a verdict, drawn up on the start of a reply. -/
def render (d : Draft) (limit : Nat) : Verdict → Draft
  | .refused => d.withRcode .refused
  | .aliased target =>
    match encodeName target with
    | some n =>
      if 12 + n.wire.length ≤ d.room limit then d.add .answer (cnameRecord n TTL)
      else d.withRcode .servFail
    | none => d.withRcode .servFail
  | .zone known ips zone =>
    if d.fitting limit ips = [] then
      (if known then d else d.withRcode .nxDomain).renderSoa limit zone
    else d.addAnswers ((d.fitting limit ips).map fun ip => aRecord ip TTL)

/-- Where no address fits, it is as if there were none. -/
theorem render_of_fitting_nil {d : Draft} {limit : Nat} {ips : List Ipv4Addr}
    (hfit : d.fitting limit ips = []) (known : Bool) (zone : Str) :
    d.render limit (.zone known ips zone) = d.render limit (.zone known [] zone) := by
  have hnil : d.fitting limit [] = [] := List.take_nil
  simp only [render, hfit, hnil, if_true]

theorem addAnswers_nil (d : Draft) : d.addAnswers [] = d := by
  simp [addAnswers]

theorem addAnswers_cons (d : Draft) (rr : Dns.Record) (rrs : List Dns.Record) :
    d.addAnswers (rr :: rrs) = (d.add .answer rr).addAnswers rrs := by
  simp [addAnswers, add]

/-- A code takes the place of the one before. -/
@[simp] theorem bytes_withRcode_length (d : Draft) (rcode : Rcode) :
    (d.withRcode rcode).bytes.length = d.bytes.length := by
  rw [length_bytes, length_bytes]
  rfl

/-- And it takes no room. -/
@[simp] theorem room_withRcode (d : Draft) (rcode : Rcode) (limit : Nat) :
    (d.withRcode rcode).room limit = d.room limit := by
  unfold room
  rw [bytes_withRcode_length]
  rfl

/-! ## The message of a draft -/

/-- A draft whose message a reader can read: the answers come first, and all parts are well
    formed. -/
structure Sound (d : Draft) : Prop where
  ordered : d.Ordered
  question : ∀ q ∈ d.question, q.WellFormed
  records : ∀ r ∈ d.records, r.2.WellFormed
  length : d.records.length < 65536

private theorem opt_wellFormed : opt.WellFormed := ⟨.root, by decide⟩

/-- The message of a sound draft is well formed. -/
theorem Sound.wellFormed {d : Draft} (h : d.Sound) : d.message.WellFormed := by
  -- every record of a section is one of the draft
  have hsection : ∀ s, ∀ r ∈ d.inSection s, r.WellFormed := fun s r hr => by
    simp only [inSection, List.mem_map, List.mem_filter] at hr
    obtain ⟨r', hr', rfl⟩ := hr
    exact h.records r' hr'.1
  -- a section has no more records than the draft
  have hcount : ∀ s, (d.inSection s).length < 65536 := fun s => by
    rw [length_inSection, count]
    exact Nat.lt_of_le_of_lt (List.length_filter_le _ _) h.length
  -- the four sections, and a counter of the header for each
  refine ⟨fun q hq => h.question q (Option.mem_toList.mp hq), hsection _, hsection _, ?_, ?_,
    hcount _, hcount _, ?_⟩
  · intro r hr
    simp only [message, additional] at hr
    split at hr
    · rw [List.mem_singleton.mp hr]
      exact opt_wellFormed
    · cases hr
  · simp only [message]
    cases d.question <;> simp
  · simp only [message, additional]
    split <;> decide

/-- A sound draft closes to bytes that read back as its message. -/
theorem Sound.read_closed {d : Draft} (h : d.Sound) :
    Dns.Message.read d.closed = some d.message := by
  rw [d.closed_eq h.ordered, Dns.Message.read_bytes h.wellFormed]

theorem Sound.withRcode {d : Draft} (h : d.Sound) (rcode : Rcode) : (d.withRcode rcode).Sound :=
  ⟨h.ordered, h.question, h.records, h.length⟩

/-- Where all records are of one section, they are those of it. -/
theorem inSection_map {d : Draft} {s : Section} {rrs : List Dns.Record}
    (h : d.records = rrs.map (s, ·)) (s' : Section) :
    d.inSection s' = if s = s' then rrs else [] := by
  rw [inSection, h]
  split
  · rename_i heq
    rw [List.filter_eq_self.mpr (by simpa using fun _ _ => heq), List.map_map]
    exact List.map_id _
  · rename_i hne
    rw [List.filter_eq_nil_iff.mpr (by simpa using fun _ _ => hne), List.map_nil]

/-- Records of one section alone are in order. -/
private theorem ordered_of_section {d : Draft} {s : Section} {rrs : List Dns.Record}
    (h : d.records = rrs.map (s, ·)) : d.Ordered := by
  rw [Ordered, inSection_map h, inSection_map h, h]
  cases s with
  | answer => rw [if_pos rfl, if_neg (by decide), List.map_nil, List.append_nil]
  | authority => rw [if_neg (by decide), if_pos rfl, List.map_nil, List.nil_append]

/-- A draft is sound with its first record. -/
theorem Sound.add {d : Draft} (h : d.Sound) (hempty : d.records = []) (s : Section)
    {rr : Dns.Record} (hrr : rr.WellFormed) : (d.add s rr).Sound := by
  have hrecords : (d.add s rr).records = [rr].map (s, ·) := by simp [Draft.add, hempty]
  refine ⟨ordered_of_section hrecords, h.question, ?_, ?_⟩
  · rw [hrecords]
    simpa using hrr
  · rw [hrecords, List.length_map, List.length_singleton]
    decide

/-- A draft is sound with any answers that a counter can count. -/
theorem Sound.addAnswers {d : Draft} (h : d.Sound) (hempty : d.records = [])
    {rrs : List Dns.Record} (hrrs : ∀ rr ∈ rrs, rr.WellFormed) (hlen : rrs.length < 65536) :
    (d.addAnswers rrs).Sound := by
  have hrecords : (d.addAnswers rrs).records = rrs.map (Section.answer, ·) := by
    simp [Draft.addAnswers, hempty]
  refine ⟨ordered_of_section hrecords, h.question, ?_, ?_⟩
  · rw [hrecords]
    simpa using hrrs
  · rwa [hrecords, List.length_map]

/-- A record under the name of the question is under a pointer. -/
private theorem answerRecord_wellFormed (type : UInt16) (ttl : UInt32) {rdata : List UInt8}
    (h : rdata.length < 65536) : (Reply.answerRecord type ttl rdata).WellFormed :=
  ⟨.pointer 0xC0 0x0C (by decide), h⟩

private theorem aRecord_wellFormed (ip : Ipv4Addr) (ttl : UInt32) : (aRecord ip ttl).WellFormed :=
  answerRecord_wellFormed rtype.A ttl (show 4 < 65536 by decide)

/-- A CNAME record is well formed, for its target is a name. -/
private theorem cnameRecord_wellFormed (n : Dns.Name) (ttl : UInt32) :
    (cnameRecord n ttl).WellFormed := by
  have := n.length_wire_le
  exact answerRecord_wellFormed rtype.CNAME ttl (by omega)

/-- An SOA record is well formed, for its zone is a name that leaves room for the others. -/
private theorem soaRecord_wellFormed (n : Dns.Name) (ttl : UInt32) : (soaRecord n ttl).WellFormed :=
    by
  have := n.length_wire_le
  refine ⟨n.nameBytes, ?_⟩
  show (Reply.soaData n ttl).length < _
  rw [Reply.length_soaData]
  omega

/-! ## What is drawn up -/

/-- What is drawn up is a code, or one record that is no address, on the start of the reply or
    on an NXDOMAIN; or it is the addresses that fit. -/
theorem render_cases (d : Draft) (limit : Nat) (v : Verdict) :
    (∃ d₀, (d₀ = d ∨ d₀ = d.withRcode .nxDomain) ∧
      ((∃ rcode, d.render limit v = d₀.withRcode rcode) ∨
        ∃ s rr, rr.WellFormed ∧ rr.rtype ≠ rtype.A ∧ d.render limit v = d₀.add s rr)) ∨
    ∃ known ips zone, v = .zone known ips zone ∧
      d.render limit v = d.addAnswers ((d.fitting limit ips).map fun ip => aRecord ip TTL) := by
  -- a negative reply ends in one of two ways, so it is said once
  have hsoa : ∀ (d₀ : Draft) (zone : Str), (∃ rcode, d₀.renderSoa limit zone = d₀.withRcode rcode) ∨
      ∃ s rr, rr.WellFormed ∧ rr.rtype ≠ rtype.A ∧ d₀.renderSoa limit zone = d₀.add s rr := by
    intro d₀ zone
    -- the name has to have a wire form, and its record has to fit
    unfold renderSoa
    split
    · split
      · exact .inr ⟨.authority, _, soaRecord_wellFormed _ TTL,
          (show rtype.SOA ≠ rtype.A by decide), rfl⟩
      · exact .inl ⟨.servFail, rfl⟩
    · exact .inl ⟨.servFail, rfl⟩
  cases v with
  | refused => exact .inl ⟨d, .inl rfl, .inl ⟨.refused, rfl⟩⟩
  | aliased target =>
    refine .inl ⟨d, .inl rfl, ?_⟩
    simp only [render]
    -- a target without a wire form, or one that does not fit, is a server failure
    split
    · split
      · exact .inr ⟨.answer, _, cnameRecord_wellFormed _ TTL,
          (show rtype.CNAME ≠ rtype.A by decide), rfl⟩
      · exact .inl ⟨.servFail, rfl⟩
    · exact .inl ⟨.servFail, rfl⟩
  | zone known ips zone =>
    simp only [render]
    -- with an address that fits, the addresses are the answer
    split
    · -- no address fits, so it is the SOA record of the zone
      cases known with
      | true => exact .inl ⟨d, .inl rfl, hsoa d zone⟩
      | false => exact .inl ⟨d.withRcode .nxDomain, .inr rfl, hsoa _ zone⟩
    · exact .inr ⟨known, ips, zone, rfl, rfl⟩

/-- Drawing up a verdict keeps the id, the question and EDNS. -/
theorem render_frame (d : Draft) (limit : Nat) (v : Verdict) :
    (d.render limit v).id = d.id ∧ (d.render limit v).question = d.question ∧
      (d.render limit v).edns = d.edns := by
  obtain ⟨d₀, hd₀, ⟨rcode, heq⟩ | ⟨s, rr, -, -, heq⟩⟩ | ⟨known, ips, zone, -, heq⟩ :=
    d.render_cases limit v
  · rw [heq]
    obtain rfl | rfl := hd₀ <;> exact ⟨rfl, rfl, rfl⟩
  · rw [heq]
    obtain rfl | rfl := hd₀ <;> exact ⟨rfl, rfl, rfl⟩
  · rw [heq]
    exact ⟨rfl, rfl, rfl⟩

/-- What is drawn up from a verdict is sound. -/
theorem Sound.render {d : Draft} (h : d.Sound) (hempty : d.records = []) {limit : Nat}
    (hlimit : limit < 65536) (v : Verdict) : (d.render limit v).Sound := by
  obtain ⟨d₀, hd₀, hcases⟩ | ⟨known, ips, zone, -, heq⟩ := d.render_cases limit v
  · have h₀ : d₀.Sound ∧ d₀.records = [] := by
      obtain rfl | rfl := hd₀
      · exact ⟨h, hempty⟩
      · exact ⟨h.withRcode .nxDomain, hempty⟩
    obtain ⟨rcode, heq⟩ | ⟨s, rr, hrr, -, heq⟩ := hcases
    · rw [heq]
      exact h₀.1.withRcode rcode
    · rw [heq]
      exact h₀.1.add h₀.2 s hrr
  · rw [heq]
    apply h.addAnswers hempty
    · intro rr hrr
      obtain ⟨ip, -, rfl⟩ := List.mem_map.mp hrr
      exact aRecord_wellFormed ip TTL
    · -- each address takes 16 bytes of the limit
      rw [List.length_map, fitting, List.length_take]
      unfold room
      omega

/-- A draft with its question is sound. -/
theorem startDraft_sound (q : Query) (n : Dns.Name) : (Reply.startDraft q n).Sound := by
  refine ⟨rfl, ?_, (fun _ hr => nomatch hr), Nat.zero_lt_succ _⟩
  intro q' hq'
  obtain rfl := Option.some.inj hq'
  exact n.nameBytes

theorem bareDraft_sound (id flags : UInt16) (rcode : Rcode) :
    (Reply.bareDraft id flags rcode).Sound :=
  ⟨rfl, (fun _ hq => nomatch hq), (fun _ hr => nomatch hr), Nat.zero_lt_succ _⟩

end Draft

end HopDns

import HopDns.Spec.HandleCorrect
import HopDns.Spec.ZoneCorrect

/-!
# The decision table

What a reply holds, case by case: the response code, the answers and the authority,
by the class, the CNAME tables, the cache and the zones.

## Key results

- `Server.handle_decides`: every reply follows the decision table
-/

namespace HopDns

open Reply (aRecord cnameRecord soaRecord encodeZone)

/-- The room for records in a reply of at most `limit` bytes to the question `q`. -/
def spare (q : Query) (limit : Nat) : Nat :=
  limit - (HEADER_LEN + q.question.length + Reply.reserve q.edns)

/-- A reply without records. -/
def Bare (m : Dns.Message) (rcode : Rcode) : Prop :=
  m.rcode = rcode.toUInt16 ∧ m.answers = [] ∧ m.authority = []

/-- The reply to a name with a static CNAME: the CNAME record alone, or a SERVFAIL when the
    target is no name or the record does not fit. -/
def Aliased (m : Dns.Message) (room : Nat) (target : Str) : Prop :=
  (∃ n, encodeName target = some n ∧ 12 + n.wire.length ≤ room ∧
    m.rcode = Rcode.noError.toUInt16 ∧ m.answers = [cnameRecord n TTL] ∧ m.authority = []) ∨
  ((∀ n, encodeName target = some n → room < 12 + n.wire.length) ∧ Bare m .servFail)

/-- The reply to a name without records of the type: the SOA record of the zone and the code,
    or a SERVFAIL when the zone is no name or the record does not fit. -/
def Negative (m : Dns.Message) (room : Nat) (rcode : Rcode) (zone : Str) : Prop :=
  (∃ n, encodeZone zone = some n ∧ 3 * n.wire.length + 44 ≤ room ∧
    m.rcode = rcode.toUInt16 ∧ m.answers = [] ∧ m.authority = [soaRecord n TTL]) ∨
  ((∀ n, encodeZone zone = some n → room < 3 * n.wire.length + 44) ∧ Bare m .servFail)

/-- The reply to a name with addresses: at least one of them, and nothing else. -/
def Addressed (m : Dns.Message) (ips : List Ipv4Addr) : Prop :=
  m.rcode = Rcode.noError.toUInt16 ∧ m.answers ≠ [] ∧
    (∀ rr ∈ m.answers, ∃ ip ∈ ips, rr = aRecord ip TTL) ∧ m.authority = []

/-- The code for a name that exists, and for one that does not. -/
def existsCode (known : Bool) : Rcode := if known then .noError else .nxDomain

/-! ## The messages that are drawn up -/

section

variable {d : Draft} (hempty : d.records = [])
include hempty

theorem message_withRcode (rcode : Rcode) : Bare (d.withRcode rcode).message rcode := by
  refine ⟨rcode_replace _ _, ?_, ?_⟩ <;>
    simp [Draft.message, Draft.inSection, Draft.withRcode, hempty]

/-- A draft with one record has it in its section. -/
theorem message_add (s : Section) (rr : Dns.Record) :
    (d.add s rr).message.rcode = d.flags &&& 0x000F ∧
      (d.add s rr).message.answers = (if s = .answer then [rr] else []) ∧
        (d.add s rr).message.authority = (if s = .authority then [rr] else []) := by
  have hrecords : (d.add s rr).records = [rr].map (s, ·) := by simp [Draft.add, hempty]
  exact ⟨rfl, Draft.inSection_map hrecords _, Draft.inSection_map hrecords _⟩

/-- A draft with answers has no authority. -/
theorem message_addAnswers (rrs : List Dns.Record) :
    (d.addAnswers rrs).message.rcode = d.flags &&& 0x000F ∧
      (d.addAnswers rrs).message.answers = rrs ∧ (d.addAnswers rrs).message.authority = [] := by
  have hrecords : (d.addAnswers rrs).records = rrs.map (Section.answer, ·) := by
    simp [Draft.addAnswers, hempty]
  exact ⟨rfl, Draft.inSection_map hrecords _, Draft.inSection_map hrecords _⟩

/-- What is drawn up for a zone is its SOA record, or a SERVFAIL. -/
private theorem message_renderSoa {rcode : Rcode} (hcode : d.flags &&& 0x000F = rcode.toUInt16)
    (limit : Nat) (zone : Str) :
    Negative (d.renderSoa limit zone).message (d.room limit) rcode zone := by
  unfold Draft.renderSoa
  -- the zone cannot be written, it goes in, or it does not fit
  cases hn : encodeZone zone with
  | none =>
    exact .inr ⟨(fun n hn' => by cases hn.symm.trans hn'), message_withRcode hempty .servFail⟩
  | some n =>
    simp only
    split
    · rename_i hroom
      obtain ⟨hrcode, hanswers, hauthority⟩ := message_add hempty .authority (soaRecord n TTL)
      exact .inl ⟨n, hn, hroom, hrcode.trans hcode, hanswers, hauthority⟩
    · rename_i hroom
      refine .inr ⟨fun n' hn' => ?_, message_withRcode hempty .servFail⟩
      obtain rfl := Option.some.inj (hn.symm.trans hn')
      omega

/-- What is drawn up for a CNAME is its record, or a SERVFAIL. -/
theorem message_alias (hcode : d.flags &&& 0x000F = Rcode.noError.toUInt16) (limit : Nat)
    (target : Str) : Aliased (d.render limit (.aliased target)).message (d.room limit) target := by
  simp only [Draft.render]
  -- the same three outcomes for the target
  cases hn : encodeName target with
  | none =>
    exact .inr ⟨(fun n hn' => by cases hn.symm.trans hn'), message_withRcode hempty .servFail⟩
  | some n =>
    simp only
    split
    · rename_i hroom
      obtain ⟨hrcode, hanswers, hauthority⟩ := message_add hempty .answer (cnameRecord n TTL)
      exact .inl ⟨n, hn, hroom, hrcode.trans hcode, hanswers, hauthority⟩
    · rename_i hroom
      refine .inr ⟨fun n' hn' => ?_, message_withRcode hempty .servFail⟩
      obtain rfl := Option.some.inj (hn.symm.trans hn')
      omega

/-- What is drawn up for addresses, when one of them fits, is as many as fit. -/
private theorem message_addresses (hcode : d.flags &&& 0x000F = Rcode.noError.toUInt16)
    {limit : Nat} (hroom : 16 ≤ d.room limit) (known : Bool) {ips : List Ipv4Addr} (hips : ips ≠ [])
    (zone : Str) : Addressed (d.render limit (.zone known ips zone)).message ips := by
  -- there is room for one address at least
  have hfit : d.fitting limit ips ≠ [] := by
    rw [Draft.fitting, Ne, List.take_eq_nil_iff]
    intro h'
    obtain h | h := h'
    · omega
    · exact hips h
  simp only [Draft.render, if_neg hfit]
  obtain ⟨hrcode, hanswers, hauthority⟩ :=
    message_addAnswers hempty ((d.fitting limit ips).map fun ip => aRecord ip TTL)
  -- the answers are what fits of the addresses, and each is one of them
  refine ⟨hrcode.trans hcode, ?_, fun rr hrr => ?_, hauthority⟩
  · rw [hanswers]
    simpa using hfit
  · rw [hanswers] at hrr
    obtain ⟨ip, hip, rfl⟩ := List.mem_map.mp hrr
    exact ⟨ip, List.mem_of_mem_take hip, rfl⟩

/-- What is drawn up for a name without addresses is the SOA record of the zone. -/
theorem message_empty (hcode : d.flags &&& 0x000F = Rcode.noError.toUInt16) (limit : Nat)
    (known : Bool) (zone : Str) :
    Negative (d.render limit (.zone known [] zone)).message (d.room limit) (existsCode known)
      zone := by
  simp only [Draft.render, Draft.fitting, List.take_nil, if_true]
  cases known with
  | true => exact message_renderSoa hempty hcode limit zone
  | false =>
    have := message_renderSoa (d := d.withRcode .nxDomain) hempty (rcode_replace _ .nxDomain) limit
      zone
    rwa [Draft.room_withRcode] at this

end

namespace Server

/-! ## What a name of the domain stands for -/

/-- A name of the domain stands for what its lookup says, and for nothing else. -/
theorem names_iff {s : Server} {cache : Cache} {name : Str} {known : Bool}
    {ips : List Ipv4Addr} :
    Names s cache name known ips ↔
      LiesIn name s.domain ∧ known = (s.lookup cache name).known cache ∧
        ips = (s.lookup cache name).addresses cache := by
  constructor
  · intro h
    -- the apex, a service of a cluster, and a label alone
    obtain _ | @⟨service, cluster, hdot⟩ | @⟨job, hdot⟩ := h
    · rw [lookup_domain]
      exact ⟨.inl rfl, rfl, rfl⟩
    · rw [show service ++ dot :: (cluster ++ dot :: s.domain) =
        (service ++ dot :: cluster) ++ dot :: s.domain by simp, lookup_append,
        List.splitOnce_append cluster hdot]
      exact ⟨.inr ⟨_, rfl⟩, rfl, rfl⟩
    · rw [lookup_append, List.splitOnce_eq_none hdot]
      exact ⟨.inr ⟨_, rfl⟩, rfl, rfl⟩
  -- for the other direction what stands before the domain is cut at its first dot
  · intro h
    obtain ⟨rfl | ⟨pre, rfl⟩, rfl, rfl⟩ := h
    · rw [lookup_domain]
      exact .apex
    · rw [lookup_append]
      cases hcut : pre.splitOnce dot with
      | none => exact .label (List.not_mem_of_splitOnce hcut)
      | some cut =>
        obtain ⟨service, cluster⟩ := cut
        obtain ⟨rfl, hdot⟩ := List.splitOnce_eq_some hcut
        rw [List.append_assoc, List.cons_append]
        exact .service hdot

/-! ## The decision table -/

/-- The decision table: what the reply `m` to the question `q` holds, case by case. `room` is
    the room for records in what the asker takes. -/
structure Decides (s : Server) (cache : Cache) (q : Query) (room : Nat) (m : Dns.Message) :
    Prop where
  /-- no host name, or another class -/
  refused : nameText q.qname = none ∨ (q.qclass ≠ CLASS_IN ∧ q.qclass ≠ CLASS_ANY) →
    Bare m .refused
  /-- a static CNAME, for every type and whatever the cache holds -/
  aliased : ∀ t target, nameText q.qname = some t → asksInternet q.qclass →
    s.cnames.lookup t = some target → Aliased m room target
  /-- a name of the domain with addresses, asked for them -/
  addressed : ∀ t known ips, nameText q.qname = some t → asksInternet q.qclass →
    s.cnames.lookup t = none → Names s cache t known ips → asksAddress q.qtype → ips ≠ [] →
      Addressed m ips
  /-- any other question in the domain -/
  negative : ∀ t known ips, nameText q.qname = some t → asksInternet q.qclass →
    s.cnames.lookup t = none → Names s cache t known ips → ¬(asksAddress q.qtype ∧ ips ≠ []) →
      Negative m room (existsCode known) s.domain
  /-- a zone that holds static CNAMEs only -/
  zone : ∀ t z, nameText q.qname = some t → asksInternet q.qclass →
    s.cnames.lookup t = none → ¬LiesIn t s.domain → s.cnames.zoneOf t = some z →
      Negative m room .nxDomain z
  /-- everything else -/
  elsewhere : ∀ t, nameText q.qname = some t → asksInternet q.qclass →
    s.cnames.lookup t = none → ¬LiesIn t s.domain → s.cnames.zoneOf t = none → Bare m .refused

/-- A name that is shown, of a class of the Internet, is decided by its text. -/
theorem verdict_eq (s : Server) (cache : Cache) {q : Query} {t : Str}
    (ht : nameText q.qname = some t) (hclass : asksInternet q.qclass = true) :
    s.verdict cache q = s.verdictOn cache t q.qtype := by
  unfold verdict
  simp only [ht, hclass, if_true]

/-- The verdict on a name of the domain, by what the name stands for. -/
theorem verdictOn_names {s : Server} {cache : Cache} {t : Str} {known : Bool}
    {ips : List Ipv4Addr} (hl : s.cnames.lookup t = none) (hn : Names s cache t known ips)
    (qtype : UInt16) :
    s.verdictOn cache t qtype = .zone known (if asksAddress qtype then ips else []) s.domain := by
  obtain ⟨hin, rfl, rfl⟩ := names_iff.mp hn
  unfold verdictOn
  simp only [hl, inZone_iff.mpr hin, if_true]

/-- The message a verdict is drawn up as follows the decision table. -/
theorem replyTo_decides (s : Server) (cache : Cache) (q : Query) (n : Dns.Name) {limit : Nat}
    (hroom : 16 ≤ (Reply.startDraft q n).room limit) :
    Decides s cache q ((Reply.startDraft q n).room limit) (s.replyTo cache q n limit) := by
  have hcode : (Reply.startDraft q n).flags &&& 0x000F = Rcode.noError.toUInt16 :=
    Reply.rcode_replyFlags _ _
  unfold replyTo replyDraft
  refine ⟨fun h => ?_, fun t target ht hclass hl => ?_,
    fun t known ips ht hclass hl hn hq hips => ?_,
    fun t known ips ht hclass hl hn hq => ?_, fun t z ht hclass hl hout hz => ?_,
    fun t ht hclass hl hout hz => ?_⟩
  -- no text, or another class
  · have : s.verdict cache q = .refused := by
      unfold verdict
      obtain h | h := h
      · rw [h]
      · have hclass : asksInternet q.qclass = false := by simp [asksInternet, h]
        cases nameText q.qname <;> simp [hclass]
    rw [this]
    exact message_withRcode rfl .refused
  · rw [s.verdict_eq cache ht hclass, verdictOn, hl]
    exact message_alias rfl hcode limit target
  · rw [s.verdict_eq cache ht hclass, verdictOn_names hl hn, if_pos hq]
    exact message_addresses rfl hcode hroom known hips s.domain
  · rw [s.verdict_eq cache ht hclass, verdictOn_names hl hn]
    -- nothing was asked for, or there was nothing to find
    have hnil : (if asksAddress q.qtype then ips else []) = [] := by
      split
      · rename_i hask
        exact Decidable.not_not.mp fun hips => hq ⟨hask, hips⟩
      · rfl
    rw [hnil]
    exact message_empty rfl hcode limit known s.domain
  -- in the zone of a CNAME
  · have hin : ¬inZone t s.domain = true := fun h => hout (inZone_iff.mp h)
    rw [s.verdict_eq cache ht hclass, verdictOn, hl]
    simp only [if_neg hin, hz]
    exact message_empty rfl hcode limit false z
  · have hin : ¬inZone t s.domain = true := fun h => hout (inZone_iff.mp h)
    rw [s.verdict_eq cache ht hclass, verdictOn, hl]
    simp only [if_neg hin, hz]
    exact message_withRcode rfl .refused

/-- The room of a draft is what the question leaves of the limit. -/
theorem room_startDraft {q : Query} {n : Dns.Name} (hn : q.Asks n) (limit : Nat) :
    (Reply.startDraft q n).room limit = spare q limit := by
  rw [Draft.room, Reply.length_startDraft, spare, hn.length_question]
  rfl

/-- Every reply follows the decision table: for every server and cache, every accepted
    question, and a buffer as large as the daemon's. -/
theorem handle_decides (s : Server) (cache : Cache) (msg out : List UInt8) (q : Query)
    (h : parseQuery msg = .ok q) (hout : EDNS_MAX ≤ out.length) :
    ∃ len m, (s.handle cache msg out).1 = some len ∧
      Dns.Message.read ((s.handle cache msg out).2.take len) = some m ∧
        Decides s cache q (spare q (limitFor q.edns)) m := by
  obtain ⟨n, hn⟩ := Query.exists_asks h
  have hfits := fits_of_le hn (Nat.le_trans (by decide) hout)
  obtain ⟨buf, hrun, -, -, -⟩ := handle_ok s cache h hn hfits
  have hlen := congrArg Prod.fst hrun
  obtain ⟨-, -, hread⟩ := s.read_handle cache h hn hlen
  have hlimit : replyLimit q out = limitFor q.edns :=
    Nat.min_eq_left (Nat.le_trans (limitFor_le q.edns) hout)
  -- a question leaves room for one address even in the smallest reply
  have hroom : 16 ≤ (Reply.startDraft q n).room (limitFor q.edns) := by
    have hwire := n.length_wire_le
    have hmin := le_limitFor q.edns
    have hreserve : Reply.reserve q.edns ≤ 11 := by
      unfold Reply.reserve OPT_LEN
      split <;> omega
    rw [room_startDraft hn, spare, hn.length_question]
    unfold UDP_MAX at hmin
    unfold HEADER_LEN
    omega
  -- what the reply says is what was decided
  have hdecides := replyTo_decides s cache q n hroom
  rw [room_startDraft hn] at hdecides
  refine ⟨_, _, hlen, hread, ?_⟩
  rw [hlimit]
  exact hdecides

/-- A server of the default domain with one static CNAME. -/
def withAlias (name target : Str) : Server where
  domain := DEFAULT_DOMAIN
  cnames := ((CNAMEs.new [(name, target)]).run []).1.toOption.getD CNAMEs.default

/-- `alias.hop.local` -/
def aliasName : Dns.Name := ⟨[str "alias", str "hop", str "local"], by decide, by decide⟩

/-- A name with a CNAME, asked for its address. -/
theorem handle_decides_alias :
    ∃ len m,
      ((withAlias (str "alias.hop.local") (str "target.example")).handle Cache.new
        (queryFor aliasName rtype.A) (List.replicate 1232 0)).1 = some len ∧
      Dns.Message.read (((withAlias (str "alias.hop.local") (str "target.example")).handle Cache.new
        (queryFor aliasName rtype.A) (List.replicate 1232 0)).2.take len) = some m ∧
      Decides (withAlias (str "alias.hop.local") (str "target.example")) Cache.new
        (queryOf aliasName rtype.A) (spare (queryOf aliasName rtype.A) 1232) m :=
  handle_decides _ Cache.new (queryFor aliasName rtype.A) (List.replicate 1232 0)
    (queryOf aliasName rtype.A) (parseQuery_queryFor aliasName rtype.A)
    (Nat.le_of_eq List.length_replicate.symm)

/-- A static CNAME whose target has an empty label is answered with SERVFAIL, not with
    NOERROR and the CNAME. -/
theorem alias_servFail :
    (withAlias (str "alias.hop.local") (str "a..b")).cnames.lookup (str "alias.hop.local") =
        some (str "a..b.") ∧
      nameText (queryOf aliasName rtype.A).qname = some (str "alias.hop.local") ∧
      parseQuery (queryFor aliasName rtype.A) = .ok (queryOf aliasName rtype.A) ∧
      ((withAlias (str "alias.hop.local") (str "a..b")).handle Cache.new
        (queryFor aliasName rtype.A) (List.replicate 1232 0)).1 = some 44 ∧
      (Dns.Message.read (((withAlias (str "alias.hop.local") (str "a..b")).handle Cache.new
        (queryFor aliasName rtype.A) (List.replicate 1232 0)).2.take 44)).map
          (fun m => (m.rcode, m.answers, m.authority)) =
            some (Rcode.servFail.toUInt16, [], []) := by
  refine ⟨?_, ?_, parseQuery_queryFor aliasName rtype.A, ?_, ?_⟩ <;> decide +kernel

end Server

end HopDns

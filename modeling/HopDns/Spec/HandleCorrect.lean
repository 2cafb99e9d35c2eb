import HopDns.Spec.Verdict

/-!
# The handler answers with its verdict

## Key results

- `Server.handle_ok`: the reply to a question is the message its verdict is drawn up as
- `Server.handle_bare`: the reply to a datagram that is no question
-/

namespace HopDns

open ForStd
open Reply (aRecord cnameRecord soaRecord encodeZone)

namespace Server

variable {r : Reply} {limit size : Nat} {d : Draft}

/-! ## The loops over the addresses -/

/-- The loop over the addresses of one cluster writes as many as fit. -/
private theorem writeCluster_shows (h : r.Shows limit size d) (ips : List Ipv4Addr) :
    (writeCluster r ips).Shows limit size
      (d.addAnswers ((d.fitting limit ips).map fun ip => aRecord ip TTL)) := by
  -- the induction is on the addresses; once there is no room, no later one is written
  induction ips generalizing r d with
  | nil => simpa [writeCluster, Draft.fitting, Draft.addAnswers_nil] using h
  | cons ip rest ih =>
    -- an A record takes sixteen bytes
    by_cases hroom : 16 ≤ d.room limit
    · obtain ⟨r', hrun, hshow⟩ := Reply.answerA_ok h ip TTL hroom
      have hlen : (aRecord ip TTL).bytes.length = 16 := Reply.length_answerRecord _ _ _
      have htake : d.room limit / 16 = (d.room limit - 16) / 16 + 1 := by omega
      have := ih hshow
      rw [Draft.fitting, Draft.room_add, hlen] at this
      rw [writeCluster, hrun, Draft.fitting, htake, List.take_succ_cons, List.map_cons,
        Draft.addAnswers_cons]
      exact this
    · have hrun := Reply.answerA_full h ip TTL (by omega)
      have hzero : d.room limit / 16 = 0 := by omega
      rw [writeCluster, hrun, Draft.fitting, hzero, List.take_zero, List.map_nil,
        Draft.addAnswers_nil]
      exact h

/-- The loop over all clusters writes as many as fit of those it has not seen. The row of
    those it has seen never runs out before the reply does. -/
private theorem writeMergedFrom_shows (h : r.Shows limit size d) {seen : List Ipv4Addr}
    (hseen : seen.length + d.room limit / 16 ≤ MAX_ANSWERS) (ips : List Ipv4Addr) :
    (writeMergedFrom r seen ips).Shows limit size
      (d.addAnswers ((d.fitting limit (seen.newTo ips)).map fun ip => aRecord ip TTL)) := by
  -- the induction is on the addresses of all clusters; those written already are passed over
  induction ips generalizing r d seen with
  | nil => simpa [writeMergedFrom, Draft.fitting, Draft.addAnswers_nil] using h
  | cons ip rest ih =>
    rw [writeMergedFrom, List.newTo_cons]
    by_cases hin : seen.contains ip = true
    · rw [if_pos hin, if_pos hin]
      exact ih h hseen
    · rw [if_neg hin, if_neg hin]
      -- room for it means room in the row of the addresses written
      by_cases hroom : 16 ≤ d.room limit
      · obtain ⟨r', hrun, hshow⟩ := Reply.answerA_ok h ip TTL hroom
        have hlen : (aRecord ip TTL).bytes.length = 16 := Reply.length_answerRecord _ _ _
        have htake : d.room limit / 16 = (d.room limit - 16) / 16 + 1 := by omega
        have hroom' : (d.add .answer (aRecord ip TTL)).room limit = d.room limit - 16 := by
          rw [Draft.room_add, hlen]
        have hseen' : (seen ++ [ip]).length + (d.add .answer (aRecord ip TTL)).room limit / 16 ≤
            MAX_ANSWERS := by
          rw [hroom', List.length_append, List.length_singleton]
          omega
        have := ih hshow hseen'
        rw [Draft.fitting, hroom'] at this
        rw [if_neg (by omega), hrun, Draft.fitting, htake, List.take_succ_cons, List.map_cons,
          Draft.addAnswers_cons]
        exact this
      · have hrun := Reply.answerA_full h ip TTL (by omega)
        have hzero : d.room limit / 16 = 0 := by omega
        rw [hrun, Draft.fitting, hzero, List.take_zero, List.map_nil, Draft.addAnswers_nil,
          ite_self]
        exact h

/-! ## The decision -/

/-- What `handle` makes of the outcome of `answer`. -/
def orServFail (outcome : Except Error Unit × Reply) : Reply :=
  match outcome with
  | (.ok (), reply) => reply
  | (.error _, reply) => reply.setRcode .servFail

/-- The SOA of a zone is written as it is drafted, or the reply fails. -/
private theorem authoritySoa_shows (h : r.Shows limit size d) (zone : Str) :
    (orServFail ((Reply.authoritySoa zone TTL).run r)).Shows limit size
      (d.renderSoa limit zone) := by
  unfold Draft.renderSoa
  -- without a zone to name the reply turns to SERVFAIL
  cases hn : encodeZone zone with
  | none =>
    obtain ⟨e, hrun⟩ := Reply.authoritySoa_none h TTL (fun n hn' => by cases hn.symm.trans hn')
    rw [hrun]
    exact h.setRcode .servFail
  -- a zone that can be encoded fails for lack of room only
  | some n =>
    simp only
    split
    · rename_i hroom
      obtain ⟨r', hrun, hshow⟩ := Reply.authoritySoa_ok h TTL hn hroom
      rw [hrun]
      exact hshow
    · rename_i hroom
      obtain ⟨e, hrun⟩ := Reply.authoritySoa_none h TTL (fun n' hn' => by
        obtain rfl := Option.some.inj (hn.symm.trans hn')
        omega)
      rw [hrun]
      exact h.setRcode .servFail

/-- The CNAME is written as it is drafted, or the reply fails. -/
private theorem answerCname_shows (h : r.Shows limit size d) (target : Str) :
    (orServFail ((Reply.answerCname target TTL).run r)).Shows limit size
      (d.render limit (.aliased target)) := by
  simp only [Draft.render]
  -- a target that is no name, one that fits, and one that does not
  cases hn : encodeName target with
  | none =>
    obtain ⟨e, hrun⟩ := Reply.answerCname_none h TTL (fun n hn' => by cases hn.symm.trans hn')
    rw [hrun]
    exact h.setRcode .servFail
  | some n =>
    simp only
    split
    · rename_i hroom
      obtain ⟨r', hrun, hshow⟩ := Reply.answerCname_ok h TTL hn hroom
      rw [hrun]
      exact hshow
    · rename_i hroom
      obtain ⟨e, hrun⟩ := Reply.answerCname_none h TTL (fun n' hn' => by
        obtain rfl := Option.some.inj (hn.symm.trans hn')
        omega)
      rw [hrun]
      exact h.setRcode .servFail

/-- The addresses of a lookup are written as far as they fit. -/
private theorem lookup_write_shows (h : r.Shows limit size d)
    (hroom : d.room limit / 16 ≤ MAX_ANSWERS) (cache : Cache) (lookup : Lookup) :
    (lookup.write cache r).Shows limit size
      (d.addAnswers ((d.fitting limit (lookup.addresses cache)).map fun ip => aRecord ip TTL)) := by
  cases lookup with
  | apex => simpa [Lookup.write, Lookup.addresses, Draft.fitting, Draft.addAnswers_nil] using h
  | cluster ips => exact writeCluster_shows h _
  | merged job =>
    have := @writeMergedFrom_shows r limit size d h [] (by simpa using hroom)
      (cache.merged job).flatten
    rwa [List.newTo_eraseDups] at this

/-- A draft without records counts the answers that are added. -/
private theorem count_addAnswers (hempty : d.records = []) (rrs : List Dns.Record) :
    (d.addAnswers rrs).count .answer = rrs.length := by
  simp [Draft.count, Draft.addAnswers, hempty, List.filter_map, Function.comp_def]

/-- The end of `service`: a reply without answers gets the SOA record. -/
private theorem serviceEnd_shows (s : Server) {fit : List Ipv4Addr} (hempty : d.records = [])
    (h : r.Shows limit size (d.addAnswers (fit.map fun ip => aRecord ip TTL)))
    (hfit : fit.length ≤ MAX_ANSWERS) (known : Bool) :
    (orServFail ((s.serviceEnd known).run r)).Shows limit size
      (if fit = [] then (if known then d else d.withRcode .nxDomain).renderSoa limit s.domain
       else d.addAnswers (fit.map fun ip => aRecord ip TTL)) := by
  rw [serviceEnd, Method.run_bind_ok _ (Method.run_get r)]
  -- the counter of the reply is the number of addresses that fitted
  have hcount : r.answers = UInt16.ofNat fit.length := by
    rw [Reply.answers, h.an, count_addAnswers hempty, List.length_map]
  by_cases hnil : fit = []
  -- without an address the domain's SOA goes in, under one of two codes
  · subst hnil
    rw [List.map_nil, Draft.addAnswers_nil] at h
    rw [if_pos (show r.answers = 0 from hcount), if_pos rfl]
    cases known with
    | true => exact authoritySoa_shows h s.domain
    | false =>
      show (orServFail ((Method.modify _ >>= fun _ => _).run r)).Shows _ _ _
      rw [Method.run_bind_ok _ (Method.run_modify _ r)]
      exact authoritySoa_shows (h.setRcode .nxDomain) s.domain
  -- with an address the reply is as the writer left it
  · have hne : ¬r.answers = 0 := by
      rw [hcount]
      intro hzero
      have := congrArg UInt16.toNat hzero
      rw [UInt16.toNat_ofNat_of_lt' (Nat.lt_of_le_of_lt hfit (by decide))] at this
      exact hnil (List.length_eq_zero_iff.mp this)
    rw [if_neg hne, if_neg hnil]
    exact h

/-- What the service writes is what is drafted of what the cache knows of the name. -/
private theorem service_shows (s : Server) (h : r.Shows limit size d)
    (hroom : d.room limit / 16 ≤ MAX_ANSWERS) (hempty : d.records = []) (cache : Cache) (name : Str)
    (qtype : UInt16) :
    (orServFail ((s.service cache name qtype).run r)).Shows limit size
      (d.render limit (.zone ((s.lookup cache name).known cache)
        (if asksAddress qtype then (s.lookup cache name).addresses cache else []) s.domain)) := by
  -- no more fit than the array of addresses holds, so the counter does not wrap
  have hfit : ∀ ips, (d.fitting limit ips).length ≤ MAX_ANSWERS := fun ips => by
    rw [Draft.fitting, List.length_take]
    omega
  unfold service
  -- only a question for A or for all types writes addresses
  by_cases hasks : qtype = rtype.A ∨ qtype = rtype.ANY
  · have hwrite := lookup_write_shows h hroom cache (s.lookup cache name)
    have hasks' : asksAddress qtype = true := by simpa [asksAddress] using hasks
    have := serviceEnd_shows s hempty hwrite (hfit _) ((s.lookup cache name).known cache)
    rw [if_pos hasks, hasks', if_pos rfl]
    exact this
  -- another type writes no address
  · have hnone : r.Shows limit size
        (d.addAnswers ((d.fitting limit []).map fun ip => aRecord ip TTL)) := by
      simpa [Draft.fitting, Draft.addAnswers_nil] using h
    have hasks' : asksAddress qtype = false := by simpa [asksAddress] using hasks
    have := serviceEnd_shows s hempty hnone (hfit _) ((s.lookup cache name).known cache)
    rw [if_neg hasks, hasks', if_neg Bool.false_ne_true]
    exact this

/-- The reply to an accepted question is drawn up from the verdict. -/
private theorem answer_shows (s : Server) (h : r.Shows limit size d)
    (hroom : d.room limit / 16 ≤ MAX_ANSWERS) (hempty : d.records = []) (cache : Cache)
    (q : Query) :
    (orServFail ((s.answer cache q).run r)).Shows limit size
      (d.render limit (s.verdict cache q)) := by
  unfold answer verdict
  -- the tests of `answer` in their order: text, class, alias, zone
  cases nameText q.qname with
  | none => exact h.setRcode .refused
  | some name =>
    simp only
    by_cases hclass : q.qclass ≠ CLASS_IN ∧ q.qclass ≠ CLASS_ANY
    · rw [if_pos hclass, if_neg (by simp [asksInternet, hclass])]
      exact h.setRcode .refused
    -- the class is IN or ANY
    · have hasks : asksInternet q.qclass = true := by
        simp only [asksInternet, decide_eq_true_eq]
        by_cases hin : q.qclass = CLASS_IN
        · exact .inl hin
        · exact .inr (Decidable.not_not.mp fun hany => hclass ⟨hin, hany⟩)
      rw [if_neg hclass, if_pos hasks, verdictOn]
      cases s.cnames.lookup name with
      | some target => exact answerCname_shows h target
      | none =>
        simp only
        by_cases hzone : inZone name s.domain = true
        · rw [if_pos hzone, if_pos hzone]
          exact service_shows s h hroom hempty cache name q.qtype
        · rw [if_neg hzone, if_neg hzone]
          -- outside the domain the name may lie in the zone of an alias
          cases s.cnames.zoneOf name with
          | none => exact h.setRcode .refused
          | some zone =>
            show (orServFail ((Method.modify _ >>= fun _ => _).run r)).Shows _ _ _
            rw [Method.run_bind_ok _ (Method.run_modify _ r)]
            simp only [Draft.render, Draft.fitting, List.take_nil, if_true]
            exact authoritySoa_shows (h.setRcode .nxDomain) zone

/-! ## The reply -/

theorem limitFor_le (edns : Option UInt16) : limitFor edns ≤ EDNS_MAX := by
  unfold limitFor EDNS_MAX UDP_MAX
  split <;> omega

/-- Every limit leaves what UDP grants without EDNS. -/
theorem le_limitFor (edns : Option UInt16) : UDP_MAX ≤ limitFor edns := by
  unfold limitFor
  split
  · exact Nat.le_refl _
  · exact Nat.le_max_left _ _

/-- The largest reply to a question: what the asker takes, and what the buffer holds. -/
def replyLimit (q : Query) (out : List UInt8) : Nat := min (limitFor q.edns) out.length

/-- The reply to a question for `n`, drawn up from the verdict. -/
def replyDraft (s : Server) (cache : Cache) (q : Query) (n : Dns.Name) (limit : Nat) : Draft :=
  (Reply.startDraft q n).render limit (s.verdict cache q)

/-- The buffer holds the question, and the OPT record if there is to be one. -/
def Fits (q : Query) (out : List UInt8) : Prop :=
  HEADER_LEN + q.question.length + Reply.reserve q.edns ≤ replyLimit q out

instance (q : Query) (out : List UInt8) : Decidable (Fits q out) :=
  inferInstanceAs (Decidable (_ ≤ _))

/-- A buffer as large as a message without EDNS holds every question. -/
theorem fits_of_le {q : Query} {n : Dns.Name} {out : List UInt8} (hn : q.Asks n)
    (hout : UDP_MAX ≤ out.length) : Fits q out := by
  -- a question is at most 259 bytes long
  have hlen := hn.length_question
  have hwire := n.length_wire_le
  have hmin := le_limitFor q.edns
  have hreserve : Reply.reserve q.edns ≤ 11 := by
    unfold Reply.reserve OPT_LEN
    split <;> omega
  unfold Fits replyLimit
  unfold UDP_MAX at hout hmin
  unfold HEADER_LEN
  omega

/-- The reply to a question is the closed draft of its verdict, within the limit; what the
    buffer held before has no part in it. -/
theorem handle_ok (s : Server) (cache : Cache) {msg out : List UInt8} {q : Query} {n : Dns.Name}
    (h : parseQuery msg = .ok q) (hn : q.Asks n) (hfits : Fits q out) :
    ∃ buf, s.handle cache msg out =
        (some (s.replyDraft cache q n (replyLimit q out)).closed.length, buf) ∧
      buf.length = out.length ∧
      buf.take (s.replyDraft cache q n (replyLimit q out)).closed.length =
        (s.replyDraft cache q n (replyLimit q out)).closed ∧
      (s.replyDraft cache q n (replyLimit q out)).closed.length ≤ replyLimit q out := by
  -- start, answer, finish, as `handle` calls them
  obtain ⟨r, buf₀, hstart, hshow⟩ := Reply.start_ok hn.question (limitFor q.edns) hfits
  -- the array of addresses is large enough for the largest reply
  have hroom : (Reply.startDraft q n).room (replyLimit q out) / 16 ≤ MAX_ANSWERS := by
    have hlen := Reply.length_startDraft q n
    have hwire := Dns.length_wire_pos n.labels
    have hlimit := limitFor_le q.edns
    unfold EDNS_MAX at hlimit
    unfold Draft.room replyLimit Dns.Name.wire MAX_ANSWERS EDNS_MAX HEADER_LEN at *
    omega
  have hanswer := answer_shows s hshow hroom rfl cache q
  obtain ⟨buf, hfinish, hsize, htake⟩ := Reply.finish_eq hanswer
  refine ⟨buf, ?_, hsize, htake, ?_⟩
  · unfold handle
    simp only [h, hstart]
    show (some (orServFail ((s.answer cache q).run r)).finish.1,
      (orServFail ((s.answer cache q).run r)).finish.2) = _
    rw [hfinish]
    rfl
  -- the draft fits the limit that the reply was started with
  · rw [Draft.length_closed]
    exact hanswer.fits

/-- No reply goes back from a buffer that does not hold the question. -/
private theorem handle_none (s : Server) (cache : Cache) {msg out : List UInt8} {q : Query}
    (h : parseQuery msg = .ok q) (hfits : ¬Fits q out) :
    ∃ buf, s.handle cache msg out = (none, buf) := by
  obtain ⟨e, buf, hstart⟩ := Reply.start_none q (limitFor q.edns)
    (show min (limitFor q.edns) out.length < HEADER_LEN + q.question.length + Reply.reserve q.edns
      from Nat.lt_of_not_le hfits)
  refine ⟨buf, ?_⟩
  unfold handle
  simp only [h, hstart]

/-- The reply to a datagram that is no question is a bare one. -/
theorem handle_bare (s : Server) (cache : Cache) {msg out : List UInt8} {id flags : UInt16}
    {rcode : Rcode} (h : parseQuery msg = .error (.reply id flags rcode))
    (hout : HEADER_LEN ≤ out.length) :
    ∃ buf, s.handle cache msg out =
        (some (Reply.bareDraft id flags rcode).closed.length, buf) ∧
      buf.length = out.length ∧
      buf.take (Reply.bareDraft id flags rcode).closed.length =
        (Reply.bareDraft id flags rcode).closed := by
  -- a header alone needs no more than the twelve bytes
  obtain ⟨r, hbare, -, hshow⟩ := Reply.bare_ok id flags rcode UDP_MAX
    (show HEADER_LEN ≤ min UDP_MAX out.length by unfold HEADER_LEN UDP_MAX at *; omega)
  obtain ⟨buf, hfinish, hsize, htake⟩ := Reply.finish_eq hshow
  refine ⟨buf, ?_, hsize, htake⟩
  unfold handle
  simp only [h, hbare, hfinish]

/-- A buffer without room for a header takes no bare reply. -/
private theorem handle_bare_none (s : Server) (cache : Cache) {msg out : List UInt8}
    {id flags : UInt16} {rcode : Rcode} (h : parseQuery msg = .error (.reply id flags rcode))
    (hout : out.length < HEADER_LEN) : s.handle cache msg out = (none, out) := by
  have hbare := Reply.bare_none id flags rcode UDP_MAX
    (show min UDP_MAX out.length < HEADER_LEN by omega)
  unfold handle
  simp only [h, hbare]

/-- What is dropped gets no reply. -/
theorem handle_drop (s : Server) (cache : Cache) {msg : List UInt8} (out : List UInt8)
    (h : parseQuery msg = .error .drop) : s.handle cache msg out = (none, out) := by
  unfold handle
  simp only [h]

/-- The message a reply to a question for `n` is. -/
def replyTo (s : Server) (cache : Cache) (q : Query) (n : Dns.Name) (limit : Nat) : Dns.Message :=
  (s.replyDraft cache q n limit).message

/-- The draft of a reply is sound. -/
private theorem replyDraft_sound (s : Server) (cache : Cache) {q : Query} (n : Dns.Name)
    {out : List UInt8} : (s.replyDraft cache q n (replyLimit q out)).Sound := by
  have hlimit := limitFor_le q.edns
  unfold EDNS_MAX at hlimit
  exact (Draft.startDraft_sound q n).render rfl (by unfold replyLimit; omega) _

/-- The reply to a question reads as the message of its verdict. -/
theorem read_handle (s : Server) (cache : Cache) {msg out : List UInt8} {q : Query} {n : Dns.Name}
    {len : Nat} (h : parseQuery msg = .ok q) (hn : q.Asks n)
    (hlen : (s.handle cache msg out).1 = some len) :
    Fits q out ∧ len ≤ replyLimit q out ∧
      Dns.Message.read ((s.handle cache msg out).2.take len) =
        some (s.replyTo cache q n (replyLimit q out)) := by
  -- a reply was written, so there was room for the question
  by_cases hfits : Fits q out
  · obtain ⟨buf, hrun, -, htake, hle⟩ := handle_ok s cache h hn hfits
    rw [hrun] at hlen ⊢
    obtain rfl := Option.some.inj hlen
    exact ⟨hfits, hle, (congrArg Dns.Message.read htake).trans
      (s.replyDraft_sound cache n).read_closed⟩
  · obtain ⟨buf, hrun⟩ := handle_none s cache h hfits
    rw [hrun] at hlen
    exact nomatch hlen

/-- The reply that is drawn up to a datagram: from the verdict on its question, or a bare one. -/
inductive Drafted (s : Server) (cache : Cache) (msg out : List UInt8) : Draft → Prop where
  | answer {q : Query} {n : Dns.Name} (h : parseQuery msg = .ok q) (hn : q.Asks n)
      (hfits : Fits q out) : Drafted s cache msg out (s.replyDraft cache q n (replyLimit q out))
  | bare {id flags : UInt16} {rcode : Rcode} (h : parseQuery msg = .error (.reply id flags rcode))
      (hout : HEADER_LEN ≤ out.length) :
      Drafted s cache msg out (Reply.bareDraft id flags rcode)

section

variable {s : Server} {cache : Cache} {msg out : List UInt8} {d : Draft}

/-- Whatever is drafted is sound. -/
theorem Drafted.sound (h : Drafted s cache msg out d) : d.Sound := by
  cases h with
  | answer => exact s.replyDraft_sound cache _
  | bare => exact Draft.bareDraft_sound _ _ _

/-- The reply that is drawn up goes back. -/
theorem Drafted.handle_eq (h : Drafted s cache msg out d) :
    ∃ buf, s.handle cache msg out = (some d.closed.length, buf) ∧ buf.length = out.length ∧
      buf.take d.closed.length = d.closed := by
  cases h with
  | answer hq hn hfits =>
    obtain ⟨buf, hrun, hsize, htake, -⟩ := handle_ok s cache hq hn hfits
    exact ⟨buf, hrun, hsize, htake⟩
  | bare hq hout => exact handle_bare s cache hq hout

/-- Whatever goes back is the reply that is drawn up. -/
theorem exists_drafted {len : Nat} (hlen : (s.handle cache msg out).1 = some len) :
    ∃ d, Drafted s cache msg out d ∧ len = d.closed.length ∧
      (s.handle cache msg out).2.take len = d.closed ∧
        (s.handle cache msg out).2.length = out.length := by
  -- only the datagrams that are dropped and the buffers that are too small have no draft
  have hdrafted : ∃ d, Drafted s cache msg out d := by
    cases hq : parseQuery msg with
    | ok q =>
      obtain ⟨n, hn⟩ := Query.exists_asks hq
      by_cases hfits : Fits q out
      · exact ⟨_, .answer hq hn hfits⟩
      · obtain ⟨buf, hrun⟩ := handle_none s cache hq hfits
        rw [hrun] at hlen
        cases hlen
    | error bad =>
      cases bad with
      | drop =>
        rw [handle_drop s cache out hq] at hlen
        cases hlen
      | reply id flags rcode =>
        by_cases hout : HEADER_LEN ≤ out.length
        · exact ⟨_, .bare hq hout⟩
        · rw [handle_bare_none s cache hq (by omega)] at hlen
          cases hlen
  obtain ⟨d, hd⟩ := hdrafted
  -- the draft and the bytes belong together
  obtain ⟨buf, hrun, hsize, htake⟩ := hd.handle_eq
  rw [hrun] at hlen ⊢
  obtain rfl := Option.some.inj hlen
  exact ⟨d, hd, rfl, htake, hsize⟩

/-- The reply that is drawn up owes the buffer its length only. -/
theorem Drafted.of_length_eq {out' : List UInt8} (h : Drafted s cache msg out d)
    (hsize : out.length = out'.length) : Drafted s cache msg out' d := by
  cases h with
  | @answer q n hq hn hfits =>
    have hlimit : replyLimit q out = replyLimit q out' := by simp [replyLimit, hsize]
    rw [hlimit]
    apply Drafted.answer hq hn
    unfold Fits
    rw [← hlimit]
    exact hfits
  | bare hq hout => exact .bare hq (by omega)

/-- Where the same is drawn up, the same bytes go back. -/
theorem handle_of_drafted {cache' : Cache} {out' : List UInt8}
    (h : ∀ d, Drafted s cache msg out d ↔ Drafted s cache' msg out' d) :
    (s.handle cache msg out).1 = (s.handle cache' msg out').1 ∧
      ∀ len, (s.handle cache msg out).1 = some len →
        (s.handle cache msg out).2.take len = (s.handle cache' msg out').2.take len := by
  -- what is drafted on one side is drafted on the other
  cases hlen : (s.handle cache msg out).1 with
  | some len =>
    obtain ⟨d, hd, rfl, htake, -⟩ := exists_drafted hlen
    obtain ⟨buf, hrun, -, htake'⟩ := ((h d).mp hd).handle_eq
    rw [hrun]
    refine ⟨rfl, fun len hlen' => ?_⟩
    obtain rfl := Option.some.inj hlen'
    exact htake.trans htake'.symm
  | none =>
    refine ⟨?_, fun len hlen' => by cases hlen'⟩
    cases hlen' : (s.handle cache' msg out').1 with
    | none => rfl
    | some len =>
      -- a reply to the one would be a reply to the other
      obtain ⟨d, hd, -⟩ := exists_drafted hlen'
      obtain ⟨buf, hrun, -⟩ := ((h d).mpr hd).handle_eq
      rw [hrun] at hlen
      cases hlen

/-- What goes back reads as the message of the reply that is drawn up. -/
theorem exists_message {len : Nat} (hlen : (s.handle cache msg out).1 = some len) :
    ∃ d, Drafted s cache msg out d ∧
      Dns.Message.read ((s.handle cache msg out).2.take len) = some d.message := by
  obtain ⟨d, hd, -, htake, -⟩ := exists_drafted hlen
  refine ⟨d, hd, ?_⟩
  rw [htake]
  exact hd.sound.read_closed

end

end Server

end HopDns

import HopDns.Spec.Decision

/-!
# Asking for a name

Every name that a message may hold can be asked for, and the reply tells what the
server decided: an NXDOMAIN and a record each come from one kind of verdict. The
text of a name tells its labels apart, so a name below another one is told by its
text as well.

## Key results

- `Server.Answers.exists_replyTo`: a reply to a question for a name is drawn up from the verdict
- `Server.answers_queryFor`: a question with EDNS leaves room for every kind of record
- `Server.verdict_eq_aliased`, `Server.verdict_eq_zone`: the decision behind a verdict
- `Server.verdict_of_nxDomain`, `Server.verdict_of_answer`: the verdict behind a reply
-/

namespace HopDns

open Reply (aRecord cnameRecord soaRecord encodeZone)

/-! ## Names and their texts -/

/-- The name `m` lies below the name `n`: it has labels more in front, in any case. -/
def LiesBelow (m n : Dns.Name) : Prop :=
  ∃ above, above ≠ [] ∧ m.labels.map lowercase = above ++ n.labels.map lowercase

/-- A name with a text has visible labels. -/
theorem visible_of_nameText {n : Dns.Name} {t : Str} (h : nameText n.wire = some t) :
    VisibleLabels n.labels ∧ t = text n.labels := by
  rw [nameText_wire] at h
  split at h
  · rename_i hvisible
    exact ⟨hvisible, (Option.some.inj h).symm⟩
  · cases h

theorem nameText_of_visible {n : Dns.Name} (h : VisibleLabels n.labels) :
    nameText n.wire = some (text n.labels) := by
  rw [nameText_wire, if_pos h]

/-- A visible label holds no dot, in any case. -/
theorem VisibleLabel.dot_not_mem {l : Str} (h : VisibleLabel l) : dot ∉ lowercase l := by
  intro hdot
  exact (h dot ((dot_mem_lowercase l).mp hdot)).2 rfl

/-- No label that is shown has a dot in it. -/
theorem VisibleLabels.dot_not_mem {labels : List Str} (h : VisibleLabels labels) :
    ∀ part ∈ labels.map lowercase, dot ∉ part := by
  intro part hpart
  obtain ⟨l, hl, rfl⟩ := List.mem_map.mp hpart
  exact (h l hl).dot_not_mem

/-- A dot in the text of visible labels stands between two of them. -/
theorem exists_of_text_eq {labels : List Str} (hvisible : VisibleLabels labels)
    {before after : Str} (h : text labels = before ++ dot :: after) :
    ∃ ls ls', labels = ls ++ ls' ∧ ls ≠ [] ∧ ls' ≠ [] ∧ text ls = before ∧ text ls' = after := by
  obtain ⟨ps, qs, heq, hps, hqs, hbefore, hafter⟩ :=
    List.exists_of_intercalate_eq hvisible.dot_not_mem h
  obtain ⟨ls, ls', rfl, rfl, rfl⟩ := List.map_eq_append_iff.mp heq
  refine ⟨ls, ls', rfl, ?_, ?_, hbefore, hafter⟩
  · rintro rfl
    exact hps rfl
  · rintro rfl
    exact hqs rfl

/-- The text of a name below another one ends in a dot and the text of the other one. -/
theorem LiesBelow.text_eq {m n : Dns.Name} (h : LiesBelow m n) (hn : n.labels ≠ []) :
    ∃ above, text m.labels = above ++ dot :: text n.labels := by
  obtain ⟨above, habove, heq⟩ := h
  refine ⟨[dot].intercalate above, ?_⟩
  rw [text, heq, List.intercalate_append dot habove (by simpa)]
  rfl

/-! ## The replies to questions for a name -/

namespace Server

/-- Some datagram that asks for the name `n` is answered with the message `m`. -/
def Answers (s : Server) (cache : Cache) (n : Dns.Name) (m : Dns.Message) : Prop :=
  ∃ msg out q len, parseQuery msg = .ok q ∧ q.Asks n ∧ (s.handle cache msg out).1 = some len ∧
    Dns.Message.read ((s.handle cache msg out).2.take len) = some m

/-- A reply to a question for a name is drawn up from the verdict. -/
theorem Answers.exists_replyTo {s : Server} {cache : Cache} {n : Dns.Name} {m : Dns.Message}
    (h : s.Answers cache n m) : ∃ q limit, q.Asks n ∧ m = s.replyTo cache q n limit := by
  obtain ⟨msg, out, q, len, hq, hn, hlen, hm⟩ := h
  obtain ⟨-, -, hread⟩ := s.read_handle cache hq hn hlen
  exact ⟨q, replyLimit q out, hn, Option.some.inj (hm.symm.trans hread)⟩

/-- A plain question asks for 1232 bytes. -/
private theorem limitFor_queryOf (n : Dns.Name) (qtype : UInt16) :
    limitFor (queryOf n qtype).edns = 1232 := by
  show limitFor (some (UInt16.ofNat EDNS_MAX)) = 1232
  decide

/-- A question with EDNS leaves room for the largest SOA record and the largest CNAME record. -/
theorem room_queryOf (n : Dns.Name) (qtype : UInt16) :
    950 ≤ (Reply.startDraft (queryOf n qtype) n).room 1232 := by
  have hwire := n.length_wire_le
  have hreserve : Reply.reserve (queryOf n qtype).edns = 11 := rfl
  rw [room_startDraft (queryOf_asks n qtype), spare, (queryOf_asks n qtype).length_question,
    hreserve]
  unfold HEADER_LEN
  omega

/-- Every name is asked for by some datagram, and the verdict on it goes back. -/
theorem answers_queryFor (s : Server) (cache : Cache) (n : Dns.Name) (qtype : UInt16) :
    s.Answers cache n (s.replyTo cache (queryOf n qtype) n 1232) := by
  have hq := parseQuery_queryFor n qtype
  have hn := queryOf_asks n qtype
  -- what is in the buffer does not matter, so it is any one of the right length
  obtain ⟨out, hout⟩ : ∃ out : List UInt8, out.length = 1232 :=
    ⟨List.replicate 1232 0, List.length_replicate⟩
  have hlimit : replyLimit (queryOf n qtype) out = 1232 := by
    rw [replyLimit, limitFor_queryOf, hout, Nat.min_self]
  obtain ⟨len, hlen⟩ : ∃ len, (s.handle cache (queryFor n qtype) out).1 = some len := by
    have hroom : UDP_MAX ≤ out.length := by
      rw [hout]
      decide
    obtain ⟨buf, hrun, -⟩ := handle_ok s cache hq hn (fits_of_le hn hroom)
    rw [hrun]
    exact ⟨_, rfl⟩
  obtain ⟨-, -, hread⟩ := s.read_handle cache hq hn hlen
  rw [hlimit] at hread
  exact ⟨queryFor n qtype, out, queryOf n qtype, len, hq, hn, hlen, hread⟩

/-- That reply follows the decision table. -/
theorem decides_queryFor (s : Server) (cache : Cache) (n : Dns.Name) (qtype : UInt16) :
    Decides s cache (queryOf n qtype) ((Reply.startDraft (queryOf n qtype) n).room 1232)
      (s.replyTo cache (queryOf n qtype) n 1232) := by
  have hroom := room_queryOf n qtype
  exact replyTo_decides s cache (queryOf n qtype) n (by omega)

/-! ## The decision behind a verdict -/

/-- A CNAME is decided on from the table alone. -/
theorem verdict_eq_aliased {s : Server} {cache : Cache} {q : Query} {n : Dns.Name} (hn : q.Asks n)
    {target : Str} (h : s.verdict cache q = .aliased target) :
    ∃ t, nameText n.wire = some t ∧ s.cnames.lookup t = some target := by
  unfold verdict at h
  rw [hn.qname] at h
  cases ht : nameText n.wire with
  | none =>
    simp only [ht] at h
    cases h
  | some t =>
    -- of the four verdicts only an alias has a target
    simp only [ht] at h
    split at h
    · unfold verdictOn at h
      cases hl : s.cnames.lookup t with
      | some target' =>
        simp only [hl, Verdict.aliased.injEq] at h
        exact ⟨t, rfl, hl.trans (congrArg some h)⟩
      | none =>
        simp only [hl] at h
        split at h
        · cases h
        · split at h <;> cases h
    · cases h

/-- A zone is decided on for a name of the domain, or for any name in a zone of CNAMEs. -/
theorem verdict_eq_zone {s : Server} {cache : Cache} {q : Query} {n : Dns.Name} (hn : q.Asks n)
    {known : Bool} {ips : List Ipv4Addr} {zone : Str}
    (h : s.verdict cache q = .zone known ips zone) :
    ∃ t, nameText n.wire = some t ∧ s.cnames.lookup t = none ∧
      ((zone = s.domain ∧ ∃ all, Names s cache t known all ∧ (ips = all ∨ ips = [])) ∨
        (known = false ∧ ips = [] ∧ ¬LiesIn t s.domain ∧ s.cnames.zoneOf t = some zone)) := by
  unfold verdict at h
  rw [hn.qname] at h
  cases ht : nameText n.wire with
  | none =>
    simp only [ht] at h
    cases h
  | some t =>
    simp only [ht] at h
    split at h
    · unfold verdictOn at h
      cases hl : s.cnames.lookup t with
      | some target =>
        simp only [hl] at h
        cases h
      | none =>
        simp only [hl] at h
        refine ⟨t, rfl, hl, ?_⟩
        split at h
        -- in the domain itself
        · rename_i hin
          simp only [Verdict.zone.injEq] at h
          obtain ⟨rfl, rfl, rfl⟩ := h
          refine .inl ⟨rfl, _, names_iff.mpr ⟨inZone_iff.mp hin, rfl, rfl⟩, ?_⟩
          split
          · exact .inl rfl
          · exact .inr rfl
        -- outside of it: the zone of a CNAME, or refused
        · rename_i hout
          have hout : ¬LiesIn t s.domain := fun h' => hout (inZone_iff.mpr h')
          split at h
          · rename_i zone' hzone
            simp only [Verdict.zone.injEq] at h
            obtain ⟨rfl, rfl, rfl⟩ := h
            exact .inr ⟨rfl, rfl, hout, hzone⟩
          · cases h
    · cases h

/-! ## The verdict behind a reply -/

/-- Two response codes that go on the wire as the same number are the same. -/
private theorem rcode_inj {rcode rcode' : Rcode} (h : rcode.toUInt16 = rcode'.toUInt16) :
    rcode = rcode' := by
  cases rcode <;> cases rcode' <;> first | rfl | exact absurd h (by decide)

/-- An NXDOMAIN comes from an unknown name in a zone with an SOA record. -/
theorem verdict_of_nxDomain {s : Server} {cache : Cache} {q : Query} {n : Dns.Name} {limit : Nat}
    (h : (s.replyTo cache q n limit).rcode = Rcode.nxDomain.toUInt16) :
    ∃ ips zone z, s.verdict cache q = .zone false ips zone ∧ encodeZone zone = some z := by
  -- the reply starts without an error
  have hcode : (Reply.startDraft q n).flags &&& 0x000F = Rcode.noError.toUInt16 :=
    Reply.rcode_replyFlags _ _
  have hother : ∀ {rcode : Rcode} {m : Dns.Message}, m.rcode = rcode.toUInt16 →
      m.rcode = Rcode.nxDomain.toUInt16 → rcode = .nxDomain := by
    intro rcode m h₁ h₂
    exact rcode_inj (h₁.symm.trans h₂)
  unfold replyTo replyDraft at h
  cases hv : s.verdict cache q with
  | refused =>
    rw [hv] at h
    cases hother (message_withRcode rfl .refused).1 h
  | aliased target =>
    rw [hv] at h
    obtain ⟨-, -, -, hm, -, -⟩ | ⟨-, hm, -, -⟩ := message_alias rfl hcode limit target
    · cases hother hm h
    · cases hother hm h
  | zone known ips zone =>
    rw [hv] at h
    by_cases hfit : (Reply.startDraft q n).fitting limit ips = []
    · -- without an address the code says whether the name is known
      rw [Draft.render_of_fitting_nil hfit] at h
      obtain ⟨z, hz, -, hm, -, -⟩ | ⟨-, hm, -, -⟩ := message_empty rfl hcode limit known zone
      · cases known with
        | true => cases hother hm h
        | false => exact ⟨ips, zone, z, rfl, hz⟩
      · cases hother hm h
    · simp only [Draft.render, if_neg hfit] at h
      cases hother ((message_addAnswers rfl _).1.trans hcode) h

/-- An answer comes from a static CNAME or from an address. -/
theorem verdict_of_answer {s : Server} {cache : Cache} {q : Query} {n : Dns.Name} {limit : Nat}
    (h : (s.replyTo cache q n limit).answers ≠ []) :
    (∃ target z, s.verdict cache q = .aliased target ∧ encodeName target = some z) ∨
      ∃ known ips zone, s.verdict cache q = .zone known ips zone ∧ ips ≠ [] := by
  have hcode : (Reply.startDraft q n).flags &&& 0x000F = Rcode.noError.toUInt16 :=
    Reply.rcode_replyFlags _ _
  unfold replyTo replyDraft at h
  cases hv : s.verdict cache q with
  | refused =>
    rw [hv] at h
    exact absurd (message_withRcode rfl .refused).2.1 h
  | aliased target =>
    rw [hv] at h
    obtain ⟨z, hz, -⟩ | ⟨-, -, hnone, -⟩ := message_alias rfl hcode limit target
    · exact .inl ⟨target, z, rfl, hz⟩
    · exact absurd hnone h
  | zone known ips zone =>
    rw [hv] at h
    refine .inr ⟨known, ips, zone, rfl, ?_⟩
    -- without an address the answer section stays empty
    rintro rfl
    obtain ⟨-, -, -, -, hnone, -⟩ | ⟨-, -, hnone, -⟩ := message_empty rfl hcode limit known zone
    · exact h hnone
    · exact h hnone

end Server

end HopDns

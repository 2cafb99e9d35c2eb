import HopDns.Spec.AnswerCorrect

/-!
# The plain list and the answers

The server removes doubles while it writes and keeps what it wrote in an array of fixed
size. What it writes is the start of the list that `get_merged` or `get_cluster` gives.

## Key results

- `Cache.getMerged_yields`: the plain list
- `Server.capacity_le`: a reply has no room for more answers than the array has places
- `Server.handle_firstOf`: the answers are the start of the plain list
-/

namespace HopDns

open ForStd
open Reply (aRecord)

/-- The plain list: the addresses of all clusters in a row, each one at its first place. -/
theorem Cache.getMerged_yields (cache : Cache) (job : Str) :
    Yields (cache.getMerged job) (.ok (cache.merged job).flatten.eraseDups) := by
  have hlist : ∀ out (ips : List Ipv4Addr),
      Yields (ips.foldlM pushUnique out) (.ok (ips.foldl pushNew out)) :=
    fun out ips => Computes.foldlM pushUnique_yields out ips
  have hlists := Computes.foldlM hlist [] (cache.merged job)
  -- a loop over lists is a loop over what they hold in a row
  rw [← List.foldl_flatten, foldl_pushNew_nil] at hlists
  exact hlists

namespace Server

/-- The number of answers there is room for in the reply to a question. -/
def capacity (q : Query) : Nat :=
  (limitFor q.edns - HEADER_LEN - q.question.length - Reply.reserve q.edns) / 16

/-- A reply has no room for more answers than the array of written addresses has places. -/
theorem capacity_le {msg : List UInt8} {q : Query} (h : parseQuery msg = .ok q) :
    capacity q ≤ MAX_ANSWERS := by
  obtain ⟨n, hn⟩ := Query.exists_asks h
  have hlen := hn.length_question
  have hwire := Dns.length_wire_pos n.labels
  have hlimit := limitFor_le q.edns
  -- the shortest question is the root with its type and class: five bytes
  unfold capacity MAX_ANSWERS
  unfold Dns.Name.wire EDNS_MAX HEADER_LEN at *
  omega

/-- The answers are the start of the plain list, as much of it as there is room for: for
    `job.<domain>` that of the merged addresses, and for `service.cluster.<domain>` that of the
    addresses that are stored. -/
structure FirstOf (s : Server) (cache : Cache) (q : Query) (name : Str) (m : Dns.Message) :
    Prop where
  merged : ∀ job, dot ∉ job → name = job ++ dot :: s.domain →
    ∃ list, Yields (cache.getMerged job) (.ok list) ∧
      m.answers = (list.take (capacity q)).map fun ip => aRecord ip TTL
  cluster : ∀ service cluster, dot ∉ service →
    name = service ++ dot :: (cluster ++ dot :: s.domain) →
      m.answers = (((cache.getCluster cluster service).getD []).take (capacity q)).map
        fun ip => aRecord ip TTL

/-- The answers to a question for the addresses of a name that lies in the domain and has no
    CNAME are the start of the plain list. The array of written addresses is never what ends
    them. -/
theorem handle_firstOf (s : Server) (cache : Cache) {msg out : List UInt8} {q : Query} {name : Str}
    (h : parseQuery msg = .ok q) (hout : EDNS_MAX ≤ out.length)
    (hname : nameText q.qname = some name) (hcname : s.cnames.lookup name = none)
    (htype : q.qtype = rtype.A ∨ q.qtype = rtype.ANY)
    (hclass : q.qclass = CLASS_IN ∨ q.qclass = CLASS_ANY) :
    capacity q ≤ MAX_ANSWERS ∧
      ∃ len m, (s.handle cache msg out).1 = some len ∧
        Dns.Message.read ((s.handle cache msg out).2.take len) = some m ∧
          FirstOf s cache q name m := by
  obtain ⟨n, hn⟩ := Query.exists_asks h
  have hfits := fits_of_le hn (Nat.le_trans (by decide : UDP_MAX ≤ EDNS_MAX) hout)
  obtain ⟨buf, hrun, -, -, -⟩ := handle_ok s cache h hn hfits
  have hlen := congrArg Prod.fst hrun
  obtain ⟨-, -, hread⟩ := s.read_handle cache h hn hlen
  have hlimit : replyLimit q out = limitFor q.edns :=
    Nat.min_eq_left (Nat.le_trans (limitFor_le q.edns) hout)
  have hasks : asksAddress q.qtype = true := by simpa [asksAddress] using htype
  have hinternet : asksInternet q.qclass = true := by simpa [asksInternet] using hclass
  -- the answers are what fits of the addresses the name stands for
  have hanswers : ∀ known ips, Names s cache name known ips →
      (s.replyTo cache q n (replyLimit q out)).answers =
        (ips.take (capacity q)).map fun ip => aRecord ip TTL := by
    intro known ips hnames
    have hverdict := (s.verdict_eq cache hname hinternet).trans
      (verdictOn_names hcname hnames q.qtype)
    rw [hasks, if_pos rfl] at hverdict
    have hroom : (Reply.startDraft q n).room (replyLimit q out) / 16 = capacity q := by
      rw [room_startDraft hn, hlimit, spare, capacity, Nat.sub_sub, Nat.sub_sub, Nat.add_assoc]
    rw [answers_replyTo hverdict n, Draft.fitting, hroom]
  refine ⟨capacity_le h, _, _, hlen, hread, fun job hdot heq => ?_,
    fun service cluster hdot heq => ?_⟩
  · subst heq
    exact ⟨_, cache.getMerged_yields job, hanswers _ _ (.label hdot)⟩
  · subst heq
    exact hanswers _ _ (.service hdot)

/-- The question for `web.prod.hop.local` is answered with the first addresses of the cluster. -/
theorem handle_firstOf_web :
    capacity (queryOf webName rtype.A) ≤ MAX_ANSWERS ∧
      ∃ len m, ((⟨DEFAULT_DOMAIN, CNAMEs.default⟩ : Server).handle (cacheOf [oneReport])
          (queryFor webName rtype.A) (List.replicate 1232 0)).1 = some len ∧
        Dns.Message.read (((⟨DEFAULT_DOMAIN, CNAMEs.default⟩ : Server).handle (cacheOf [oneReport])
          (queryFor webName rtype.A) (List.replicate 1232 0)).2.take len) = some m ∧
        FirstOf ⟨DEFAULT_DOMAIN, CNAMEs.default⟩ (cacheOf [oneReport]) (queryOf webName rtype.A)
          (str "web.prod.hop.local") m :=
  handle_firstOf _ _ (parseQuery_queryFor webName rtype.A) (by decide +kernel) (by decide +kernel)
    (by decide +kernel) (.inl rfl) (.inl rfl)

/-- The question for the addresses of `web.prod.hop.local` in class CH. -/
def chaosQuery : List UInt8 :=
  Dns.headerBytes 0 RD 1 0 0 0 ++ questionBytes webName rtype.A 3

/-- A question of another class is refused, also for a name with addresses. -/
theorem handle_chaos :
    ∃ q, parseQuery chaosQuery = .ok q ∧ nameText q.qname = some (str "web.prod.hop.local") ∧
      CNAMEs.default.lookup (str "web.prod.hop.local") = none ∧ q.qtype = rtype.A ∧
        ∃ len m, ((⟨DEFAULT_DOMAIN, CNAMEs.default⟩ : Server).handle (cacheOf [oneReport])
            chaosQuery (List.replicate 1232 0)).1 = some len ∧
          Dns.Message.read (((⟨DEFAULT_DOMAIN, CNAMEs.default⟩ : Server).handle
            (cacheOf [oneReport]) chaosQuery (List.replicate 1232 0)).2.take len) = some m ∧
          ¬FirstOf ⟨DEFAULT_DOMAIN, CNAMEs.default⟩ (cacheOf [oneReport]) q
            (str "web.prod.hop.local") m := by
  have hquery : parseQuery chaosQuery =
      .ok ⟨0, RD, questionBytes webName rtype.A 3, webName.wire, rtype.A, 3, none⟩ :=
    parseQuery_eq_ok.mpr ⟨webName, 0, 0, 0, rfl, rfl, by decide, by decide, List.prefix_rfl, rfl⟩
  refine ⟨_, hquery, by decide +kernel, by decide +kernel, rfl, ?_⟩
  obtain ⟨len, m, hlen, hread, hdecides⟩ := handle_decides ⟨DEFAULT_DOMAIN, CNAMEs.default⟩
    (cacheOf [oneReport]) chaosQuery (List.replicate 1232 0) _ hquery (by decide +kernel)
  refine ⟨len, m, hlen, hread, fun hfirst => ?_⟩
  -- the reply is a bare REFUSED, where the list has an address
  have hbare := (hdecides.refused (.inr (by decide))).2.1
  have hanswers := hfirst.cluster (str "web") (str "prod") (by decide) rfl
  rw [hbare] at hanswers
  have hlist : (((cacheOf [oneReport]).getCluster (str "prod") (str "web")).getD []).take
      (capacity ⟨0, RD, questionBytes webName rtype.A 3, webName.wire, rtype.A, 3, none⟩) =
        [⟨10, 0, 0, 1⟩] := by
    decide +kernel
  rw [hlist] at hanswers
  cases hanswers

end Server

end HopDns

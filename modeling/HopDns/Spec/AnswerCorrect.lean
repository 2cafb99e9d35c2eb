import HopDns.Spec.Decision
import HopDns.Spec.OrderCorrect

/-!
# From the clusters to the answer

The reports of any number of clusters, made into views and laid in the cache, and the
answer to a question for one of their jobs.

## Key results

- `view_cacheOf`: the cache holds the view of each cluster
- `answers_replyTo`: the answers are the addresses of the verdict, as many as fit
- `Server.answer_faithful`: the answer holds the running tasks of the job, and nothing else
-/

namespace HopDns

open ForStd
open Reply (aRecord soaRecord encodeZone)

/-- A report of a cluster, by the name it gave itself, and the watcher that got it. -/
structure Report where
  name : Str
  watcher : Watcher
  agents : List AgentInfo
  tasks : List AgentTasks
  here : Option Local

namespace Report

/-- The name of the cluster, as a watcher keeps it. -/
def cluster (r : Report) : Str := lowercase (trim r.name)

/-- The report becomes a message, and the message is laid in the cache. -/
def post (r : Report) (s : Cache × Mem) : Cache × Mem :=
  match (r.watcher.refreshedFull r.agents r.tasks r.here).run s.2 with
  | (.ok u, mem) => ((Update.apply u).run (s.1, mem)).2
  | (.error _, mem) => (s.1, mem)

/-- The view of the cluster the report gives. -/
def view (r : Report) : Jobs := viewOf r.agents r.tasks r.here

/-- The address is that of a running task of the job, in any case of its letters. -/
def Serves (r : Report) (job : Str) (ip : Ipv4Addr) : Prop :=
  ∃ e ∈ entries r.tasks, lowercase e.2.jobName = lowercase job ∧ AddressOf r.agents r.here e ip

/-- The addresses that are built of a job are those that the report serves. -/
theorem mem_addresses (r : Report) (job : Str) (ip : Ipv4Addr) :
    ip ∈ addresses r.agents r.tasks r.here (lowercase job) ↔ r.Serves job ip :=
  HopDns.mem_addresses

end Report

/-- The cache after the reports, one after the other, from an empty one. -/
def cacheOf (reports : List Report) : Cache :=
  (reports.foldl (fun s r => r.post s) (Cache.new, [])).1

/-- The clusters of the reports are discovered, and each is another one. -/
structure Distinct (reports : List Report) : Prop where
  known : ∀ r ∈ reports, r.watcher.cluster = some r.cluster
  distinct : (reports.map Report.cluster).Nodup

/-! ## The cache -/

/-- A report is laid in the cache as the view of its cluster. -/
private theorem post_eq {r : Report} (hr : r.watcher.cluster = some r.cluster) (cache : Cache) :
    r.post (cache, []) = (cache.put r.cluster r.view, []) := by
  have hrun := (Watcher.refreshedFull_yields hr r.agents r.tasks r.here).ample
  have happly := (Update.apply_commits cache (.replace r.cluster r.view)).ample
  have hview : viewOf r.agents r.tasks r.here = r.view := rfl
  simp only [Report.post, hrun, hview, happly]
  rfl

/-- The cache holds the view of each cluster that was reported, and leaves the others alone. -/
private theorem view_foldl_post (reports : List Report) (hreports : Distinct reports)
    (cache : Cache) : (∀ r ∈ reports,
      (reports.foldl (fun s r => r.post s) (cache, [])).1.view r.cluster = some r.view) ∧
    ∀ c, (∀ r ∈ reports, r.cluster ≠ c) →
      (reports.foldl (fun s r => r.post s) (cache, [])).1.view c = cache.view c := by
  -- induction on the reports; the first one is posted, and the rest do not touch its cluster
  induction reports generalizing cache with
  | nil => exact ⟨(fun r hr => by cases hr), fun _ _ => rfl⟩
  | cons first rest ih =>
    have hnodup := List.nodup_cons.mp hreports.distinct
    have hrest : Distinct rest :=
      ⟨fun r hr => hreports.known r (List.mem_cons_of_mem _ hr), hnodup.2⟩
    obtain ⟨hin, hout⟩ := ih hrest (cache.put first.cluster first.view)
    rw [List.foldl_cons, post_eq (hreports.known first List.mem_cons_self)]
    refine ⟨fun r hr => ?_, fun c hnone => ?_⟩
    · obtain rfl | hr := List.mem_cons.mp hr
      · -- no later report is about the same cluster
        have hlater : ∀ r' ∈ rest, r'.cluster ≠ r.cluster := by
          intro r' hr' hc
          exact hnodup.1 (List.mem_map.mpr ⟨r', hr', hc⟩)
        rw [hout r.cluster hlater, Cache.view_put, if_pos rfl]
      · exact hin r hr
    -- a cluster of no report keeps what it had
    · have hne : c ≠ first.cluster := fun h => hnone first List.mem_cons_self h.symm
      rw [hout c fun r hr => hnone r (List.mem_cons_of_mem _ hr), Cache.view_put, if_neg hne]

theorem view_cacheOf {reports : List Report} (hreports : Distinct reports) {r : Report}
    (hr : r ∈ reports) : (cacheOf reports).view r.cluster = some r.view :=
  (view_foldl_post reports hreports Cache.new).1 r hr

/-- Only clusters that were reported are in the cache. -/
private theorem exists_of_view_cacheOf {reports : List Report} (hreports : Distinct reports)
    {c : Str}
    {jobs : Jobs} (h : (cacheOf reports).view c = some jobs) : ∃ r ∈ reports, jobs = r.view := by
  by_cases hc : ∃ r ∈ reports, r.cluster = c
  · obtain ⟨r, hr, rfl⟩ := hc
    rw [view_cacheOf hreports hr] at h
    exact ⟨r, hr, (Option.some.inj h).symm⟩
  · have hother : ∀ r ∈ reports, r.cluster ≠ c := fun r hr hrc => hc ⟨r, hr, hrc⟩
    have hempty : (cacheOf reports).view c = none :=
      (view_foldl_post reports hreports Cache.new).2 c hother
    rw [hempty] at h
    cases h

/-- The addresses of a job over all clusters are those of its running tasks in some cluster. -/
private theorem mem_merged_cacheOf {reports : List Report} (hreports : Distinct reports) (job : Str)
    (ip : Ipv4Addr) :
    ip ∈ ((cacheOf reports).merged (lowercase job)).flatten ↔ ∃ r ∈ reports, r.Serves job ip := by
  -- an address of the merged list is one of some cluster's row
  simp only [List.mem_flatten, Cache.merged, List.mem_filterMap, Table.mem_values]
  constructor
  · intro h
    obtain ⟨ips, ⟨jobs, ⟨c, hview⟩, hget⟩, hip⟩ := h
    obtain ⟨r, hr, rfl⟩ := exists_of_view_cacheOf hreports hview
    refine ⟨r, hr, (r.mem_addresses job ip).mp ?_⟩
    -- the row of the view is the list of the report's addresses
    have hgetD := getD_viewOf r.agents r.tasks r.here (lowercase job)
    rw [show viewOf r.agents r.tasks r.here = r.view from rfl, hget] at hgetD
    exact hgetD ▸ hip
  · intro h
    obtain ⟨r, hr, hserves⟩ := h
    have hmem := (r.mem_addresses job ip).mpr hserves
    -- an address makes the row non-empty, so the view has it
    have hget := get_viewOf r.agents r.tasks r.here (lowercase job)
    rw [if_neg (List.ne_nil_of_mem hmem)] at hget
    exact ⟨_, ⟨r.view, ⟨r.cluster, view_cacheOf hreports hr⟩, hget⟩, hmem⟩

/-- The addresses of a job in one cluster are those of its running tasks there. -/
private theorem getCluster_cacheOf {reports : List Report} (hreports : Distinct reports)
    {r : Report} (hr : r ∈ reports) (job : Str) :
    ((cacheOf reports).getCluster r.cluster job).getD [] =
      addresses r.agents r.tasks r.here job := by
  rw [Cache.getCluster_eq, view_cacheOf hreports hr, Option.bind_some]
  exact getD_viewOf r.agents r.tasks r.here job

/-! ## The answers -/

/-- A negative reply has no answers. -/
theorem Negative.answers {m : Dns.Message} {room : Nat} {rcode : Rcode} {zone : Str}
    (h : Negative m room rcode zone) : m.answers = [] := by
  obtain ⟨n, -, -, -, hanswers, -⟩ | ⟨-, -, hanswers, -⟩ := h
  · exact hanswers
  · exact hanswers

/-- The answers are the addresses of the verdict, as many as fit. -/
theorem answers_replyTo {s : Server} {cache : Cache} {q : Query} {known : Bool}
    {ips : List Ipv4Addr} {zone : Str} (hverdict : s.verdict cache q = .zone known ips zone)
    (n : Dns.Name) (limit : Nat) :
    (s.replyTo cache q n limit).answers =
      ((Reply.startDraft q n).fitting limit ips).map fun ip => aRecord ip TTL := by
  -- the code of a draft that was just started is that of success
  have hcode : (Reply.startDraft q n).flags &&& 0x000F = Rcode.noError.toUInt16 :=
    Reply.rcode_replyFlags _ _
  unfold Server.replyTo Server.replyDraft
  rw [hverdict]
  -- no address fits, so the reply is negative and its list is empty
  by_cases hfit : (Reply.startDraft q n).fitting limit ips = []
  · rw [Draft.render_of_fitting_nil hfit, hfit]
    exact (message_empty rfl hcode limit known zone).answers
  · simp only [Draft.render, if_neg hfit]
    exact (message_addAnswers rfl _).2.1

/-- The answers are addresses with the property `P`, each one once, and all of them where they
    fit in `room`. -/
structure Faithful (m : Dns.Message) (room : Nat) (P : Ipv4Addr → Prop) : Prop where
  distinct : m.answers.Nodup
  sound : ∀ rr ∈ m.answers, ∃ ip, P ip ∧ rr = aRecord ip TTL
  complete : ∀ all : List Ipv4Addr, (∀ ip, ip ∈ all ↔ P ip) → all.Nodup → 16 * all.length ≤ room →
    ∀ ip ∈ all, aRecord ip TTL ∈ m.answers

/-- An address is its four bytes. -/
theorem octets_inj {ip ip' : Ipv4Addr} (h : ip.octets = ip'.octets) : ip = ip' := by
  unfold Ipv4Addr.octets at h
  cases ip
  cases ip'
  simpa using h

private theorem aRecord_inj {ip ip' : Ipv4Addr} (h : aRecord ip TTL = aRecord ip' TTL) : ip = ip' :=
  octets_inj (congrArg Dns.Record.rdata h)

/-- As many addresses of a list without doubles as fit are faithful to the list. -/
theorem faithful_of_answers {m : Dns.Message} {q : Query} {n : Dns.Name} (hn : q.Asks n)
    {limit : Nat} {ips : List Ipv4Addr} {P : Ipv4Addr → Prop} (hnodup : ips.Nodup)
    (hips : ∀ ip, ip ∈ ips ↔ P ip)
    (hanswers : m.answers =
      ((Reply.startDraft q n).fitting limit ips).map fun ip => aRecord ip TTL) :
    Faithful m (spare q limit) P := by
  -- a record of an address takes sixteen bytes of the room
  rw [Draft.fitting, Server.room_startDraft hn] at hanswers
  -- different addresses make different records
  have hinj : ∀ l : List Ipv4Addr, l.Nodup → (l.map fun ip => aRecord ip TTL).Nodup := by
    intro l hl
    rw [List.Nodup, List.pairwise_map]
    exact hl.imp fun hne h => hne (aRecord_inj h)
  -- no address twice, each from the list, and all of them if they fit
  refine ⟨?_, fun rr hrr => ?_, fun all hall hnodup' hfit ip hip => ?_⟩
  · rw [hanswers]
    exact hinj _ (hnodup.sublist (List.take_sublist _ _))
  · rw [hanswers] at hrr
    obtain ⟨ip, hip, rfl⟩ := List.mem_map.mp hrr
    exact ⟨ip, (hips ip).mp (List.mem_of_mem_take hip), rfl⟩
  · -- a list with the same addresses is no shorter, so none is cut off
    have hlen : ips.length ≤ all.length :=
      hnodup.length_le_of_subset fun ip hip => (hall ip).mpr ((hips ip).mp hip)
    have hall' : ips.take (spare q limit / 16) = ips := List.take_of_length_le (by omega)
    rw [hanswers, hall']
    exact List.mem_map.mpr ⟨ip, (hips ip).mpr ((hall ip).mp hip), rfl⟩

namespace Server

/-- From the clusters to the answer. After the reports of any clusters, in any order, the
    answer to a question for the addresses of a job holds the addresses of its running tasks
    in all clusters, or in the cluster that was asked for; each one once, all of them where
    they fit, and nothing else. -/
theorem answer_faithful {reports : List Report} (hreports : Distinct reports) (s : Server)
    {msg out : List UInt8} {q : Query} {len : Nat} (hq : parseQuery msg = .ok q)
    (hclass : asksInternet q.qclass = true) (htype : q.qtype = rtype.A) {job : Str}
    (hdot : dot ∉ job) (hlen : (s.handle (cacheOf reports) msg out).1 = some len) :
    ∃ m, Dns.Message.read ((s.handle (cacheOf reports) msg out).2.take len) = some m ∧
      (nameText q.qname = some (lowercase job ++ dot :: s.domain) →
        s.cnames.lookup (lowercase job ++ dot :: s.domain) = none →
          Faithful m (spare q (replyLimit q out)) fun ip => ∃ r ∈ reports, r.Serves job ip) ∧
      ∀ r ∈ reports,
        nameText q.qname = some (lowercase job ++ dot :: (r.cluster ++ dot :: s.domain)) →
        s.cnames.lookup (lowercase job ++ dot :: (r.cluster ++ dot :: s.domain)) = none →
          Faithful m (spare q (replyLimit q out)) (r.Serves job) := by
  obtain ⟨n, hn⟩ := Query.exists_asks hq
  obtain ⟨-, -, hread⟩ := s.read_handle (cacheOf reports) hq hn hlen
  have hdot' : dot ∉ lowercase job := fun h => hdot ((dot_mem_lowercase job).mp h)
  have hasks : asksAddress q.qtype = true := by simp [asksAddress, htype]
  refine ⟨_, hread, fun hname hcname => ?_, fun r hr hname hcname => ?_⟩
  · -- a single label: the addresses of all clusters together
    have hverdict := (s.verdict_eq (cacheOf reports) hname hclass).trans
      (verdictOn_names hcname (.label hdot') q.qtype)
    rw [hasks, if_pos rfl] at hverdict
    -- the array of a reply takes each address once, whatever the clusters hold
    refine faithful_of_answers hn (List.nodup_eraseDups _) (fun ip => ?_)
      (answers_replyTo hverdict n _)
    rw [List.mem_eraseDups]
    exact mem_merged_cacheOf hreports job ip
  · -- two labels: the addresses of the one cluster
    have hverdict := (s.verdict_eq (cacheOf reports) hname hclass).trans
      (verdictOn_names hcname (.service hdot') q.qtype)
    rw [hasks, if_pos rfl, getCluster_cacheOf hreports hr] at hverdict
    exact faithful_of_answers hn (nodup_addresses _ _ _ _) (r.mem_addresses job)
      (answers_replyTo hverdict n _)

/-- One cluster with one running task. -/
def oneReport : Report where
  name := str " Prod "
  watcher := { Watcher.peer with cluster := some (str "prod") }
  agents := [⟨str "node1", str "http://10.0.0.1:8080"⟩]
  tasks := [⟨str "node1", some [⟨str "Web", .running, str "docker", 0⟩]⟩]
  here := none

/-- `web.prod.hop.local` -/
def webName : Dns.Name :=
  ⟨[str "web", str "prod", str "hop", str "local"], by decide, by decide⟩

/-- A report with one task of one job. -/
theorem answer_faithful_web :
    ∃ m, Dns.Message.read (((⟨DEFAULT_DOMAIN, CNAMEs.default⟩ : Server).handle (cacheOf [oneReport])
        (queryFor webName rtype.A) (List.replicate 1232 0)).2.take 63) = some m ∧
      Faithful m
        (spare (queryOf webName rtype.A) (replyLimit (queryOf webName rtype.A)
          (List.replicate 1232 0)))
        (oneReport.Serves (str "web")) := by
  obtain ⟨m, hread, -, hcluster⟩ := @answer_faithful [oneReport]
    ⟨by decide +kernel, by decide +kernel⟩ ⟨DEFAULT_DOMAIN, CNAMEs.default⟩
    (queryFor webName rtype.A) (List.replicate 1232 0) (queryOf webName rtype.A) 63
    (parseQuery_queryFor webName rtype.A) (by decide) rfl (str "web") (by decide)
    (by decide +kernel)
  exact ⟨m, hread, hcluster oneReport List.mem_cons_self (by decide +kernel) (by decide +kernel)⟩

end Server

end HopDns

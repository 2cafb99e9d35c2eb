import Mathlib.Data.List.Sort
import HopDns.Spec.CacheMap
import HopDns.Spec.DaemonCorrect

/-!
# Why an answer changes

The answer to a question depends on the rows of the cache that its name asks for, and on
nothing else in it. So a daemon gives another answer to the same question only when a message
that changed one of these rows was laid in its cache in between.

## Key results

- `Cache.merged_congr`: the addresses of a job are those of its rows
- `Server.respond_congr`: an answer depends on the rows that its name asks for
- `Daemon.answer_changes`: an answer that changes has a message as its cause
-/

namespace HopDns

open ForStd

/-! ## The rows a name asks for -/

namespace Cache

variable {c c' : Cache}

/-- The views of a job are in the order of the clusters that have it. -/
theorem merged_congr {job : Str}
    (h : ∀ cluster, c.getCluster cluster job = c'.getCluster cluster job) :
    c.merged job = c'.merged job := by
  -- only the clusters that have the job matter
  have hrows : ∀ c : Cache, c.merged job =
      (c.clusterNames.filter fun cluster => (c.getCluster cluster job).isSome).filterMap
        fun cluster => c.getCluster cluster job := by
    intro c
    rw [merged_eq, List.filterMap_filter]
    refine List.filterMap_congr fun cluster _ => ?_
    cases c.getCluster cluster job <;> rfl
  -- these are the same clusters on both sides, and in the same order
  have hnames : (c.clusterNames.filter fun cluster => (c.getCluster cluster job).isSome) =
      c'.clusterNames.filter fun cluster => (c'.getCluster cluster job).isSome := by
    refine (c.clusterNames_ascending.filter _).eq_of_mem_iff (c'.clusterNames_ascending.filter _) ?_
    intro cluster
    have hmem : ∀ c : Cache,
        cluster ∈ (c.clusterNames.filter fun cluster => (c.getCluster cluster job).isSome) ↔
          (c.getCluster cluster job).isSome = true := by
      intro c
      rw [List.mem_filter, mem_clusterNames, hasCluster, Table.containsKey_eq, getCluster_eq, view]
      cases c.clusters.get cluster <;> simp
    rw [hmem, hmem, h]
  rw [hrows, hrows, hnames]
  exact List.filterMap_congr fun cluster _ => h cluster

/-- A job is known in both caches when every cluster has the same addresses for it. -/
private theorem hasJob_congr {job : Str}
    (h : ∀ cluster, c.getCluster cluster job = c'.getCluster cluster job) :
    c.hasJob job = c'.hasJob job := by
  rw [hasJob, hasJob, merged_congr h]

end Cache

namespace Server

/-- The caches differ in something that the name asks for. -/
inductive Differs (s : Server) (c c' : Cache) : Str → Prop
  /-- the row of a service in its cluster -/
  | service {service cluster : Str} (hdot : dot ∉ service)
      (h : c.getCluster cluster service ≠ c'.getCluster cluster service) :
      Differs s c c' (service ++ dot :: (cluster ++ dot :: s.domain))
  /-- the row of a job in any cluster -/
  | job {job cluster : Str} (hdot : dot ∉ job)
      (h : c.getCluster cluster job ≠ c'.getCluster cluster job) :
      Differs s c c' (job ++ dot :: s.domain)
  /-- whether there is such a cluster -/
  | cluster {cluster : Str} (hdot : dot ∉ cluster)
      (h : c.hasCluster cluster ≠ c'.hasCluster cluster) :
      Differs s c c' (cluster ++ dot :: s.domain)

variable (s : Server) {c c' : Cache}

/-- What is written for a name of the domain depends on what it asks for. -/
private theorem service_eq {t : Str} (hin : LiesIn t s.domain) (h : ¬Differs s c c' t)
    (qtype : UInt16) :
    s.service c t qtype = s.service c' t qtype := by
  -- the domain itself needs nothing of the cache
  obtain rfl | ⟨pre, rfl⟩ := hin
  · simp only [service, lookup_domain]
    rfl
  -- a single label asks for a job and for a cluster, two for a service in a cluster
  · cases hcut : pre.splitOnce dot with
    | none =>
      have hdot := List.not_mem_of_splitOnce hcut
      have hrow : ∀ cluster, c.getCluster cluster pre = c'.getCluster cluster pre :=
        fun cluster => not_not.mp fun hne => h (.job hdot hne)
      have hcluster : c.hasCluster pre = c'.hasCluster pre :=
        not_not.mp fun hne => h (.cluster hdot hne)
      simp only [service, lookup_append, hcut, Lookup.known, Lookup.write, writeMerged,
        Cache.hasJob_congr hrow, Cache.merged_congr hrow, hcluster]
    | some cut =>
      obtain ⟨service, cluster⟩ := cut
      obtain ⟨rfl, hdot⟩ := List.splitOnce_eq_some hcut
      have hrow : c.getCluster cluster service = c'.getCluster cluster service :=
        not_not.mp fun hne => h (by
          rw [List.append_assoc, List.cons_append]
          exact .service hdot hne)
      simp only [Server.service, lookup_append, hcut, hrow]
      rfl

/-- The question asks for the name in the domain, and no static CNAME answers it. -/
structure AsksFor (msg : List UInt8) (t : Str) : Prop where
  query : ∃ q, parseQuery msg = .ok q ∧ asksInternet q.qclass = true ∧ nameText q.qname = some t
  inDomain : LiesIn t s.domain
  noCNAME : s.cnames.lookup t = none

/-- An answer depends on what its name asks for. -/
theorem handle_eq {msg : List UInt8} (h : ∀ t, AsksFor s msg t → ¬Differs s c c' t)
    (out : List UInt8) : s.handle c msg out = s.handle c' msg out := by
  -- a message that cannot be read is answered without the cache
  cases hq : parseQuery msg with
  | error bad => cases bad <;> simp only [handle, hq]
  | ok q =>
    -- the answer looks at the cache only for a name of the domain that is no alias
    have hanswer : s.answer c q = s.answer c' q := by
      cases ht : nameText q.qname with
      | none => simp only [answer, ht]
      | some t =>
        by_cases hclass : asksInternet q.qclass = true
        · cases hl : s.cnames.lookup t with
          | some target => simp only [answer, ht, hl]
          | none =>
            by_cases hin : LiesIn t s.domain
            · have hasks : AsksFor s msg t := ⟨⟨q, hq, hclass, ht⟩, hin, hl⟩
              simp only [answer, ht, hl, s.service_eq hin (h t hasks)]
            · have hnot : inZone t s.domain = false := by
                rw [← Bool.not_eq_true, inZone_iff]
                exact hin
              simp only [answer, ht, hl, hnot, Bool.false_eq_true, if_false]
        -- another class is refused, whatever the cache holds
        · have hother : q.qclass ≠ CLASS_IN ∧ q.qclass ≠ CLASS_ANY := by
            simpa [asksInternet] using hclass
          simp only [answer, ht, if_pos hother]
    simp only [handle, hq, hanswer]

/-- Where nothing that the question asks for differs, neither does the answer. -/
theorem respond_eq {msg : List UInt8} (h : ∀ t, AsksFor s msg t → ¬Differs s c c' t) :
    s.respond c msg = s.respond c' msg := by
  rw [respond, respond, s.handle_eq h]

end Server

/-! ## What a message changes -/

/-- The message changes something that the name asks for: the row of a job in its cluster, or that
    there is such a cluster. -/
def Update.Concerns (u : Update) (cache : Cache) (domain t : Str) : Prop :=
  (∃ job, dot ∉ job ∧
    cache.getCluster u.cluster job ≠ (applied cache u).getCluster u.cluster job ∧
      (t = job ++ dot :: domain ∨ t = job ++ dot :: (u.cluster ++ dot :: domain))) ∨
  (cache.hasCluster u.cluster = false ∧ dot ∉ u.cluster ∧ t = u.cluster ++ dot :: domain)

/-- A message leaves the other clusters alone. -/
private theorem Update.getCluster_applied_of_ne {u : Update} {cache : Cache} {cluster job : Str}
    (h : u.cluster ≠ cluster) :
    (applied cache u).getCluster cluster job = cache.getCluster cluster job := by
  rw [Cache.getCluster_eq, Cache.getCluster_eq, view_applied, if_neg h]

/-- A message brings its own cluster, and takes none away. -/
theorem Update.hasCluster_applied (u : Update) (cache : Cache) (cluster : Str) :
    (applied cache u).hasCluster cluster =
      (decide (u.cluster = cluster) || cache.hasCluster cluster) := by
  have hview : ∀ c : Cache, c.hasCluster cluster = (c.view cluster).isSome :=
    fun c => Table.containsKey_eq _ _
  rw [hview, hview, view_applied]
  by_cases h : u.cluster = cluster <;> simp [h]

/-- What a message makes different concerns it. -/
private theorem Server.Differs.concerns {s : Server} {cache : Cache} {u : Update} {t : Str}
    (h : s.Differs cache (Update.applied cache u) t) : u.Concerns cache s.domain t := by
  cases h with
  -- a row of one cluster can differ only if the message is about that cluster
  | @service service cluster hdot h =>
    have hcluster : u.cluster = cluster :=
      not_not.mp fun hne => h (Update.getCluster_applied_of_ne hne).symm
    subst hcluster
    exact .inl ⟨service, hdot, h, .inr rfl⟩
  | @job job cluster hdot h =>
    have hcluster : u.cluster = cluster :=
      not_not.mp fun hne => h (Update.getCluster_applied_of_ne hne).symm
    subst hcluster
    exact .inl ⟨job, hdot, h, .inl rfl⟩
  -- a cluster that is new is the message's
  | @cluster cluster hdot h =>
    rw [Update.hasCluster_applied] at h
    by_cases hcluster : u.cluster = cluster
    · subst hcluster
      have hnone : cache.hasCluster u.cluster = false := by simpa using h
      exact .inr ⟨hnone, hdot, rfl⟩
    · exact absurd (by simp [hcluster]) h

namespace Daemon

variable {ι α : Type} [DecidableEq ι] {p : Platform}

/-- The cache changes when a message is taken, and by what the message says or not at all. -/
theorem Step.cache {d d' : Daemon ι} {act : Act ι α} (h : Step p d act d') :
    d'.owner.cache = d.owner.cache ∨
      ∃ u, act = .take u ∧ d'.owner.cache = Update.applied d.owner.cache u := by
  -- only a message taken from the channel changes the cache
  cases h with
  | peer i act hheld hstep => exact .inl rfl
  | post i u hheld hroom => exact .inl rfl
  | take u rest hbus hstand =>
    obtain hsame | happlied := (Update.apply_commits d.owner.cache u).state d.owner.mem
    · exact .inr ⟨u, rfl, hsame⟩
    · exact .inl happlied
  | empty hbus hstand => exact .inl (endBatch_frame p d.owner).2.2.1
  | question asker datagram hstand => exact .inl rfl
  | quiet hstand => exact .inl rfl
  | failed hp hstand => exact .inl rfl

/-- What the server would answer to the datagram. -/
def answering (s : Server) (msg : List UInt8) (d : Daemon ι) : Option (List UInt8) :=
  s.respond d.owner.cache msg

/-- An answer that changes has a message as its cause. When a daemon gives two answers to the same
    question that are not the same, a message was taken in between that changed the row of a job
    the name asks for, or brought the cluster it names; nothing else that happens, and no message
    about other rows, changes an answer. -/
theorem answer_changes {d₀ d d₁ d₂ d₃ : Daemon ι} {before between : List (Act ι α)}
    (h₀ : d₀.Initial p) (hbefore : Run (Step p) d₀ before d) {asker asker' : α}
    {datagram : List UInt8} {reply reply' : Option (List UInt8)}
    (hfirst : Step p d (.question asker datagram reply) d₁)
    (hbetween : Run (Step p) d₁ between d₂)
    (hsecond : Step p d₂ (.question asker' datagram reply') d₃) (hne : reply ≠ reply') :
    ∃ earlier u later e t, between = earlier ++ .take u :: later ∧ Run (Step p) d₁ earlier e ∧
      d₀.owner.server.AsksFor (datagram.take p.QUERY_MAX) t ∧
        u.Concerns e.owner.cache d₀.owner.server.domain t := by
  -- both replies are the server's, from the caches at their times
  obtain ⟨k, hfollows, -⟩ := Follows.exists_log h₀ hbefore
  have hrun := (hbefore.append (.single hfirst)).append hbetween
  obtain ⟨k', hfollows', -⟩ := Follows.exists_log h₀ hrun
  have hreply : reply = answering d₀.owner.server (datagram.take p.QUERY_MAX) d :=
    hfollows.reply_eq hfirst
  have hreply' : reply' = answering d₀.owner.server (datagram.take p.QUERY_MAX) d₂ :=
    hfollows'.reply_eq hsecond
  -- the first question itself leaves the cache as it was
  have hsame : answering d₀.owner.server (datagram.take p.QUERY_MAX) d₁ =
      answering d₀.owner.server (datagram.take p.QUERY_MAX) d := by
    obtain h | ⟨u, h, -⟩ := hfirst.cache
    · rw [answering, answering, h]
    · cases h
  -- so somewhere between the two the answer changed
  rw [hreply, hreply', ← hsame] at hne
  obtain ⟨earlier, act, later, e, e', rfl, hearlier, hstep, hchange⟩ := hbetween.exists_change hne
  -- that step took a message, or it kept the cache and with it the answer
  obtain hkept | ⟨u, rfl, happlied⟩ := hstep.cache
  · exact absurd (by rw [answering, answering, hkept]) hchange
  · -- the caches before and after the message differ in what the name asks for
    have hdiffers : ∃ t, d₀.owner.server.AsksFor (datagram.take p.QUERY_MAX) t ∧
        d₀.owner.server.Differs e.owner.cache (Update.applied e.owner.cache u) t := by
      by_contra hnone
      refine hchange ?_
      rw [answering, answering, happlied]
      exact d₀.owner.server.respond_eq fun t ht hd => hnone ⟨t, ht, hd⟩
    obtain ⟨t, hasks, hdiff⟩ := hdiffers
    exact ⟨earlier, u, later, e, t, rfl, hearlier, hasks, hdiff.concerns⟩

/-- The question for the addresses of `web.prod.hop.local`. -/
def webQuestion : List UInt8 := queryFor Server.webName rtype.A

/-- The daemon that fetched the cluster, once it was asked. -/
def denied : Daemon Unit :=
  { alone .hopos fetched with
    owner := ((alone .hopos fetched).owner.reply (webQuestion.take Platform.hopos.QUERY_MAX)).2 }

/-- The same when it has taken the message. -/
def filled : Daemon Unit :=
  { denied with
    posted := fun _ => 1
    owner := denied.owner.apply webUpdate
    stand := .draining }

/-- What happens between two questions. -/
def fills : List (Act Unit Unit) :=
  [.post () webUpdate, .take webUpdate, .empty (Platform.hopos.endBatch filled.owner).1]

/-- The run that fills the cache between two answers. -/
private theorem fills_run : Run (Step .hopos) denied fills
    { filled with owner := (Platform.hopos.endBatch filled.owner).2, stand := .receiving } := by
  have hroom : Platform.hopos.HasRoom [] := by decide
  have htakes : Platform.hopos.Takes .receiving := by decide
  have hheld : (denied.loops ()).sent[denied.posted ()]? = some webUpdate := by
    show fetched.sent[0]? = some webUpdate
    rw [fetched_sent]
    rfl
  exact .cons (.post () webUpdate hheld hroom) (.cons (.take webUpdate [] rfl htakes)
    (.single (.empty rfl rfl)))

/-- Before the message the name does not exist, and then it has an address. -/
theorem answer_changes_fills : ∃ earlier u later e t,
    fills = earlier ++ .take u :: later ∧ Run (Step .hopos) denied earlier e ∧
      (⟨DEFAULT_DOMAIN, CNAMEs.default⟩ : Server).AsksFor
        (webQuestion.take Platform.hopos.QUERY_MAX) t ∧
      u.Concerns e.owner.cache DEFAULT_DOMAIN t := by
  have hne : ((alone .hopos fetched).owner.reply (webQuestion.take Platform.hopos.QUERY_MAX)).1 ≠
      ((Platform.hopos.endBatch filled.owner).2.reply
        (webQuestion.take Platform.hopos.QUERY_MAX)).1 := by
    decide +kernel
  exact answer_changes (alone_initial .hopos) (fetches_run .hopos)
    (.question () webQuestion rfl) fills_run (.question () webQuestion rfl) hne

end Daemon

end HopDns

import Mathlib.Logic.Function.Basic
import HopDns.Spec.AnswerCorrect
import HopDns.Spec.AtRest

/-!
# Many peers and one cache

The daemon follows several clusters at once: each peer has its own cluster, stream, driver
and messages, in steps of its own, and all of them fill one cache. The steps of the peers
interleave in any order. Each cluster answers to one name, and no two to the same.

Once all of them are at rest the answers are those of all clusters as they are then, as long as
no allocation fails and the names of the jobs are in lower case: a rebuild that fails is made up
for by nobody, and of a job with a capital letter an event is heard but no status is found.

## Key results

- `Federation.Step`: the steps of one peer among the others
- `Federation.Sound.step`: no peer disturbs another
- `Federation.answers_atRest`: at rest the answers are the running tasks of the clusters
-/

namespace HopDns

open ForStd

/-- The peers of a daemon and the cache they share; what their own field for it holds is of no
    account. -/
structure Federation (ι : Type) where
  peers : ι → Peer
  cache : Cache

namespace Peer

/-- A status that is answered gives the name of the cluster, in any case and with any blanks
    around it, or none but blanks. -/
def Act.Calls (name : Str) : Act → Prop
  | .status _ (some answer) => lowercase (trim answer) = name ∨ trim answer = []
  | _ => True

variable {here : Option Local} {p p' : Peer} {act : Act}

/-- The driver learns the name that the cluster gives. -/
theorem Step.cluster (h : Step here p act p') {name : Str} (hcalls : act.Calls name) :
    p'.driver.watcher.cluster = p.driver.watcher.cluster ∨
      p'.driver.watcher.cluster = some name := by
  -- only the answer to the status call can set the cluster
  cases h with
  | changeJob | changeAgents | connect | breakOff | apply => exact .inl rfl
  | announce n ev hn hev =>
    exact .inl (congrArg (fun d => d.watcher.cluster) (tell_frame _ ev).2.1)
  | say ev => exact .inl (congrArg (fun d => d.watcher.cluster) (p.tell_frame ev).2.1)
  -- a turn keeps it, whatever it decides
  | turn now hphase =>
    refine .inl ?_
    obtain ⟨-, -, hwatcher, -⟩ | ⟨-, hwatcher, -⟩ := p.driver.turn_cases now <;>
      simp only [hwatcher]
    rfl
  | status now answer hphase =>
    cases answer with
    | none => exact .inl rfl
    | some answer =>
      -- `discovered` goes through, or it changes nothing
      obtain hstate | hstate :=
        (Watcher.discovered_commits p.driver.watcher now answer).state p.driver.mem
      · -- a blank name is as good as none
        have hlearns : (p.driver.watcher.learns now answer).cluster = p.driver.watcher.cluster ∨
            (p.driver.watcher.learns now answer).cluster = some name := by
          unfold Watcher.learns
          split
          · exact .inl rfl
          · rename_i hsome
            exact .inr (congrArg some
              (hcalls.resolve_right fun h => hsome (List.isEmpty_iff.mpr h)))
        obtain hsame | hnew := hlearns
        · exact .inl ((congrArg Watcher.cluster hstate).trans hsame)
        · exact .inr ((congrArg Watcher.cluster hstate).trans hnew)
      · exact .inl (congrArg Watcher.cluster hstate)
  | fetchAgents hphase => exact .inl rfl
  -- a fetch that ends keeps it, with a message and without one
  | fetchTasks agents hphase =>
    rcases hrun : (p.driver.watcher.refreshedFull agents p.hop.tasks here).run p.driver.mem with
      ⟨result, mem⟩
    rw [p.driver.gotTasks_eq hrun]
    exact .inl rfl
  | fetchJob now status all job rest hphase hstatus =>
    rcases hrun : (p.driver.watcher.refreshedJob job status here).run p.driver.mem with
      ⟨e | u, mem⟩
    · rw [p.driver.gotJob_error now all rest hrun]
      exact .inl rfl
    · rw [p.driver.gotJob_ok now all rest hrun]
      exact .inl (congrArg Watcher.cluster (Driver.askJobs_frame _ all rest).1)
  | fetchFailed now what hphase => exact .inl rfl
  | hear now first rest hphase hheard =>
    refine .inl ?_
    cases first with
    | lost => rfl
    -- an event only adds to what is pending
    | event ev =>
      obtain hstate | hstate :=
        (Watcher.event_commits p.driver.watcher now ev).state p.driver.mem
      · exact (congrArg Watcher.cluster hstate).trans (Watcher.cluster_hears _ now ev)
      · exact congrArg Watcher.cluster hstate
  | timeout hphase => exact .inl rfl

/-- A message that is on its way was on its way before, or the watcher has just made it. -/
theorem Step.updates (h : Step here p act p') {u : Update} (hu : u ∈ p'.updates) :
    u ∈ p.updates ∨ p.driver.watcher.Sends u := by
  -- two steps send a message, each with the cluster that the watcher knows
  cases h with
  | changeJob | changeAgents | connect | breakOff | turn | status | fetchAgents | fetchFailed |
      hear | timeout => exact .inl hu
  -- an event travels on the stream, not to the cache
  | announce n ev hn hev =>
    rw [(tell_frame _ ev).2.2.1] at hu
    exact .inl hu
  | say ev =>
    rw [(p.tell_frame ev).2.2.1] at hu
    exact .inl hu
  | fetchTasks agents hphase =>
    obtain hu | hu := List.mem_append.mp hu
    · exact .inl hu
    -- the full view, if memory was found for it
    · rcases hrun : (p.driver.watcher.refreshedFull agents p.hop.tasks here).run p.driver.mem with
        ⟨e | u', mem⟩
      · rw [p.driver.gotTasks_eq hrun] at hu
        cases hu
      · rw [p.driver.gotTasks_eq hrun] at hu
        obtain rfl := List.mem_singleton.mp hu
        exact .inr (.inl ⟨_, _, _, _, _, hrun⟩)
  | fetchJob now status all job rest hphase hstatus =>
    obtain hu | hu := List.mem_append.mp hu
    · exact .inl hu
    -- one job's addresses, likewise
    · rcases hrun : (p.driver.watcher.refreshedJob job status here).run p.driver.mem with
        ⟨e | u', mem⟩
      · rw [p.driver.gotJob_error now all rest hrun] at hu
        cases hu
      · rw [p.driver.gotJob_ok now all rest hrun] at hu
        obtain rfl := List.mem_singleton.mp hu
        exact .inr (.inr ⟨_, _, _, _, _, hrun⟩)
  | apply u' rest hupdates =>
    rw [hupdates]
    exact .inl (List.mem_cons_of_mem _ hu)

/-- The cache changes by a message that was on its way, or not at all. -/
theorem Step.cache (h : Step here p act p') :
    p'.cache = p.cache ∨ ∃ u ∈ p.updates, p'.cache = Update.applied p.cache u := by
  cases h with
  | changeJob | changeAgents | connect | breakOff | turn | status | fetchAgents | fetchTasks |
      fetchJob | fetchFailed | hear | timeout => exact .inl rfl
  | announce n ev hn hev => exact .inl (tell_frame _ ev).2.2.2.1
  | say ev => exact .inl (p.tell_frame ev).2.2.2.1
  | apply u rest hupdates =>
    refine .inr ⟨u, by rw [hupdates]; exact List.mem_cons_self, ?_⟩
    show (drain [u] (p.cache, [])).1 = _
    rw [drain_eq]
    rfl

/-- The messages of one cluster leave the view of it alone that another cache has. -/
private theorem view_foldl_applied {us : List Update} {cache cache' : Cache} {c : Str}
    (h : cache.view c = cache'.view c) :
    (us.foldl Update.applied cache).view c = (us.foldl Update.applied cache').view c := by
  induction us generalizing cache cache' with
  | nil => exact h
  | cons u us ih =>
    refine ih ?_
    rw [Update.view_applied, Update.view_applied, h]

/-- A peer owes nothing to what the cache holds of other clusters. -/
private theorem Sound.withCache (h : p.Sound here) {name : Str}
    (hname : ∀ c, p.driver.watcher.cluster = some c → c = name) {cache : Cache}
    (hview : cache.view name = p.cache.view name) : Sound here { p with cache } := by
  refine ⟨h.folded, h.watcher, h.mem, h.fits, h.pinged, h.stale, fun job hjob => ?_⟩
  obtain ⟨c, hc, hrow⟩ | hcovered := h.covered job hjob
  · obtain rfl := hname c hc
    refine .inl ⟨c, hc, ?_⟩
    rw [settled, Cache.getCluster_eq] at hrow ⊢
    rw [view_foldl_applied hview]
    exact hrow
  · exact .inr hcovered

end Peer

namespace Federation

variable {ι : Type}

/-- A peer with the cache that all of them share. -/
def seen (f : Federation ι) (i : ι) : Peer := { f.peers i with cache := f.cache }

/-- A step of one peer; what it lays in the cache is there for all. -/
inductive Step [DecidableEq ι] (here : Option Local) :
    Federation ι → ι × Peer.Act → Federation ι → Prop
  | peer {f : Federation ι} {p' : Peer} (i : ι) (act : Peer.Act)
      (h : Peer.Step here (f.seen i) act p') :
      Step here f (i, act) ⟨Function.update f.peers i p', p'.cache⟩

/-- The peers before their first steps, and an empty cache. -/
def Initial (f : Federation ι) : Prop := (∀ i, (f.peers i).Initial) ∧ f.cache = Cache.new

/-- Nothing is on its way at any peer. -/
def AtRest (f : Federation ι) : Prop := ∀ i, (f.peers i).AtRest

/-- The invariant: each peer is sound with the cache of all, is known by its name, and writes
    under it; and the cache knows of no others. -/
structure Sound (name : ι → Str) (here : Option Local) (f : Federation ι) : Prop where
  peers : ∀ i, (f.seen i).Sound here
  named : ∀ i c, (f.peers i).driver.watcher.cluster = some c → c = name i
  updates : ∀ i, ∀ u ∈ (f.peers i).updates, u.cluster = name i
  clusters : ∀ c jobs, f.cache.view c = some jobs → ∃ i, c = name i

/-- Peers that start owe nothing to one another. -/
theorem Initial.sound {f : Federation ι} (h : f.Initial) (name : ι → Str) (here : Option Local) :
    f.Sound name here := by
  -- nothing is known, sent or held at the start
  obtain ⟨hpeers, hcache⟩ := h
  refine ⟨fun i => ?_, fun i c hc => ?_, fun i u hu => ?_, fun c jobs hview => ?_⟩
  · obtain ⟨hfolded, hconnected, hheard, hupdates, hfresh, hphase, hmem⟩ := hpeers i
    exact Peer.Initial.sound (p := f.seen i)
      ⟨hfolded, hconnected, hheard, hupdates, hfresh, hphase, hmem⟩ here
  · obtain ⟨-, -, -, -, hfresh, -⟩ := hpeers i
    obtain ⟨endpoint, interval, heq⟩ := hfresh.exists_eq
    rw [heq] at hc
    cases hc
  · obtain ⟨-, -, -, hupdates, -⟩ := hpeers i
    rw [hupdates] at hu
    cases hu
  · rw [hcache] at hview
    cases hview

/-- No peer disturbs another. -/
theorem Sound.step [DecidableEq ι] {name : ι → Str} (hname : Function.Injective name)
    {here : Option Local} {f f' : Federation ι} {act : ι × Peer.Act} (h : f.Sound name here)
    (hcalls : act.2.Calls (name act.1)) (hstep : Step here f act f') : f'.Sound name here := by
  cases hstep with
  | @peer p' i act hstep =>
    have hcluster := hstep.cluster hcalls
    have hcache := hstep.cache
    -- the four parts of the invariant for the peer that moves
    have hsound := (h.peers i).step hstep
    -- what it sends is about its own cluster
    have hupdates : ∀ u ∈ p'.updates, u.cluster = name i := by
      intro u hu
      obtain hu | hsends := hstep.updates hu
      · exact h.updates i u hu
      · obtain ⟨c, hc, -⟩ := hsends.eq
        rw [hsends.cluster hc]
        exact h.named i c hc
    have hnamed : ∀ c, p'.driver.watcher.cluster = some c → c = name i := by
      intro c hc
      obtain hsame | hnew := hcluster
      · exact h.named i c (hsame ▸ hc)
      · exact Option.some.inj (hc.symm.trans hnew)
    -- only the view of this peer's cluster may have changed
    have hviews : ∀ c, c ≠ name i → p'.cache.view c = f.cache.view c := by
      intro c hc
      obtain hsame | ⟨u, hu, happlied⟩ := hcache
      · rw [hsame]
        rfl
      · rw [happlied, Update.view_applied, h.updates i u hu, if_neg (Ne.symm hc)]
        rfl
    -- now for each peer: the one that moved, and the others
    refine ⟨fun j => ?_, fun j c hc => ?_, fun j u hu => ?_, fun c jobs hview => ?_⟩
    · by_cases hj : j = i
      · subst hj
        simpa only [seen, Function.update_self] using hsound
      -- another peer sees its own cluster as it was
      · have hview : p'.cache.view (name j) = (f.seen j).cache.view (name j) :=
          hviews (name j) fun heq => hj (hname heq)
        have hother := (h.peers j).withCache (h.named j) hview
        simpa only [seen, Function.update_of_ne hj] using hother
    · by_cases hj : j = i
      · subst hj
        simp only [Function.update_self] at hc
        exact hnamed c hc
      · simp only [Function.update_of_ne hj] at hc
        exact h.named j c hc
    · by_cases hj : j = i
      · subst hj
        simp only [Function.update_self] at hu
        exact hupdates u hu
      · simp only [Function.update_of_ne hj] at hu
        exact h.updates j u hu
    -- a cluster that has a view is one of the peers'
    · by_cases hc : c = name i
      · exact ⟨i, hc⟩
      · exact h.clusters c jobs (hviews c hc ▸ hview)

/-- What the cluster of a peer runs of a job, in lower case: the addresses of its running tasks. -/
def Runs (f : Federation ι) (here : Option Local) (i : ι) (job : Str) (ip : Ipv4Addr) : Prop :=
  ∃ e ∈ entries (f.peers i).hop.tasks, lowercase e.2.jobName = job ∧
    AddressOf (f.peers i).hop.agents here e ip

/-- At rest the cache holds of each job what the cluster runs of it. -/
theorem Sound.getCluster {name : ι → Str} {here : Option Local} {f : Federation ι}
    (h : f.Sound name here) (hrest : f.AtRest) (i : ι) {job : Str} (hjob : job ≠ []) :
    (f.cache.getCluster (name i) job).getD [] =
      addresses (f.peers i).hop.agents (f.peers i).hop.tasks here job := by
  have hatRest : (f.seen i).AtRest :=
    ⟨(hrest i).connected, (hrest i).owed, (hrest i).heard, (hrest i).phase, (hrest i).due,
      (hrest i).updates⟩
  obtain ⟨c, hc, hrow⟩ := ((h.peers i).covered job hjob).resolve_right (hatRest.not_covered job)
  obtain rfl := h.named i c hc
  rwa [Peer.settled, hatRest.updates] at hrow

/-- At rest the addresses of a job over all clusters are those that some cluster runs. -/
private theorem Sound.mem_merged {name : ι → Str} {here : Option Local} {f : Federation ι}
    (h : f.Sound name here) (hrest : f.AtRest) {job : Str} (hjob : job ≠ []) (ip : Ipv4Addr) :
    ip ∈ (f.cache.merged job).flatten ↔ ∃ i, f.Runs here i job ip := by
  -- an address of the merged list is one of some cluster's view
  simp only [List.mem_flatten, Cache.merged, List.mem_filterMap, Table.mem_values]
  constructor
  -- that view is a peer's, which is at rest
  · rintro ⟨ips, ⟨jobs, ⟨c, hview⟩, hget⟩, hip⟩
    obtain ⟨i, rfl⟩ := h.clusters c jobs hview
    have hrow := h.getCluster hrest i hjob
    rw [Cache.getCluster_eq, Cache.view, hview, Option.bind_some, hget] at hrow
    exact ⟨i, HopDns.mem_addresses.mp (hrow ▸ hip)⟩
  -- for the other direction the peer's own view holds it
  · rintro ⟨i, hruns⟩
    have hmem := HopDns.mem_addresses.mpr hruns
    rw [← h.getCluster hrest i hjob] at hmem
    cases hget : f.cache.getCluster (name i) job with
    | none =>
      rw [hget] at hmem
      cases hmem
    | some ips =>
      rw [hget] at hmem
      obtain ⟨jobs, hview, hrow⟩ := Option.bind_eq_some_iff.mp hget
      exact ⟨ips, ⟨jobs, ⟨name i, hview⟩, hrow⟩, hmem⟩

/-- At rest the answers are right, for clusters of different names with jobs in lower case, and with
    memory in plenty. However the steps of any number of peers interleave, once nothing is on its
    way at any of them, an answer to a question of class IN or ANY for the addresses of a job that
    has no CNAME holds those that the clusters run now, of all clusters or of the one that was asked
    for; each one once, all of them where they fit, and nothing else. -/
theorem answers_atRest [DecidableEq ι] {name : ι → Str} (hname : Function.Injective name)
    {here : Option Local} {f₀ f : Federation ι} {acts : List (ι × Peer.Act)} (h₀ : f₀.Initial)
    (hrun : Run (Step here) f₀ acts f) (hcalls : ∀ act ∈ acts, act.2.Calls (name act.1))
    (hrest : f.AtRest) (s : Server) {msg out : List UInt8} {q : Query} {len : Nat}
    (hq : parseQuery msg = .ok q) (hclass : Server.asksInternet q.qclass = true)
    (htype : Server.asksAddress q.qtype = true) {job : Str} (hjob : job ≠ []) (hdot : dot ∉ job)
    (hlen : (s.handle f.cache msg out).1 = some len) :
    ∃ m, Dns.Message.read ((s.handle f.cache msg out).2.take len) = some m ∧
      (nameText q.qname = some (job ++ dot :: s.domain) →
        s.cnames.lookup (job ++ dot :: s.domain) = none →
          Faithful m (spare q (Server.replyLimit q out)) fun ip =>
            ∃ i, f.Runs here i job ip) ∧
      ∀ i, nameText q.qname = some (job ++ dot :: (name i ++ dot :: s.domain)) →
        s.cnames.lookup (job ++ dot :: (name i ++ dot :: s.domain)) = none →
          Faithful m (spare q (Server.replyLimit q out)) (f.Runs here i job) := by
  -- every call of the run is legitimate, so the federation is sound
  have hsound : f.Sound name here :=
    hrun.keepsWhile (A := fun act => act.2.Calls (name act.1))
      (fun _ _ _ h hA hs => h.step hname hA hs) hcalls (h₀.sound name here)
  -- the reply is read as the one that the server drafted
  obtain ⟨n, hn⟩ := Query.exists_asks hq
  obtain ⟨-, -, hread⟩ := s.read_handle f.cache hq hn hlen
  refine ⟨_, hread, fun hasked hcname => ?_, fun i hasked hcname => ?_⟩
  · -- a single label: the addresses of all clusters together
    have hverdict := (s.verdict_eq f.cache hasked hclass).trans
      (Server.verdictOn_names hcname (.label hdot) q.qtype)
    rw [htype, if_pos rfl] at hverdict
    -- the array of a reply takes each address once, whatever the clusters hold
    refine faithful_of_answers hn (List.nodup_eraseDups _) (fun ip => ?_)
      (answers_replyTo hverdict n _)
    rw [List.mem_eraseDups]
    exact hsound.mem_merged hrest hjob ip
  · -- two labels: the addresses of the one cluster
    have hverdict := (s.verdict_eq f.cache hasked hclass).trans
      (Server.verdictOn_names hcname (.service hdot) q.qtype)
    rw [htype, if_pos rfl, hsound.getCluster hrest i hjob] at hverdict
    exact faithful_of_answers hn (nodup_addresses _ _ _ _)
      (fun _ => HopDns.mem_addresses) (answers_replyTo hverdict n _)

/-- A daemon that follows one cluster. -/
def alone (p : Peer) : Federation Unit := ⟨fun _ => p, p.cache⟩

/-- A peer that is alone takes the steps it takes by itself. -/
theorem run_alone {here : Option Local} {p p' : Peer} {acts : List Peer.Act}
    (h : Run (Peer.Step here) p acts p') :
    Run (Step here) (alone p) (acts.map fun act => ((), act)) (alone p') := by
  induction h with
  | nil p => exact .nil _
  | @cons p p₁ p' act acts hstep _ ih =>
    have hafter : (⟨Function.update (alone p).peers () p₁, p₁.cache⟩ : Federation Unit) =
        alone p₁ := by
      refine congrArg (Federation.mk · p₁.cache) (funext fun i => ?_)
      cases i
      exact Function.update_self ..
    exact .cons (hafter ▸ Step.peer (f := alone p) () act hstep) ih

/-- The one peer starts with its one task. -/
theorem initial_alone : (alone Peer.started).Initial := by
  have hfolded : Peer.started.hop.Folded := by
    unfold Hop.Folded
    decide +kernel
  exact ⟨fun _ => ⟨hfolded, rfl, rfl, rfl,
    ⟨Watcher.peer.endpoint, RECONNECT, [], [], Watcher.peer, rfl, rfl⟩, rfl, rfl⟩, rfl⟩

/-- What happens until the ping was heard. -/
def seeding : List Peer.Act :=
  [.connect, .turn 0, .status 1 (some (str "prod")), .turn 2, .hear 3]

/-- What happens from there until the peer is at rest. -/
def filling : List Peer.Act := [.turn 4, .fetchAgents, .fetchTasks, .apply, .turn 5]

/-- The one peer learns the name of its cluster and hears the ping. -/
theorem run_seeding : Run (Peer.Step none) Peer.started seeding Peer.seeded :=
  .cons (.connect rfl) (.cons (.turn 0 (by decide +kernel))
    (.cons (.status 1 (some (str "prod")) (by decide +kernel))
      (.cons (.turn 2 (by decide +kernel))
        (.single (.hear 3 (.event ⟨some .ping⟩) [] (by decide +kernel) rfl)))))

/-- It fetches all, and lays it in the cache. -/
theorem run_filling : Run (Peer.Step none) Peer.seeded filling Peer.filled := by
  have hrefresh : Run (Peer.Step none) Peer.seeded [.turn 4, .fetchAgents, .fetchTasks]
      Peer.refreshed :=
    .cons (.turn 4 (by decide +kernel)) (.cons (.fetchAgents (by decide +kernel))
      (.single (.fetchTasks Peer.oneTask.agents (by decide +kernel))))
  have hfill : Run (Peer.Step none) Peer.refreshed [.apply, .turn 5] Peer.filled :=
    .cons (.apply (.replace (str "prod") (viewOf Peer.oneTask.agents Peer.oneTask.tasks none)) []
      (by decide +kernel)) (.single (.turn 5 (by decide +kernel)))
  exact hrefresh.append hfill

theorem prod_name : lowercase (trim (str "prod")) = str "prod" := by decide +kernel

/-- The one task of the one cluster. -/
theorem answers_atRest_alone :
    ∃ m, Dns.Message.read (((⟨DEFAULT_DOMAIN, CNAMEs.default⟩ : Server).handle Peer.filled.cache
        (queryFor Server.webName rtype.A) (List.replicate 1232 0)).2.take 63) = some m ∧
      Faithful m
        (spare (queryOf Server.webName rtype.A) (Server.replyLimit (queryOf Server.webName rtype.A)
          (List.replicate 1232 0)))
        ((alone Peer.filled).Runs none () (str "web")) := by
  -- the six parts of being at rest, by running the example
  have hrest : Peer.filled.AtRest :=
    ⟨rfl, rfl, rfl, by decide +kernel, by decide +kernel, rfl⟩
  -- the run seeds the peer and fills its cache
  obtain ⟨m, hread, -, hcluster⟩ := @answers_atRest Unit _ (fun _ => str "prod")
    (Function.injective_of_subsingleton _) none _ _ _ initial_alone
    (run_alone (run_seeding.append run_filling))
    (by simp [seeding, filling, Peer.Act.Calls, prod_name]) (fun _ => hrest)
    ⟨DEFAULT_DOMAIN, CNAMEs.default⟩ _ (List.replicate 1232 0) _ 63
    (parseQuery_queryFor Server.webName rtype.A) (by decide) rfl (str "web") (by decide)
    (by decide) (by decide +kernel)
  exact ⟨m, hread, hcluster () (by decide +kernel) (by decide +kernel)⟩

end Federation

end HopDns

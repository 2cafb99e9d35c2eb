import HopDns.Spec.AnswerCorrect
import HopDns.Spec.CacheInvariant
import HopDns.Spec.DaemonCorrect

/-!
# Where an address comes from

No address is made up. Whatever the interleaving, the addresses in the cache and in every
answer are those of running tasks of the job, as some peer was told by Hop, and they are
kept under the name that this peer's cluster gave itself.

## Key results

- `Loop.Grounded.step`: what a loop knows and sends it was told
- `Daemon.Grounded.step`: what is in the cache comes from the loops
- `Daemon.answers_grounded`: no answer holds an address that was not told
-/

namespace HopDns

open ForStd
open Reply (aRecord)

/-- The message puts the address under the job of the cluster. -/
def Update.Holds : Update → Str → Str → Ipv4Addr → Prop
  | .replace c jobs, cluster, job, ip => c = cluster ∧ ∃ ips, jobs.get job = some ips ∧ ip ∈ ips
  | .set c j ips, cluster, job, ip => c = cluster ∧ j = job ∧ ip ∈ ips

/-- The address is that of a running task of the job, in an answer of Hop. -/
def Reported (agents : List AgentInfo) (tasks : List AgentTasks) (here : Option Local) (job : Str)
    (ip : Ipv4Addr) : Prop :=
  ∃ e ∈ entries tasks, lowercase e.2.jobName = job ∧ AddressOf agents here e ip

namespace Loop

variable {p : Platform} {acts : List Act} {l l' : Loop} {act : Act}

/-- The cluster gave itself the name, up to its case and the white space around it. -/
def Named (acts : List Act) (cluster : Str) : Prop :=
  ∃ now name, Act.status now (some name) ∈ acts ∧ lowercase (trim name) = cluster

/-- The loop was told that a task of the job runs at the address: by `/v1/tasks`, with agents it
    had from `/v1/agents`, or by the status of a job. -/
def Told (p : Platform) (acts : List Act) (job : Str) (ip : Ipv4Addr) : Prop :=
  (∃ now now' agents tasks here result, Act.agents now agents ∈ acts ∧
    Act.tasks now' tasks here result ∈ acts ∧ p.Knows here ∧ Reported agents tasks here job ip) ∨
  ∃ now status here result, Act.job now status here result ∈ acts ∧ p.Knows here ∧
    Reported status.agents status.tasks here job ip

/-- A cluster that was named stays so. -/
private theorem Named.mono {acts' : List Act} {cluster : Str} (h : Named acts cluster)
    (hsub : acts ⊆ acts') : Named acts' cluster := by
  obtain ⟨now, name, hmem, hname⟩ := h
  exact ⟨now, name, hsub hmem, hname⟩

/-- An address that was told stays so. -/
private theorem Told.mono {acts' : List Act} {job : Str} {ip : Ipv4Addr} (h : Told p acts job ip)
    (hsub : acts ⊆ acts') : Told p acts' job ip := by
  obtain ⟨now, now', agents, tasks, here, result, hagents, htasks, hip⟩ |
    ⟨now, status, here, result, hjob, hip⟩ := h
  · exact .inl ⟨now, now', agents, tasks, here, result, hsub hagents, hsub htasks, hip⟩
  · exact .inr ⟨now, status, here, result, hsub hjob, hip⟩

/-- What the loop knows and what it has sent it was told before. -/
structure Grounded (p : Platform) (acts : List Act) (l : Loop) : Prop where
  cluster : ∀ c, l.driver.watcher.cluster = some c → Named acts c
  agents : ∀ agents, l.driver.phase = .tasks agents → ∃ now, Act.agents now agents ∈ acts
  sent : ∀ u ∈ l.sent, ∀ c job ip, u.Holds c job ip → Named acts c ∧ Told p acts job ip

/-- A loop that starts has nothing to account for. -/
private theorem Initial.grounded (h : l.Initial) : Grounded p [] l := by
  obtain ⟨endpoint, mem, hnew, hphase, hsent⟩ := h
  have hyields : Yields (Watcher.new endpoint) (.ok
      { endpoint, cluster := none, retryAt := 0, due := none, full := false, jobs := [],
        interval := RECONNECT, debounce := DEBOUNCE }) :=
    (owned_yields endpoint).bind (Computes.pure _)
  have hwatcher := Except.ok.inj (hyields.eq_of_ok hnew)
  refine ⟨fun c hc => ?_, fun agents hagents => ?_, fun u hu => ?_⟩
  · rw [← hwatcher] at hc
    cases hc
  · rw [hphase] at hagents
    cases hagents
  · rw [hsent] at hu
    cases hu

/-- The cluster is learnt from `/v1/status` only. -/
theorem Step.cluster (h : Step p l act l') :
    l'.driver.watcher.cluster = l.driver.watcher.cluster ∨
      ∃ now name, act = .status now (some name) ∧
        l'.driver.watcher.cluster = some (lowercase (trim name)) := by
  cases h with
  -- a turn keeps what the watcher knows of its cluster
  | turn now began =>
    refine .inl ?_
    obtain ⟨-, -, hwatcher, -⟩ | ⟨-, hwatcher, -⟩ := l.driver.turn_cases now <;>
      simp only [hwatcher]
    rfl
  | status now name =>
    cases name with
    | none => exact .inl rfl
    | some name =>
      -- `discovered` goes through, or it finds no memory and changes nothing
      obtain hstate | hstate :=
        (Watcher.discovered_commits l.driver.watcher now name).state l.driver.mem
      · -- a blank name is as good as none
        have hlearns : (l.driver.watcher.learns now name).cluster = l.driver.watcher.cluster ∨
            (l.driver.watcher.learns now name).cluster = some (lowercase (trim name)) := by
          unfold Watcher.learns
          split
          · exact .inl rfl
          · exact .inr rfl
        obtain hsame | hnew := hlearns
        · exact .inl ((congrArg Watcher.cluster hstate).trans hsame)
        · exact .inr ⟨now, name, rfl, (congrArg Watcher.cluster hstate).trans hnew⟩
      · exact .inl (congrArg Watcher.cluster hstate)
  | agents now agents => exact .inl rfl
  -- a fetch that ends keeps the cluster, with a message and without one
  | @tasks mem result now agents tasks here _ _ _ hresult =>
    rw [goOn, l.driver.gotTasks_eq hresult]
    exact .inl rfl
  | @job mem result now all job rest status here _ _ _ hresult =>
    refine .inl ?_
    cases result with
    | ok u =>
      rw [goOn, l.driver.gotJob_ok _ all rest hresult]
      exact congrArg Watcher.cluster (Driver.askJobs_frame _ all rest).1
    | error e =>
      rw [goOn, l.driver.gotJob_error _ all rest hresult]
      rfl
  | failed now what => exact .inl rfl
  | hear now h =>
    -- a notification only adds to what is pending
    refine .inl ?_
    cases h with
    | lost => rfl
    | event ev =>
      obtain hstate | hstate :=
        (Watcher.event_commits l.driver.watcher now ev).state l.driver.mem
      · exact (congrArg Watcher.cluster hstate).trans (Watcher.cluster_hears _ now ev)
      · exact congrArg Watcher.cluster hstate
  | timeout now => exact .inl rfl

/-- The agents the loop holds on to are those it was given in this step. -/
private theorem Step.agents_eq (h : Step p l act l') {agents : List AgentInfo}
    (hphase : l'.driver.phase = .tasks agents) : ∃ now, act = .agents now agents := by
  -- only the answer to the agents leads into this phase
  cases h with
  | turn now began =>
    -- a turn asks for the status, the agents or a job, never at once for the tasks
    have hturn : (l.driver.turn now).phase ≠ .tasks agents := by
      unfold Driver.turn
      split
      · exact fun h => by cases h
      · exact fun h => by cases h
      · exact (Driver.askJobs_frame _ _ _).2.2 agents
      · exact fun h => by cases h
    exact absurd hphase hturn
  | status now name => cases name <;> cases hphase
  | agents now agents' =>
    cases hphase
    exact ⟨now, rfl⟩
  -- the task list ends the refresh and a job leads to the next one
  | @tasks mem result now agents' tasks here _ _ _ hresult =>
    rw [goOn, l.driver.gotTasks_eq hresult] at hphase
    cases hphase
  | @job mem result now all job rest status here _ _ _ hresult =>
    cases result with
    | ok u =>
      rw [goOn, l.driver.gotJob_ok _ all rest hresult] at hphase
      exact absurd hphase ((Driver.askJobs_frame _ all rest).2.2 agents)
    | error e =>
      rw [goOn, l.driver.gotJob_error _ all rest hresult] at hphase
      cases hphase
  | failed now what => cases hphase
  | hear now h => cases h <;> cases hphase
  | timeout now => cases hphase

/-- A message that is sent is the view of the tasks, or the addresses of the job, that the loop
    was told in this step, for the cluster it knows. -/
theorem Step.sends (h : Step p l act l') {u : Update} (hu : u ∈ l'.sent) :
    u ∈ l.sent ∨ ∃ c, l.driver.watcher.cluster = some c ∧
      ((∃ now agents tasks here result, l.driver.phase = .tasks agents ∧ p.Knows here ∧
          act = .tasks now tasks here result ∧ u = .replace c (viewOf agents tasks here)) ∨
        ∃ now job status here result, p.Knows here ∧ act = .job now status here result ∧
          u = .set c (lowercase job)
            (addresses status.agents status.tasks here (lowercase job))) := by
  -- most steps send nothing
  have hnone : ∀ {us : List Update}, us = [] → u ∈ l.sent ++ us → u ∈ l.sent := by
    intro us hus hmem
    rwa [hus, List.append_nil] at hmem
  cases h with
  | turn now began => exact .inl hu
  | status now name => exact .inl (hnone rfl hu)
  | agents now agents => exact .inl (hnone rfl hu)
  | @tasks mem result now agents tasks here hphase _ hhere hresult =>
    rw [goOn, l.driver.gotTasks_eq hresult] at hu
    cases result with
    | error e => exact .inl (hnone rfl hu)
    -- the full view, under the cluster that the watcher learned
    | ok u' =>
      obtain hu | hu := List.mem_append.mp hu
      · exact .inl hu
      · obtain rfl := List.mem_singleton.mp hu
        obtain ⟨c, hc, heq⟩ := Watcher.refreshedFull_eq_ok hresult
        exact .inr ⟨c, hc, .inl ⟨now, agents, tasks, here, _, hphase, hhere, rfl, heq⟩⟩
  | @job mem result now all job rest status here _ _ hhere hresult =>
    cases result with
    | error e =>
      rw [goOn, l.driver.gotJob_error _ all rest hresult] at hu
      exact .inl (hnone rfl hu)
    -- the addresses of one job, under the same cluster
    | ok u' =>
      rw [goOn, l.driver.gotJob_ok _ all rest hresult] at hu
      obtain hu | hu := List.mem_append.mp hu
      · exact .inl hu
      · obtain rfl := List.mem_singleton.mp hu
        obtain ⟨c, hc, heq⟩ := Watcher.refreshedJob_eq_ok hresult
        exact .inr ⟨c, hc, .inr ⟨now, job, status, here, _, hhere, rfl, heq⟩⟩
  | failed now what => exact .inl (hnone rfl hu)
  | hear now h => exact .inl (hnone rfl hu)
  | timeout now => exact .inl (hnone rfl hu)

/-- A step keeps a loop grounded, in what it was told up to and with that step. -/
theorem Grounded.step (h : Grounded p acts l) (hstep : Step p l act l') :
    Grounded p (acts ++ [act]) l' := by
  have hsub : acts ⊆ acts ++ [act] := List.subset_append_left _ _
  have hlast : act ∈ acts ++ [act] := List.mem_append_right _ List.mem_cons_self
  -- the three parts: the cluster, the agents that are held, and what was sent
  refine ⟨fun c hc => ?_, fun agents hphase => ?_, fun u hu c job ip hholds => ?_⟩
  -- the cluster is the old one or the one just told
  · obtain hsame | ⟨now, name, rfl, hnew⟩ := hstep.cluster
    · exact (h.cluster c (hsame.symm.trans hc)).mono hsub
    · exact ⟨now, name, hlast, Option.some.inj (hnew.symm.trans hc)⟩
  · obtain ⟨now, rfl⟩ := hstep.agents_eq hphase
    exact ⟨now, hlast⟩
  -- what was sent before has its report already
  · obtain hu | ⟨c', hc', ⟨now, agents, tasks, here, result, hphase, hhere, rfl, rfl⟩ |
      ⟨now, job', status, here, result, hhere, rfl, rfl⟩⟩ := hstep.sends hu
    · obtain ⟨hnamed, htold⟩ := h.sent u hu c job ip hholds
      exact ⟨hnamed.mono hsub, htold.mono hsub⟩
    · -- the rows of a view are the addresses of the jobs
      obtain ⟨rfl, ips, hget, hip⟩ := hholds
      have hgetD := getD_viewOf agents tasks here job
      rw [hget] at hgetD
      obtain ⟨now', hagents⟩ := h.agents agents hphase
      exact ⟨(h.cluster c' hc').mono hsub, .inl ⟨now', now, agents, tasks, here, result,
        hsub hagents, hlast, hhere, mem_addresses.mp (hgetD ▸ hip)⟩⟩
    -- a job's addresses come out of the status just read
    · obtain ⟨rfl, rfl, hip⟩ := hholds
      exact ⟨(h.cluster c' hc').mono hsub,
        .inr ⟨now, status, here, result, hlast, hhere, mem_addresses.mp hip⟩⟩

end Loop

namespace Daemon

variable {ι α : Type} [DecidableEq ι] {p : Platform} {acts : List (Act ι α)}

/-- The step of the loop of one peer. -/
def Act.of (i : ι) : Act ι α → Option Loop.Act
  | .peer j act => if j = i then some act else none
  | _ => none

/-- Some peer, whose cluster gave itself the name, was told that a task of the job runs at the
    address. -/
def Backed (p : Platform) (acts : List (Act ι α)) (cluster job : Str) (ip : Ipv4Addr) : Prop :=
  ∃ i, Loop.Named (acts.filterMap (Act.of i)) cluster ∧
    Loop.Told p (acts.filterMap (Act.of i)) job ip

/-- What backs an address backs it for ever. -/
private theorem Backed.mono {act : Act ι α} {cluster job : Str} {ip : Ipv4Addr}
    (h : Backed p acts cluster job ip) : Backed p (acts ++ [act]) cluster job ip := by
  obtain ⟨i, hnamed, htold⟩ := h
  have hsub : acts.filterMap (Act.of i) ⊆ (acts ++ [act]).filterMap (Act.of i) := by
    rw [List.filterMap_append]
    exact List.subset_append_left _ _
  exact ⟨i, hnamed.mono hsub, htold.mono hsub⟩

/-- What the loops know, what is on its way and what is in the cache was told before. -/
structure Grounded (p : Platform) (acts : List (Act ι α)) (d : Daemon ι) : Prop where
  loops : ∀ i, Loop.Grounded p (acts.filterMap (Act.of i)) (d.loops i)
  bus : ∀ u ∈ d.bus, ∃ i, u ∈ (d.loops i).sent
  cache : ∀ cluster job ips, d.owner.cache.getCluster cluster job = some ips →
    ∀ ip ∈ ips, Backed p acts cluster job ip

/-- A daemon that starts has an empty cache and nothing on its way. -/
private theorem Initial.grounded {d : Daemon ι} (h : d.Initial p) : Grounded p
    ([] : List (Act ι α)) d where
  loops := fun i => (h.loops i).grounded
  bus := fun u hu => by rw [h.bus] at hu; cases hu
  cache := fun cluster job ips hget => by rw [h.cache] at hget; cases hget

/-- What is in the cache after a message was there before, or came with the message. -/
private theorem getCluster_apply {o : Owner} {u : Update} {cluster job : Str} {ips : List Ipv4Addr}
    (h : (o.apply u).cache.getCluster cluster job = some ips) :
    o.cache.getCluster cluster job = some ips ∨ ∀ ip ∈ ips, u.Holds cluster job ip := by
  -- the message is applied, or it finds no memory and the cache stays
  obtain happlied | hsame := (Update.apply_commits o.cache u).state o.mem
  · have hcache : (o.apply u).cache = Update.applied o.cache u := happlied
    rw [hcache, Cache.getCluster_eq, Update.view_applied] at h
    split at h
    · rename_i hcluster
      rw [Option.bind_some] at h
      -- a full view replaces every row, so the address is one of its own
      cases u with
      | replace c jobs => exact .inr fun ip hip => ⟨hcluster, ips, h, hip⟩
      | set c j ips' =>
        simp only [Update.change, Table.get_put] at h
        split at h
        · rename_i hjob
          -- the row that the message sets
          obtain rfl := Option.some.inj h
          exact .inr fun ip hip => ⟨hcluster, hjob.symm, hip⟩
        · -- another row of the same cluster
          refine .inl ?_
          rw [Cache.getCluster_eq]
          cases hview : o.cache.view cluster with
          | none =>
            rw [hview] at h
            cases h
          | some jobs =>
            rw [hview] at h
            exact h
    · exact .inl h
  · have hcache : (o.apply u).cache = o.cache := hsame
    rw [hcache] at h
    exact .inl h

/-- The messages a loop has sent are there after a step of any loop. -/
private theorem mem_sent_update {d : Daemon ι} {i j : ι} {act : Loop.Act} {l : Loop}
    (h : Loop.Step p (d.loops i) act l) {u : Update} (hu : u ∈ (d.loops j).sent) :
    u ∈ (Function.update d.loops i l j).sent := by
  by_cases hj : j = i
  · subst hj
    obtain ⟨us, hus⟩ := h.sent
    rw [Function.update_self, hus]
    exact List.mem_append_left _ hu
  · rwa [Function.update_of_ne hj]

/-- A step keeps a daemon grounded, in what its peers were told up to and with that step. -/
theorem Grounded.step {d d' : Daemon ι} {act : Act ι α} (h : Grounded p acts d)
    (hstep : Step p d act d') : Grounded p (acts ++ [act]) d' := by
  -- the steps of `serve` and the channel tell the loops nothing
  have hsame : (∀ i, Act.of i act = none) →
      ∀ i, Loop.Grounded p ((acts ++ [act]).filterMap (Act.of i)) (d.loops i) := by
    intro hnone i
    rw [List.filterMap_append, List.filterMap_cons_none (hnone i), List.filterMap_nil,
      List.append_nil]
    exact h.loops i
  -- a report once made stays made
  have hcache : ∀ cluster job ips, d.owner.cache.getCluster cluster job = some ips →
      ∀ ip ∈ ips, Backed p (acts ++ [act]) cluster job ip :=
    fun cluster job ips hget ip hip => (h.cache cluster job ips hget ip hip).mono
  cases hstep with
  | peer i act hheld hstep =>
    -- the peer that moved, and the others
    refine ⟨fun j => ?_, fun u hu => ?_, hcache⟩
    · rw [List.filterMap_append]
      by_cases hj : i = j
      · subst hj
        simpa [Act.of] using (h.loops i).step hstep
      · simpa [Act.of, hj, Function.update_of_ne (Ne.symm hj)] using h.loops j
    · obtain ⟨j, hj⟩ := h.bus u hu
      exact ⟨j, mem_sent_update hstep hj⟩
  -- a message that is posted was sent by its loop
  | post i u hheld hroom =>
    refine ⟨hsame fun _ => rfl, fun u' hu' => ?_, hcache⟩
    obtain hu' | hu' := List.mem_append.mp hu'
    · exact h.bus u' hu'
    · rw [List.mem_singleton.mp hu']
      exact ⟨i, List.mem_of_getElem? hheld⟩
  | take u rest hbus hstand =>
    refine ⟨hsame fun _ => rfl, fun u' hu' => h.bus u' (by rw [hbus]; exact .tail _ hu'),
      fun cluster job ips hget ip hip => ?_⟩
    obtain hbefore | hholds := getCluster_apply hget
    · exact hcache cluster job ips hbefore ip hip
    · -- the message is one of a loop, which was told
      obtain ⟨i, hi⟩ := h.bus u (by rw [hbus]; exact .head _)
      obtain ⟨hnamed, htold⟩ := (h.loops i).sent u hi cluster job ip (hholds ip hip)
      exact Backed.mono ⟨i, hnamed, htold⟩
  -- the end of a batch leaves the cache alone
  | empty hbus hstand =>
    refine ⟨hsame fun _ => rfl, h.bus, ?_⟩
    rw [(endBatch_frame p d.owner).2.2.1]
    exact hcache
  | question asker datagram hstand => exact ⟨hsame fun _ => rfl, h.bus, hcache⟩
  | quiet hstand => exact ⟨hsame fun _ => rfl, h.bus, hcache⟩
  | failed hp hstand => exact ⟨hsame fun _ => rfl, h.bus, hcache⟩

/-- Whatever a run has led to, every address is accounted for. -/
theorem grounded_run {d₀ d : Daemon ι} (h₀ : d₀.Initial p) (hrun : Run (Step p) d₀ acts d) :
    Grounded p acts d :=
  hrun.history (I := Grounded p) h₀.grounded fun _ _ _ _ h hstep => h.step hstep

/-! ## The answers -/

/-- The addresses a name of the domain has in the cache are of a job that the name asks for, in
    a cluster it asks for. -/
theorem exists_getCluster_of_names {s : Server} {cache : Cache} {name : Str} {known : Bool}
    {all : List Ipv4Addr} (h : s.Names cache name known all) {ip : Ipv4Addr} (hip : ip ∈ all) :
    ∃ cluster job ips, cache.getCluster cluster job = some ips ∧ ip ∈ ips ∧
      (name = job ++ dot :: s.domain ∨ name = job ++ dot :: (cluster ++ dot :: s.domain)) := by
  -- the name is no name of the tree, a job under a cluster, or a job alone
  obtain _ | @⟨service, cluster, hdot⟩ | @⟨job, hdot⟩ := h
  · cases hip
  · cases hget : cache.getCluster cluster service with
    | none =>
      rw [hget] at hip
      cases hip
    | some ips =>
      rw [hget] at hip
      exact ⟨cluster, service, ips, hget, hip, .inr rfl⟩
  -- a job alone is read over all clusters, and the address is one cluster's
  · obtain ⟨ips, hips, hip⟩ := List.mem_flatten.mp (List.mem_eraseDups.mp hip)
    obtain ⟨jobs, hjobs, hget⟩ := List.mem_filterMap.mp hips
    obtain ⟨cluster, hcluster⟩ := (Table.mem_values _ _).mp hjobs
    exact ⟨cluster, job, ips, Option.bind_eq_some_iff.mpr ⟨jobs, hcluster, hget⟩, hip, .inl rfl⟩

/-- The A records of an answer are addresses that the cache has for the name. -/
private theorem exists_of_respond {s : Server} {cache : Cache} {msg bytes : List UInt8}
    (h : s.respond cache msg = some bytes) :
    ∃ m, Dns.Message.read bytes = some m ∧ ∀ rr ∈ addressRecords m,
      ∃ q name ip cluster job ips, parseQuery msg = .ok q ∧ nameText q.qname = some name ∧
        (name = job ++ dot :: s.domain ∨ name = job ++ dot :: (cluster ++ dot :: s.domain)) ∧
        rr = aRecord ip TTL ∧ cache.getCluster cluster job = some ips ∧ ip ∈ ips := by
  -- no reply at all, or one that was drafted
  obtain hdrop | ⟨d, hd⟩ := @Server.dropped_or_drafted (List.replicate EDNS_MAX 0) s cache msg
    (by rw [List.length_replicate]; decide)
  · rw [Server.respond_of_drop hdrop] at h
    cases h
  · rw [hd.respond_eq] at h
    obtain rfl := Option.some.inj h
    refine ⟨_, hd.sound.read_closed, fun rr hrr => ?_⟩
    cases hd with
    | bare hq hout => cases hrr
    -- of the drafted replies only one out of the zone holds address records
    | @answer q n hq hn hfits =>
      obtain hnone | ⟨known, ips, zone, hverdict, hrecords⟩ :=
        addressRecords_render (d := Reply.startDraft q n) rfl
          (Server.replyLimit q (List.replicate EDNS_MAX 0)) (s.verdict cache q)
      · rw [Server.replyDraft, hnone] at hrr
        cases hrr
      · rw [Server.replyDraft, hrecords] at hrr
        obtain ⟨ip, hip, rfl⟩ := List.mem_map.mp hrr
        have hips : ip ∈ ips := List.mem_of_mem_take hip
        -- the addresses are the named ones, or there are none
        obtain ⟨name, hname, -, ⟨-, all, hnames, rfl | rfl⟩ | ⟨-, rfl, -, -⟩⟩ :=
          Server.verdict_eq_zone hn hverdict
        · obtain ⟨cluster, job, row, hget, hrow, hform⟩ := exists_getCluster_of_names hnames hips
          exact ⟨q, name, ip, cluster, job, row, hq, hn.qname ▸ hname, hform, rfl, hget, hrow⟩
        · cases hips
        · cases hips

/-- No address is made up. Every A record in every answer that a run of the daemon gives is the
    address of a running task of the job that was asked for, as a peer was told before that
    answer, in a cluster that was asked for, by the name which that cluster gave itself. -/
theorem answers_grounded {d₀ d d' : Daemon ι} {asker : α} {datagram bytes : List UInt8}
    (h₀ : d₀.Initial p) (hrun : Run (Step p) d₀ acts d)
    (hstep : Step p d (.question asker datagram (some bytes)) d') :
    ∃ m, Dns.Message.read bytes = some m ∧ ∀ rr ∈ addressRecords m,
      ∃ q name ip cluster job, parseQuery (datagram.take p.QUERY_MAX) = .ok q ∧
        nameText q.qname = some name ∧
        (name = job ++ dot :: d₀.owner.server.domain ∨
          name = job ++ dot :: (cluster ++ dot :: d₀.owner.server.domain)) ∧
        rr = aRecord ip TTL ∧ Backed p acts cluster job ip := by
  -- the answer is the one that the ledger's store gives
  obtain ⟨k, h, -⟩ := Follows.exists_log h₀ hrun
  have hgrounded := grounded_run h₀ hrun
  obtain ⟨m, hm, hrecords⟩ := exists_of_respond (h.reply_eq hstep).symm
  refine ⟨m, hm, fun rr hrr => ?_⟩
  obtain ⟨q, name, ip, cluster, job, ips, hq, hname, hform, hrr, hget, hip⟩ := hrecords rr hrr
  exact ⟨q, name, ip, cluster, job, hq, hname, hform, hrr,
    hgrounded.cache cluster job ips hget ip hip⟩

/-- The answer of the daemon with one peer. -/
def webAnswer : List UInt8 :=
  ((stocked .hopos).owner.reply ((queryFor Server.webName rtype.A).take 1500)).1.getD []

/-- The one address of the one task. -/
theorem answers_grounded_web :
    ∃ m, Dns.Message.read webAnswer = some m ∧ ∀ rr ∈ addressRecords m,
      ∃ q name ip cluster job,
        parseQuery ((queryFor Server.webName rtype.A).take 1500) = .ok q ∧
        nameText q.qname = some name ∧
        (name = job ++ dot :: DEFAULT_DOMAIN ∨
          name = job ++ dot :: (cluster ++ dot :: DEFAULT_DOMAIN)) ∧
        rr = aRecord ip TTL ∧ Backed .hopos (stocks .hopos) cluster job ip := by
  have hanswer : ((stocked .hopos).owner.reply
      ((queryFor Server.webName rtype.A).take Platform.hopos.QUERY_MAX)).1 = some webAnswer := by
    decide +kernel
  have hstep := Step.question (p := .hopos) (d := stocked .hopos) ()
    (queryFor Server.webName rtype.A) rfl
  rw [hanswer] at hstep
  exact answers_grounded (alone_initial .hopos) (stocks_run .hopos) hstep

end Daemon

end HopDns

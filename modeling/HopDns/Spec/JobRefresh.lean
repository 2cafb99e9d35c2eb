import HopDns.Spec.Coalesce
import HopDns.Spec.Peer

/-!
# A job by the name Hop gives it

An event names a job in the letters Hop spells it with. `event` puts the name in lower
case on its list, and so the refresh asks Hop for the job that is spelled in lower case.
A leader that tells jobs apart by their exact name then answers with the tasks of that
job, or with none.

## Key results

- `CarriedOut.getCluster`: the row of a job after a refresh of jobs
- `full_refreshes`: a full refresh keeps every address of every job
- `Watcher.job_refreshed_iff`: when the refresh after an event keeps those of the job it names
-/

namespace HopDns

open ForStd

/-- The addresses of the running tasks of a job, by its exact name. -/
def Hop.addressesOf (h : Hop) (here : Option Local) (job : Str) : List Ipv4Addr :=
  addressesIn h.agents here (h.named job)

/-- What `refresh` makes of the list of a refresh of jobs: the status of each is fetched, made
    into a message, and the message laid in the cache. -/
inductive CarriedOut (h : Hop) (here : Option Local) (w : Watcher) :
    List Str → Cache → Cache → Prop where
  | nil (cache : Cache) : CarriedOut h here w [] cache cache
  | cons {name : Str} {names : List Str} {cache cache₁ cache' : Cache} {status : JobStatus}
      {u : Update} {mem mem₁ mem₂ mem₃ : Mem} (hstatus : h.StatusOf name status)
      (hbuilt : (w.refreshedJob name status here).run mem = (.ok u, mem₁))
      (happlied : u.apply.run (cache, mem₂) = (.ok (), cache₁, mem₃))
      (hrest : CarriedOut h here w names cache₁ cache') :
      CarriedOut h here w (name :: names) cache cache'

/-- Every address of the job is in the cache, under the name in lower case. -/
def Refreshed (h : Hop) (here : Option Local) (cluster job : Str) (cache : Cache) : Prop :=
  ∀ ip ∈ h.addressesOf here job,
    ∃ ips, cache.getCluster cluster (lowercase job) = some ips ∧ ip ∈ ips

/-! ## The refresh of a list of jobs -/

/-- The status of a job gives the addresses of the tasks with its exact name. -/
private theorem Hop.StatusOf.addresses_eq {h : Hop} {job : Str} {status : JobStatus}
    (hstatus : h.StatusOf job status) (here : Option Local) :
    addresses status.agents status.tasks here (lowercase job) = h.addressesOf here job := by
  have hall : ∀ e ∈ h.named job, jobOf e = lowercase job := by
    intro e he
    have hname : e.2.jobName = job := by simpa using (List.mem_filter.mp he).2
    rw [jobOf, hname]
  have hfilter : (h.named job).filter (fun e => jobOf e = lowercase job) = h.named job :=
    List.filter_eq_self.mpr fun e he => by simpa using hall e he
  rw [addresses, hstatus.tasks, hstatus.agents, hfilter]
  rfl

namespace CarriedOut

variable {h : Hop} {here : Option Local} {w : Watcher} {c : Str} (hc : w.cluster = some c)

include hc

/-- One job of the list: its row is that of its exact name, and no other row changes. -/
theorem step {name : Str} {cache cache₁ : Cache} {status : JobStatus} {u : Update}
    {mem mem₁ mem₂ mem₃ : Mem} (hstatus : h.StatusOf name status)
    (hbuilt : (w.refreshedJob name status here).run mem = (.ok u, mem₁))
    (happlied : u.apply.run (cache, mem₂) = (.ok (), cache₁, mem₃)) (job : Str) :
    cache₁.getCluster c job =
      if job = lowercase name then some (h.addressesOf here name) else cache.getCluster c job := by
  have hu := (Watcher.refreshedJob_yields hc name status here).eq_of_ok hbuilt
  obtain rfl := Except.ok.inj hu
  obtain ⟨-, rfl⟩ := (Update.apply_commits cache _).eq_of_ok happlied
  rw [Update.getCluster_set, hstatus.addresses_eq]

/-- A row whose job is not on the list stays. -/
private theorem getCluster_other {names : List Str} {cache cache' : Cache}
    (hcarried : CarriedOut h here w names cache cache')
    (hfolded : ∀ name ∈ names, lowercase name = name) {job : Str} (hjob : job ∉ names) :
    cache'.getCluster c job = cache.getCluster c job := by
  induction hcarried with
  | nil cache => rfl
  | @cons name names _ _ _ _ _ _ _ _ _ hstatus hbuilt happlied _ ih =>
    -- the first name is in the list, and the job is not
    have hne : job ≠ lowercase name := by
      rw [hfolded name List.mem_cons_self]
      exact List.ne_of_not_mem_cons hjob
    have hrest := ih (fun name' hname' => hfolded name' (List.mem_cons_of_mem name hname'))
      (List.not_mem_of_not_mem_cons hjob)
    -- the row that is set is another one, and the rest leaves this one alone
    rw [hrest, step hc hstatus hbuilt happlied, if_neg hne]

/-- The row of a job on the list holds the addresses of the tasks with the exact name that is
    on the list. -/
theorem getCluster {names : List Str} {cache cache' : Cache}
    (hcarried : CarriedOut h here w names cache cache')
    (hfolded : ∀ name ∈ names, lowercase name = name) (hdistinct : names.Nodup)
    {job : Str} (hjob : job ∈ names) : cache'.getCluster c job = some (h.addressesOf here job) := by
  -- induction on the names as they are carried out, one status after the other
  induction hcarried with
  | nil cache => exact absurd hjob List.not_mem_nil
  | @cons name names _ _ _ _ _ _ _ _ _ hstatus hbuilt happlied hrest ih =>
    have hfolded' : ∀ name' ∈ names, lowercase name' = name' :=
      fun name' hname' => hfolded name' (List.mem_cons_of_mem name hname')
    obtain ⟨hnew, hdistinct'⟩ := List.nodup_cons.mp hdistinct
    obtain rfl | hjob := List.mem_cons.mp hjob
    · -- its own status comes first, and no later one touches its row
      rw [hrest.getCluster_other hc hfolded' hnew, step hc hstatus hbuilt happlied,
        if_pos (hfolded job List.mem_cons_self).symm]
    · exact ih hfolded' hdistinct' hjob

/-- With memory in plenty, a refresh of one job is carried out. -/
theorem single {name : Str} {status : JobStatus} (hstatus : h.StatusOf name status)
    (cache : Cache) :
    CarriedOut h here w [name] cache
      (Update.applied cache (.set c (lowercase name) (h.addressesOf here name))) := by
  have hbuilt := (Watcher.refreshedJob_yields hc name status here).ample
  rw [hstatus.addresses_eq] at hbuilt
  exact .cons hstatus hbuilt (Update.apply_commits cache _).ample (.nil _)

end CarriedOut

/-! ## A full refresh -/

/-- A full refresh keeps every address of every job, whatever the letters of its name. -/
theorem full_refreshes (h : Hop) (here : Option Local) (cluster job : Str) (cache : Cache) :
    Refreshed h here cluster job
      (Update.applied cache (.replace cluster (viewOf h.agents h.tasks here))) := by
  intro ip hip
  have hmem : ip ∈ addresses h.agents h.tasks here (lowercase job) := by
    simp only [Hop.addressesOf, addressesIn, List.mem_eraseDups, List.mem_filterMap] at hip
    obtain ⟨e, he, hip⟩ := hip
    obtain ⟨hentry, hname⟩ := List.mem_filter.mp he
    have hname : e.2.jobName = job := by simpa using hname
    exact mem_addresses.mpr ⟨e, hentry, by rw [jobOf, hname], addressOf_eq_some.mp hip⟩
  have hne : addresses h.agents h.tasks here (lowercase job) ≠ [] := List.ne_nil_of_mem hmem
  refine ⟨_, ?_, hmem⟩
  rw [Update.getCluster_replace, get_viewOf, if_neg hne]

namespace Watcher

/-! ## From the event to the refresh -/

/-- An event that `w` accepts leads to a refresh: until `next` gives it back, and leaves `w'`,
    the stream is not lost and nothing else is given back. -/
def LeadsTo (w : Watcher) (ev : Event) (what : Refresh) (w' : Watcher) : Prop :=
  ∃ now mem w₁ mem₁ calls w₂ later, (event now ev).run (w, mem) = (.ok (), w₁, mem₁) ∧
    Run Step w₁ calls w₂ ∧
      (∀ call ∈ calls, call.1 ≠ .lost ∧ ∀ now what, call ≠ (.next now, .action (.refresh what))) ∧
        w₂.next later = (.refresh what, w')

/-- The refresh of jobs that an event leads to has the name of the event, in lower case, on its
    list; the names on it are in lower case, each one once. -/
theorem LeadsTo.mem {w w' : Watcher} (hw : w.Reachable) {ev : Event} {job : Str}
    (hev : classify ev = .job job) {names : List Str} (h : w.LeadsTo ev (.jobs names) w') :
    lowercase job ∈ names ∧ (∀ name ∈ names, lowercase name = name) ∧ names.Nodup ∧
      w'.cluster.isSome := by
  obtain ⟨now, mem, w₁, mem₁, calls, w₂, later, hevent, hrun, hcalls, hnext⟩ := h
  -- the event itself went well, so the watcher is the one that has heard it
  obtain ⟨-, rfl⟩ := (event_commits w now ev).eq_of_ok hevent
  have hkeep : ∀ w call w', w.Consistent → Step w call w' → w'.Consistent :=
    fun _ _ _ hw hstep => hw.step hstep
  have hw₂ : w₂.Consistent := hrun.keeps hkeep (hw.consistent.hears now ev)
  -- until a refresh is given back or the stream is lost, the job stays pending
  have hpending : w₂.Pending (.job (lowercase job)) := by
    have hstep : ∀ w (call : Call × Outcome) w', w.Consistent → w.Pending (.job (lowercase job)) →
        (call.1 ≠ .lost ∧ ∀ now what, call ≠ (.next now, .action (.refresh what))) →
          Step w call w' → False ∨ w'.Pending (.job (lowercase job)) := by
      intro w call w' hw hpending hcall hstep
      refine (hpending.step hw hcall.1 hstep).imp_left fun hdelivers => ?_
      obtain ⟨now, what, hwhat, -⟩ := hdelivers
      exact hcall.2 now what hwhat
    obtain ⟨_, _, hfalse⟩ | h := hrun.keepsUntil hkeep hstep hcalls
      (hw.consistent.hears now ev) (pending_hears hw.consistent now (by rw [hev]; rfl))
    · exact hfalse.elim
    · exact h
  -- what `next` gives back is the list of this refresh
  have hwhat : (w₂.next later).1 = .refresh (.jobs names) := by rw [hnext]
  obtain ⟨hcluster, -, hsome, hjobs⟩ := w₂.next_frame later
  obtain rfl := hjobs names hwhat
  refine ⟨?_, hw₂.folded, hw₂.distinct, ?_⟩
  · obtain ⟨what, hwhat', hcovers⟩ | ⟨hdue, -⟩ := hpending.next later
    · obtain rfl := Action.refresh.inj (hwhat.symm.trans hwhat')
      exact hcovers
    · -- nothing is pending after a refresh was given back
      rw [(next_refresh hwhat).2.2] at hdue
      cases hdue
  · have hcluster' : w'.cluster = w₂.cluster := by rw [← hcluster, hnext]
    rw [hcluster']
    exact hsome _ hwhat

/-- The row of the job after the refresh that an event leads to: the addresses of the tasks
    whose job is spelled in lower case. -/
theorem LeadsTo.getCluster {w w' : Watcher} (hw : w.Reachable) {ev : Event} {job : Str}
    (hev : classify ev = .job job) {names : List Str} (hleads : w.LeadsTo ev (.jobs names) w')
    {h : Hop} {here : Option Local} {cache cache' : Cache}
    (hcarried : CarriedOut h here w' names cache cache') : ∃ c, w'.cluster = some c ∧
      cache'.getCluster c (lowercase job) = some (h.addressesOf here (lowercase job)) := by
  obtain ⟨hmem, hfolded, hdistinct, hcluster⟩ := hleads.mem hw hev
  obtain ⟨c, hc⟩ := Option.isSome_iff_exists.mp hcluster
  exact ⟨c, hc, hcarried.getCluster hc hfolded hdistinct hmem⟩

/-- The refresh of jobs that an event leads to keeps every address of the job it names exactly
    when the job spelled in lower case has all of them. So it is for a name in lower case. -/
theorem job_refreshed_iff {w w' : Watcher} (hw : w.Reachable) {ev : Event} {job : Str}
    (hne : job ≠ []) (hev : (Notice.job job).Announced ev) {names : List Str}
    (hleads : w.LeadsTo ev (.jobs names) w') {h : Hop} {here : Option Local}
    {cache cache' : Cache} (hcarried : CarriedOut h here w' names cache cache') :
    ∃ c, w'.cluster = some c ∧ (Refreshed h here c job cache' ↔
      ∀ ip ∈ h.addressesOf here job, ip ∈ h.addressesOf here (lowercase job)) := by
  obtain ⟨c, hc, hrow⟩ := hleads.getCluster hw (classify_eq_job hev hne) hcarried
  refine ⟨c, hc, fun hrefreshed ip hip => ?_, fun hall ip hip => ⟨_, hrow, hall ip hip⟩⟩
  obtain ⟨ips, hips, hmem⟩ := hrefreshed ip hip
  obtain rfl := Option.some.inj (hrow.symm.trans hips)
  exact hmem

/-- A cluster in which one task of the job runs. -/
def oneJob (job : Str) : Hop where
  agents := [⟨str "node1", str "http://10.0.0.1:8080"⟩]
  tasks := [⟨str "node1", some [⟨job, .running, str "docker", 0⟩]⟩]

/-- The watcher after an event that names the job. -/
def told (job : Str) : Watcher := known.hears 3 ⟨some (.job job)⟩

/-- The event of the job leads to the refresh of its name in lower case. -/
private theorem told_leads (job : Str) {w' : Watcher}
    (hnext : (told job).next 500000003 = (.refresh (.jobs [str "web"]), w')) :
    known.LeadsTo ⟨some (.job job)⟩ (.jobs [str "web"]) w' :=
  ⟨3, [], _, [], [], _, 500000003, (event_commits known 3 _).ample, .nil _,
    fun _ hcall => absurd hcall List.not_mem_nil, hnext⟩

/-- The job is spelled `web`, and the refresh keeps its address. -/
theorem job_refreshed_iff_web : Refreshed (oneJob (str "web")) none (str "prod") (str "web")
    (Update.applied Cache.new
      (.set (str "prod") (str "web") ((oneJob (str "web")).addressesOf none (str "web")))) := by
  have hstatus : (oneJob (str "web")).StatusOf (str "web")
      ⟨(oneJob (str "web")).agents, (oneJob (str "web")).tasks⟩ := ⟨rfl, by decide +kernel⟩
  have hcluster : (told (str "web")).taken.cluster = some (str "prod") := by decide +kernel
  have hfolded : lowercase (str "web") = str "web" := by decide +kernel
  obtain ⟨c, hc, hiff⟩ := job_refreshed_iff known_reachable (by decide +kernel) (.inl rfl)
    (told_leads (str "web") (by decide +kernel)) (CarriedOut.single hcluster hstatus Cache.new)
  obtain rfl := Option.some.inj (hcluster.symm.trans hc)
  rw [hfolded] at hiff
  exact hiff.mpr fun _ hip => hip

/-- The job is spelled `Web`: its status, asked for as `web`, holds no task, and the refresh
    empties the row that a full refresh would fill. -/
theorem capital_lost : known.Reachable ∧
    known.LeadsTo ⟨some (.job (str "Web"))⟩ (.jobs [str "web"]) (told (str "Web")).taken ∧
    ∃ cache', CarriedOut (oneJob (str "Web")) none (told (str "Web")).taken [str "web"]
      Cache.new cache' ∧ ¬Refreshed (oneJob (str "Web")) none (str "prod") (str "Web") cache' := by
  -- on a node with case-sensitive names, the status of the folded name is the empty one
  have hstatus : (oneJob (str "Web")).StatusOf (str "web") ⟨(oneJob (str "Web")).agents, []⟩ :=
    ⟨rfl, by decide +kernel⟩
  have hcluster : (told (str "Web")).taken.cluster = some (str "prod") := by decide +kernel
  refine ⟨known_reachable, told_leads (str "Web") (by decide +kernel), _,
    CarriedOut.single hcluster hstatus Cache.new, fun hrefreshed => ?_⟩
  -- the address of the job is one that a fresh row would hold
  obtain ⟨ips, hips, hmem⟩ := hrefreshed ⟨10, 0, 0, 1⟩ (by decide +kernel)
  -- the status of `web` has no task, so its row is empty
  have hrow : ips = [] := by
    have hempty : (Update.applied Cache.new (.set (str "prod") (str "web")
        ((oneJob (str "Web")).addressesOf none (str "web")))).getCluster (str "prod")
          (lowercase (str "Web")) = some [] := by decide +kernel
    exact Option.some.inj (hips.symm.trans hempty)
  rw [hrow] at hmem
  exact absurd hmem List.not_mem_nil

end Watcher

end HopDns

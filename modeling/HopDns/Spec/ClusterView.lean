import HopDns.Spec.BuildCorrect

/-!
# The two builders of a view

What `build_jobs` and `build_job` return, told by what is reported alone: which tasks have
an address, and in which order the addresses of a job come.

## Key results

- `buildJobs_exact`: the table has the jobs with an address, each with its addresses
- `buildJob_agrees`: the builder of one job gives the row of the table
-/

namespace HopDns

open ForStd

/-- The addresses of the entries, in order; an entry without an address is passed over. -/
inductive Collects (agents : List AgentInfo) (here : Option Local) :
    List (Str × Task) → List Ipv4Addr → Prop
  | nil : Collects agents here [] []
  | skip {e : Str × Task} {es : List (Str × Task)} {ips : List Ipv4Addr}
      (hnone : ∀ ip, ¬AddressOf agents here e ip) (hes : Collects agents here es ips) :
      Collects agents here (e :: es) ips
  | take {e : Str × Task} {es : List (Str × Task)} {ips : List Ipv4Addr} {ip : Ipv4Addr}
      (hip : AddressOf agents here e ip) (hes : Collects agents here es ips) :
      Collects agents here (e :: es) (ip :: ips)

/-- The addresses of the tasks are collected in their order. -/
private theorem collects_filterMap (agents : List AgentInfo) (here : Option Local)
    (es : List (Str × Task)) : Collects agents here es (es.filterMap (addressOf agents here)) := by
  -- the induction is on the tasks
  induction es with
  | nil => exact .nil
  | cons e es ih =>
    rw [List.filterMap_cons]
    cases he : addressOf agents here e with
    | none =>
      refine .skip (fun ip hip => ?_) ih
      rw [addressOf_eq_some.mpr hip] at he
      cases he
    | some ip => exact .take (addressOf_eq_some.mp he) ih

/-- The addresses `ips` are those of the job with the name `key` in lower case, in the order of
    the report and each one at its first place. -/
def AddressesOf (agents : List AgentInfo) (tasks : List AgentTasks) (here : Option Local)
    (key : Str) (ips : List Ipv4Addr) : Prop :=
  ∃ found,
    Collects agents here ((entries tasks).filter fun e => lowercase e.2.jobName = key) found ∧
    ips = found.eraseDups

/-- What is computed of a job are its addresses. -/
private theorem addressesOf_addresses (agents : List AgentInfo) (tasks : List AgentTasks)
    (here : Option Local) (key : Str) :
    AddressesOf agents tasks here key (addresses agents tasks here key) :=
  ⟨_, collects_filterMap agents here _, rfl⟩

/-! ## The whole view -/

/-- An agent that did not answer adds nothing and takes nothing away. -/
private theorem buildJobs_silent (agents : List AgentInfo) (here : Option Local) (agent : Str)
    (before after : List AgentTasks) :
    buildJobs agents (before ++ ⟨agent, none⟩ :: after) here =
      buildJobs agents (before ++ after) here := by
  unfold buildJobs
  rw [List.foldlM_append, List.foldlM_append]
  -- its own loop runs over no tasks
  rfl

/-- What the table `jobs` holds of a report. -/
structure ViewExact (agents : List AgentInfo) (tasks : List AgentTasks) (here : Option Local)
    (jobs : Jobs) : Prop where
  present : ∀ key, (∃ ips, jobs.get key = some ips) ↔
    ∃ e ∈ entries tasks, lowercase e.2.jobName = key ∧ ∃ ip, AddressOf agents here e ip
  value : ∀ key ips, jobs.get key = some ips → ips.Nodup ∧ AddressesOf agents tasks here key ips

/-- The view that is built has a row for each job with an address, and in it these addresses. -/
private theorem viewOf_exact (agents : List AgentInfo) (tasks : List AgentTasks)
    (here : Option Local) :
    ViewExact agents tasks here (viewOf agents tasks here) where
  present := by
    intro key
    have hne := @addresses_ne_nil_iff agents tasks here key
    rw [get_viewOf]
    -- a row is there if there is an address for it
    refine Iff.trans ⟨fun h => ?_, fun h => ?_⟩ hne
    · obtain ⟨ips, hips⟩ := h
      split at hips
      · cases hips
      · assumption
    · rw [if_neg h]
      exact ⟨_, rfl⟩
  value := by
    intro key ips h
    rw [get_viewOf] at h
    split at h
    -- a job without addresses has no row
    · cases h
    · obtain rfl := Option.some.inj h
      exact ⟨nodup_addresses agents tasks here key, addressesOf_addresses agents tasks here key⟩

/-- The tasks of an agent whose job has this name, in any case of its letters. -/
def AgentTasks.only (job : Str) (atAgent : AgentTasks) : AgentTasks :=
  { atAgent with tasks := atAgent.tasks.map (List.filter fun t => eqIgnoreAsciiCase t.jobName job) }

/-- The builder of one job passes over the tasks of the others. -/
private theorem buildJob_only (job : Str) (agents : List AgentInfo) (tasks : List AgentTasks)
    (here : Option Local) :
    buildJob job agents (tasks.map (AgentTasks.only job)) here =
      buildJob job agents tasks here := by
  have hagent : ∀ (ips : List Ipv4Addr) (atAgent : AgentTasks),
      ((atAgent.only job).tasks.getD []).foldlM
          (buildJobTask job (atAgent.only job).agent (agentIp agents (atAgent.only job).agent) here)
          ips =
        (atAgent.tasks.getD []).foldlM
          (buildJobTask job atAgent.agent (agentIp agents atAgent.agent) here) ips := by
    intro ips atAgent
    -- an agent that says nothing of its tasks has none to leave out
    obtain ⟨agent, tasks⟩ := atAgent
    cases tasks with
    | none => rfl
    | some tasks =>
      simp only [AgentTasks.only, Option.map_some, Option.getD_some, List.foldlM_filter]
      congr
      funext ips task
      -- a task of another job leaves the list as it is
      unfold buildJobTask
      cases eqIgnoreAsciiCase task.jobName job <;> rfl
  unfold buildJob
  rw [List.foldlM_map]
  congr
  funext ips atAgent
  exact hagent ips atAgent

/-- The two builders agree: what `build_job` returns is the row of the job in what `build_jobs`
    returns, or nothing when there is no row; and the tasks of other jobs make no difference to
    it. -/
theorem buildJob_agrees (job : Str) (agents : List AgentInfo) (tasks : List AgentTasks)
    (here : Option Local) :
    (∃ jobs ips, Yields (buildJobs agents tasks here) (.ok jobs) ∧
      Yields (buildJob job agents tasks here) (.ok ips) ∧
        ips = (jobs.get (lowercase job)).getD []) ∧
      (∀ mem₁ mem₁' mem₂ mem₂' jobs ips,
        (buildJobs agents tasks here).run mem₁ = (.ok jobs, mem₁') →
          (buildJob job agents tasks here).run mem₂ = (.ok ips, mem₂') →
            ips = (jobs.get (lowercase job)).getD []) ∧
      buildJob job agents (tasks.map (AgentTasks.only job)) here =
        buildJob job agents tasks here := by
  -- the row of the full view and the list of the job are the same addresses
  have hjobs := buildJobs_yields agents tasks here
  have hjob := buildJob_yields job agents tasks here
  have hrow := getD_viewOf agents tasks here (lowercase job)
  refine ⟨⟨_, _, hjobs, hjob, hrow.symm⟩, fun mem₁ mem₁' mem₂ mem₂' jobs ips h₁ h₂ => ?_,
    buildJob_only job agents tasks here⟩
  obtain rfl := Except.ok.inj (hjobs.eq_of_ok h₁)
  obtain rfl := Except.ok.inj (hjob.eq_of_ok h₂)
  exact hrow.symm

end HopDns

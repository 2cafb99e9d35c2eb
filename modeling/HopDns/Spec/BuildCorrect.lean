import HopDns.ForStd.Distinct
import HopDns.ForStd.Interleaving
import HopDns.Native.Watcher

/-!
# The view of a cluster

Both builders come to the same: the addresses of a job are those of its running
tasks, in the order of the report, each one once.

## Key results

- `get_viewOf`: the view of a cluster has a job exactly when it has an address
- `buildJobs_yields`, `buildJob_yields`: what the two builders compute
- `mem_addresses`: an address of a job is one of a running task of it
-/

namespace HopDns

open ForStd

/-- The tasks that are reported, each with the id of its agent. -/
def entries (tasks : List AgentTasks) : List (Str × Task) :=
  tasks.flatMap fun atAgent => (atAgent.tasks.getD []).map fun task => (atAgent.agent, task)

/-- The job of a task, in lower case. -/
def jobOf (e : Str × Task) : Str := lowercase e.2.jobName

/-- The address of a task, if it has one. -/
def addressOf (agents : List AgentInfo) (here : Option Local) (e : Str × Task) : Option Ipv4Addr :=
  taskIp e.1 (agentIp agents e.1) e.2 here

/-- The task has the address of its slot: it runs on the own node, in a slot. -/
def Local.Holds (l : Local) (agent : Str) (task : Task) : Prop :=
  l.node = agent ∧ task.driver = str "hop" ∧ 1 ≤ task.pid ∧ task.pid ≤ SLOT_MAX

/-- The address of a task: only a running one has an address, that of its slot on the own node,
    and that of the endpoint of its agent elsewhere. -/
inductive AddressOf (agents : List AgentInfo) (here : Option Local) : Str × Task → Ipv4Addr → Prop
  | slot {agent : Str} {task : Task} {l : Local} (hstate : task.state = .running)
      (hhere : here = some l) (hslot : l.Holds agent task) :
      AddressOf agents here (agent, task) (l.slotIp (UInt64.ofNat task.pid.toInt.natAbs))
  | endpoint {agent : Str} {task : Task} {a : AgentInfo} {ip : Ipv4Addr}
      (hstate : task.state = .running) (helse : ∀ l, here = some l → ¬l.Holds agent task)
      (hagent : agents.find? (fun a => a.id == agent) = some a)
      (hip : extractIp a.endpoint = some ip) : AddressOf agents here (agent, task) ip

/-- A running task has the address of its slot on the own node, and of its agent elsewhere. -/
theorem addressOf_eq_some {agents : List AgentInfo} {here : Option Local} {e : Str × Task}
    {ip : Ipv4Addr} : addressOf agents here e = some ip ↔ AddressOf agents here e ip := by
  obtain ⟨agent, task⟩ := e
  -- the address of the agent is that of the first one with the id
  have hagent : agentIp agents agent = some ip ↔
      ∃ a, agents.find? (fun a => a.id == agent) = some a ∧ extractIp a.endpoint = some ip :=
    Option.bind_eq_some_iff
  unfold addressOf taskIp
  -- the branches of `task_ip`: not running, its own slot, the agent's endpoint
  constructor
  · intro h
    split at h
    · cases h
    -- the task runs
    rename_i hstate
    have hstate : task.state = .running := Decidable.not_not.mp hstate
    split at h
    · rename_i l
      split at h
      · rename_i hslot
        obtain rfl := Option.some.inj h
        exact .slot hstate rfl hslot
      · rename_i hslot
        obtain ⟨a, ha, hip⟩ := hagent.mp h
        exact .endpoint hstate (fun l' hl' => Option.some.inj hl' ▸ hslot) ha hip
    · obtain ⟨a, ha, hip⟩ := hagent.mp h
      exact .endpoint hstate (fun l hl => by cases hl) ha hip
  -- each way to an address is one of these branches
  · intro h
    cases h with
    | slot hstate hhere hslot =>
      rw [hhere, if_neg (by simp [hstate])]
      exact if_pos hslot
    | endpoint hstate helse ha hip =>
      rw [if_neg (by simp [hstate])]
      cases here with
      | none => exact hagent.mpr ⟨_, ha, hip⟩
      | some l =>
        simp only
        rw [if_neg (show ¬(l.node = agent ∧ task.driver = str "hop" ∧ 1 ≤ task.pid ∧
          task.pid ≤ SLOT_MAX) from helse l rfl)]
        exact hagent.mpr ⟨_, ha, hip⟩

/-- The addresses of the running tasks among `es`, each one once. -/
def addressesIn (agents : List AgentInfo) (here : Option Local) (es : List (Str × Task)) :
    List Ipv4Addr :=
  (es.filterMap (addressOf agents here)).eraseDups

/-- The addresses of a job, by its name in lower case. -/
def addresses (agents : List AgentInfo) (tasks : List AgentTasks) (here : Option Local)
    (job : Str) : List Ipv4Addr :=
  addressesIn agents here ((entries tasks).filter fun e => jobOf e = job)

/-- The address is that of a running task of the job. -/
theorem mem_addresses {agents : List AgentInfo} {tasks : List AgentTasks} {here : Option Local}
    {job : Str} {ip : Ipv4Addr} :
    ip ∈ addresses agents tasks here job ↔
      ∃ e ∈ entries tasks, jobOf e = job ∧ AddressOf agents here e ip := by
  simp only [addresses, addressesIn, List.mem_eraseDups, List.mem_filterMap, List.mem_filter,
    decide_eq_true_eq, and_assoc, addressOf_eq_some]

/-- A job has an address when one of its tasks has. -/
theorem addresses_ne_nil_iff {agents : List AgentInfo} {tasks : List AgentTasks}
    {here : Option Local} {job : Str} :
    addresses agents tasks here job ≠ [] ↔
      ∃ e ∈ entries tasks, jobOf e = job ∧ ∃ ip, AddressOf agents here e ip := by
  constructor
  -- an address of the job is one of a task of it
  · intro hne
    obtain ⟨ip, hip⟩ := List.exists_mem_of_ne_nil _ hne
    obtain ⟨e, he, hejob, hip⟩ := mem_addresses.mp hip
    exact ⟨e, he, hejob, ip, hip⟩
  · intro h
    obtain ⟨e, he, hejob, ip, hip⟩ := h
    exact List.ne_nil_of_mem (mem_addresses.mpr ⟨e, he, hejob, hip⟩)

theorem nodup_addresses (agents : List AgentInfo) (tasks : List AgentTasks) (here : Option Local)
    (job : Str) : (addresses agents tasks here job).Nodup := List.nodup_eraseDups _

/-! ## The loop over the tasks -/

section

variable (agents : List AgentInfo) (here : Option Local)

/-- `pushUnique`, with memory in plenty. -/
def pushNew (list : List Ipv4Addr) (ip : Ipv4Addr) : List Ipv4Addr :=
  if list.contains ip then list else list ++ [ip]

/-- An address is pushed unless it is there, or there is no memory for it. -/
theorem pushUnique_yields (list : List Ipv4Addr) (ip : Ipv4Addr) :
    Yields (pushUnique list ip) (.ok (pushNew list ip)) := by
  unfold pushUnique pushNew
  split
  · exact Computes.pure _
  · exact tryReserve_yields.bind (Computes.pure _)

/-- The address of a task behind those there are, if it is new. -/
def pushAddress (ips : List Ipv4Addr) (e : Str × Task) : List Ipv4Addr :=
  match addressOf agents here e with
  | some addr => pushNew ips addr
  | none => ips

/-- The addresses of the tasks are pushed in their order. -/
private theorem foldl_pushAddress (ips : List Ipv4Addr) (es : List (Str × Task)) :
    es.foldl (pushAddress agents here) ips =
      (es.filterMap (addressOf agents here)).foldl pushNew ips := by
  rw [List.foldl_filterMap]
  congr
  funext ips e
  unfold pushAddress
  cases addressOf agents here e <;> rfl

/-- Pushed one after the other, each address is there once, where it came first. -/
theorem foldl_pushNew_nil (l : List Ipv4Addr) : l.foldl pushNew [] = l.eraseDups := by
  have h := List.foldl_pushNew [] l
  rw [List.nil_append, List.newTo_eraseDups] at h
  exact h

/-- What a task makes of the addresses of its job. -/
def changeRow (row : Option (List Ipv4Addr)) (e : Str × Task) : Option (List Ipv4Addr) :=
  match addressOf agents here e with
  | none => row
  | some addr => some (pushNew (row.getD []) addr)

/-- What a task makes of the view of its cluster. -/
def addTask (jobs : Jobs) (e : Str × Task) : Jobs :=
  match addressOf agents here e with
  | none => jobs
  | some addr => jobs.put (jobOf e) (pushNew ((jobs.get (jobOf e)).getD []) addr)

/-- A task is added to its job, or there is no memory for it. -/
private theorem buildTask_yields (jobs : Jobs) (e : Str × Task) :
    Yields (buildTask e.1 (agentIp agents e.1) here jobs e.2)
      (.ok (addTask agents here jobs e)) := by
  unfold buildTask addTask addressOf
  cases taskIp e.1 (agentIp agents e.1) e.2 here with
  -- no address, a first one for the job, or one more
  | none => exact Computes.pure _
  | some addr =>
    refine (lower_yields e.2.jobName).bind ?_
    rw [Table.getMut_eq]
    unfold jobOf
    cases jobs.get (lowercase e.2.jobName) with
    | some list => exact (pushUnique_yields list addr).bind (Computes.pure _)
    | none => exact (pushUnique_yields [] addr).bind (jobs.insert_commits _ _).onLocal

/-- All tasks of a job together: no address leaves the row alone. -/
private theorem foldl_changeRow (row : Option (List Ipv4Addr)) (es : List (Str × Task)) :
    es.foldl (changeRow agents here) row =
      if es.filterMap (addressOf agents here) = [] then row
      else some ((es.filterMap (addressOf agents here)).foldl pushNew (row.getD [])) := by
  -- the induction is on the tasks of the job
  induction es generalizing row with
  | nil => rfl
  | cons e es ih =>
    rw [List.foldl_cons, ih, List.filterMap_cons]
    unfold changeRow
    -- a task without an address changes nothing; one with an address makes the row
    cases addressOf agents here e with
    | none => rfl
    | some addr =>
      rw [if_neg (List.cons_ne_nil _ _)]
      split
      · rename_i hnil
        rw [hnil]
        rfl
      · rfl

/-- A loop over the tasks of each agent is a loop over the tasks. -/
private theorem foldlM_entries {β : Type} (x : β → Str × Task → Fallible β) (b : β)
    (tasks : List AgentTasks) : (tasks.foldlM (fun b atAgent =>
      (atAgent.tasks.getD []).foldlM (fun b task => x b (atAgent.agent, task)) b) b) =
        (entries tasks).foldlM x b := by
  -- the induction is on the agents, each with its own tasks
  induction tasks generalizing b with
  | nil => rfl
  | cons atAgent tasks ih =>
    have hentries : entries (atAgent :: tasks) =
        ((atAgent.tasks.getD []).map fun task => (atAgent.agent, task)) ++ entries tasks := rfl
    rw [List.foldlM_cons, hentries, List.foldlM_append, List.foldlM_map]
    congr
    funext b'
    exact ih b'

end

/-! ## The builders -/

/-- The view of a cluster from its agents and all their tasks. -/
def viewOf (agents : List AgentInfo) (tasks : List AgentTasks) (here : Option Local) : Jobs :=
  (entries tasks).foldl (addTask agents here) Table.new

/-- The jobs are built from all tasks, or there is no memory for them. -/
theorem buildJobs_yields (agents : List AgentInfo) (tasks : List AgentTasks)
    (here : Option Local) :
    Yields (buildJobs agents tasks here) (.ok (viewOf agents tasks here)) := by
  have hloop := foldlM_entries
    (fun jobs e => buildTask e.1 (agentIp agents e.1) here jobs e.2) Table.new tasks
  unfold buildJobs
  rw [hloop]
  exact Computes.foldlM (fun jobs e => buildTask_yields agents here jobs e) _ _

/-- The view has a job exactly when the job has an address, and then its addresses. -/
theorem get_viewOf (agents : List AgentInfo) (tasks : List AgentTasks) (here : Option Local)
    (job : Str) :
    (viewOf agents tasks here).get job =
      if addresses agents tasks here job = [] then none
      else some (addresses agents tasks here job) := by
  -- a task changes the row of its own job and no other
  have hstep : ∀ jobs e job, (addTask agents here jobs e).get job =
      if jobOf e = job then changeRow agents here (jobs.get job) e else jobs.get job := by
    intro jobs e job
    unfold addTask changeRow
    cases addressOf agents here e with
    | none => simp
    | some addr =>
      simp only [Table.get_put]
      by_cases h : jobOf e = job
      · rw [if_pos h, if_pos h.symm, h]
      · rw [if_neg h, if_neg fun h' => h h'.symm]
  -- each row of the view is a fold over the tasks of its own job
  have hget := @get_foldl _ _ _ _ _ Table.get (addTask agents here) jobOf (changeRow agents here)
    hstep (entries tasks) Table.new job
  unfold viewOf
  rw [hget, foldl_changeRow, Table.get_new, Option.getD_none, foldl_pushNew_nil]
  unfold addresses addressesIn
  simp only [List.eraseDups_eq_nil]

/-- What was built of a job are its addresses. -/
theorem getD_viewOf (agents : List AgentInfo) (tasks : List AgentTasks) (here : Option Local)
    (job : Str) :
    ((viewOf agents tasks here).get job).getD [] = addresses agents tasks here job := by
  rw [get_viewOf]
  split
  · rename_i h
    rw [h]
    rfl
  · rfl

/-- One job is built alike, by its name in lower case. -/
theorem buildJob_yields (job : Str) (agents : List AgentInfo) (tasks : List AgentTasks)
    (here : Option Local) :
    Yields (buildJob job agents tasks here)
      (.ok (addresses agents tasks here (lowercase job))) := by
  have hloop := foldlM_entries
    (fun ips e => buildJobTask job e.1 (agentIp agents e.1) here ips e.2) [] tasks
  -- a task of another job is passed over
  have hstep : ∀ (ips : List Ipv4Addr) (e : Str × Task),
      Yields (buildJobTask job e.1 (agentIp agents e.1) here ips e.2)
        (.ok (if jobOf e = lowercase job then pushAddress agents here ips e else ips)) := by
    intro ips e
    unfold buildJobTask pushAddress addressOf
    -- comparing without regard to case is comparing in lower case
    by_cases h : jobOf e = lowercase job
    · have hname : eqIgnoreAsciiCase e.2.jobName job = true := (eqIgnoreAsciiCase_iff _ _).mpr h
      rw [if_pos h, if_neg (by simp [hname])]
      cases taskIp e.1 (agentIp agents e.1) e.2 here with
      | none => exact Computes.pure _
      | some addr => exact pushUnique_yields ips addr
    · have hname : eqIgnoreAsciiCase e.2.jobName job ≠ true :=
        fun h' => h ((eqIgnoreAsciiCase_iff _ _).mp h')
      rw [if_neg h, if_pos (by simpa using hname)]
      exact Computes.pure _
  -- so only the tasks of this job are left, with each address once
  have hfilter : (entries tasks).foldl
      (fun ips e => if jobOf e = lowercase job then pushAddress agents here ips e else ips) [] =
        addresses agents tasks here (lowercase job) := by
    unfold addresses addressesIn
    rw [← foldl_pushNew_nil, ← foldl_pushAddress, List.foldl_filter]
    simp only [decide_eq_true_eq]
  -- the two loops of the source are one over all tasks
  unfold buildJob
  rw [hloop, ← hfilter]
  exact Computes.foldlM hstep [] (entries tasks)

end HopDns

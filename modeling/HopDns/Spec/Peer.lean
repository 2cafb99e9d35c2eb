import HopDns.Spec.CacheCorrect
import HopDns.Spec.WatcherCorrect

/-!
# A peer and its cluster

The driver of a peer between a Hop cluster that changes and the cache: the stream of
events, the answers Hop gives, and the messages on their way to the cache. Hop and the
stream are not part of the crate; what is taken for granted about them is in the steps:

- a stream starts with a ping, and a break loses what was not yet delivered;
- a change is announced by an event that names it, once it can be seen, and an
  announcement without a stream is lost;
- an answer holds what the cluster holds when it is given: the status of a job holds the
  agents and all tasks of the job.

## Key results

- `Peer.Step`: the steps of the system
- `Peer.AtRest`: nothing is on its way
-/

namespace HopDns

open ForStd

/-- What Hop holds about its cluster. -/
structure Hop where
  agents : List AgentInfo
  tasks : List AgentTasks
deriving DecidableEq

/-- The tasks of a job, by its exact name. -/
def Hop.named (h : Hop) (job : Str) : List (Str × Task) :=
  (entries h.tasks).filter fun e => e.2.jobName = job

/-- The names of the jobs are in lower case. -/
def Hop.Folded (h : Hop) : Prop := ∀ e ∈ entries h.tasks, lowercase e.2.jobName = e.2.jobName

/-- The status of a job holds the agents and all tasks of the job. -/
structure Hop.StatusOf (h : Hop) (job : Str) (status : JobStatus) : Prop where
  agents : status.agents = h.agents
  tasks : entries status.tasks = h.named job

/-- A change that is still to be announced. -/
inductive Notice where
  | job (name : Str)
  | agents
deriving DecidableEq

/-- The event announces the change. -/
def Notice.Announced : Notice → Event → Prop
  | .job name, ev => ev.topic = some (.job name) ∨ ev.topic = some (.task name)
  | .agents, ev => ev.topic = some .status ∨ ∃ id, ev.topic = some (.agent id)

/-- What the event says of a change to a job is the name of the job. -/
theorem classify_eq_job {ev : Event} {job : Str} (hev : (Notice.job job).Announced ev)
    (hne : job ≠ []) : classify ev = .job job := by
  have hname : (!job.isEmpty) = true := by
    rw [Bool.not_eq_true', List.isEmpty_eq_false_iff]
    exact hne
  obtain h | h := hev <;> simp only [classify, h, hname, if_true]

/-- A peer: its cluster, the stream, the driver, and the way to the cache. -/
structure Peer where
  hop : Hop
  /-- the changes that are still to be announced -/
  owed : List Notice
  connected : Bool
  /-- what the reader of the stream told and the driver has not heard yet -/
  heard : List Heard
  driver : Driver
  /-- the messages on their way to the cache -/
  updates : List Update
  cache : Cache

namespace Peer

/-- The event is told to the driver, if there is a stream. -/
def tell (p : Peer) (ev : Event) : Peer :=
  if p.connected then { p with heard := p.heard ++ [.event ev] } else p

/-- The driver goes on, with a message to send or none. -/
def drive (p : Peer) (next : Driver × Option Update) : Peer :=
  { p with driver := next.1, updates := p.updates ++ next.2.toList }

/-- What happens in a step. -/
inductive Act where
  | changeJob (job : Str) (tasks : List AgentTasks)
  | changeAgents (agents : List AgentInfo)
  | announce (n : Notice) (ev : Event)
  | say (ev : Event)
  | breakOff (delivered : Nat)
  | connect
  | turn (now : UInt64)
  | status (now : UInt64) (name : Option Str)
  | fetchAgents
  | fetchTasks
  | fetchJob (now : UInt64) (status : JobStatus)
  | fetchFailed (now : UInt64)
  | hear (now : UInt64)
  | timeout
  | apply

/-- The steps of the system. -/
inductive Step (here : Option Local) : Peer → Act → Peer → Prop where
  /-- The tasks of one job change, and those of no other. -/
  | changeJob {p : Peer} (job : Str) (tasks : List AgentTasks)
      (hjob : lowercase job = job) (hfolded : Hop.Folded { p.hop with tasks })
      (hothers : ∀ other, other ≠ job → { p.hop with tasks }.named other = p.hop.named other) :
      Step here p (.changeJob job tasks)
        { p with hop := { p.hop with tasks }, owed := p.owed ++ [.job job] }
  | changeAgents {p : Peer} (agents : List AgentInfo) :
      Step here p (.changeAgents agents)
        { p with hop := { p.hop with agents }, owed := p.owed ++ [.agents] }
  | announce {p : Peer} (n : Notice) (ev : Event) (hn : n ∈ p.owed) (hev : n.Announced ev) :
      Step here p (.announce n ev) ({ p with owed := p.owed.erase n }.tell ev)
  /-- An event that announces nothing. -/
  | say {p : Peer} (ev : Event) : Step here p (.say ev) (p.tell ev)
  /-- The stream breaks: what the reader has not told by then is lost. -/
  | breakOff {p : Peer} (delivered : Nat) :
      Step here p (.breakOff delivered)
        { p with connected := false, heard := p.heard.take delivered ++ [.lost] }
  | connect {p : Peer} (h : p.connected = false) :
      Step here p .connect
        { p with connected := true, heard := p.heard ++ [.event ⟨some .ping⟩] }
  | turn {p : Peer} (now : UInt64) (h : p.driver.phase = .loop) :
      Step here p (.turn now) { p with driver := p.driver.turn now }
  | status {p : Peer} (now : UInt64) (name : Option Str) (h : p.driver.phase = .status) :
      Step here p (.status now name) { p with driver := p.driver.gotStatus now name }
  | fetchAgents {p : Peer} (h : p.driver.phase = .agents) :
      Step here p .fetchAgents { p with driver := p.driver.gotAgents p.hop.agents }
  | fetchTasks {p : Peer} (agents : List AgentInfo) (h : p.driver.phase = .tasks agents) :
      Step here p .fetchTasks (p.drive (p.driver.gotTasks agents p.hop.tasks here))
  | fetchJob {p : Peer} (now : UInt64) (status : JobStatus) (all : List Str) (job : Str)
      (rest : List Str) (h : p.driver.phase = .jobs all (job :: rest))
      (hstatus : p.hop.StatusOf job status) :
      Step here p (.fetchJob now status) (p.drive (p.driver.gotJob now all job rest status here))
  | fetchFailed {p : Peer} (now : UInt64) (what : Refresh)
      (h : match what with
        | .full => p.driver.phase = .agents ∨ ∃ agents, p.driver.phase = .tasks agents
        | .jobs all => ∃ rest, p.driver.phase = .jobs all rest) :
      Step here p (.fetchFailed now) { p with driver := p.driver.fetchFailed now what }
  | hear {p : Peer} (now : UInt64) (h : Heard) (rest : List Heard)
      (hphase : p.driver.phase = .waiting) (hheard : p.heard = h :: rest) :
      Step here p (.hear now) { p with heard := rest, driver := p.driver.hear now h }
  | timeout {p : Peer} (h : p.driver.phase = .waiting) :
      Step here p .timeout { p with driver := p.driver.timeout }
  /-- The owner of the cache takes one message. -/
  | apply {p : Peer} (u : Update) (rest : List Update) (h : p.updates = u :: rest) :
      Step here p .apply { p with updates := rest, cache := (drain [u] (p.cache, [])).1 }

/-- A peer before its first step: a new watcher, no stream, and any cluster and cache. The
    allocator has memory in plenty. -/
def Initial (p : Peer) : Prop :=
  p.hop.Folded ∧ p.connected = false ∧ p.heard = [] ∧ p.updates = [] ∧
    p.driver.watcher.Fresh ∧ p.driver.phase = .loop ∧ p.driver.mem = []

/-- Nothing is on its way: there is a stream, every change was announced, everything was heard,
    read and laid in the cache, and the driver waits with nothing pending. -/
structure AtRest (p : Peer) : Prop where
  connected : p.connected = true
  owed : p.owed = []
  heard : p.heard = []
  phase : p.driver.phase = .waiting
  due : p.driver.watcher.due = none
  updates : p.updates = []

end Peer

end HopDns

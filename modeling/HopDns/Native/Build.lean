import HopDns.Native.Cache

/-!
# The view of a cluster

The second half of `watcher`: from the agents and tasks Hop reports to the addresses
of each job. The records are those of `hoplib`, with the fields that are read here.
-/

namespace HopDns

open ForStd

/-- `hoplib::AgentInfo` -/
structure AgentInfo where
  id : Str
  endpoint : Str
deriving DecidableEq, Repr

/-- `hoplib::TaskState`: running, or one of the states in which a task has no address. -/
inductive TaskState where
  | running
  | other (code : Nat)
deriving DecidableEq, Repr

/-- `hoplib::Task` -/
structure Task where
  jobName : Str
  state : TaskState
  driver : Str
  pid : Int64
deriving DecidableEq

/-- `hoplib::AgentTasks`: the tasks of one agent (`none`: it did not answer the leader). -/
structure AgentTasks where
  agent : Str
  tasks : Option (List Task)
deriving DecidableEq

/-- `hoplib::JobStatus` -/
structure JobStatus where
  agents : List AgentInfo
  tasks : List AgentTasks
deriving DecidableEq

/-- The own node of a resident on HopOS: its tasks get the address of their slot. -/
structure Local where
  node : Str
  slotIp : UInt64 → Ipv4Addr

/-- The largest pid a slot can be. -/
def SLOT_MAX : Int64 := 255

/-! ## The address of an endpoint -/

/-- `rest.split(['/', '?', '#']).next()` -/
def authorityOf (rest : Str) : Str :=
  rest.takeWhile fun b => !(b == 0x2F || b == 0x3F || b == 0x23)

/-- `authority.rsplit_once('@').map_or(authority, |(_, h)| h)` -/
def hostPart (authority : Str) : Str :=
  if 0x40 ∈ authority then (authority.reverse.takeWhile fun b => b != 0x40).reverse else authority

/-- `s.split_once("://")`, the part behind. -/
def afterScheme : Str → Option Str
  | [] => none
  | b :: rest =>
    if [0x3A, 0x2F, 0x2F].isPrefixOf (b :: rest) then some (rest.drop 2) else afterScheme rest

/-- One number of a dotted address: one to three digits, at most 255, no leading zero. -/
def parseOctet (s : Str) : Option UInt8 :=
  -- `u8::from_str` alone takes a sign and leading zeros; the parser of addresses does not
  if s.isEmpty ∨ s.length > 3 ∨ ¬s.all (fun b => 0x30 ≤ b ∧ b ≤ 0x39) then none
  else if s.length > 1 ∧ s.head? = some 0x30 then none
  else u8 (s.foldl (fun n b => 10 * n + (b.toNat - 0x30)) 0)
where
  u8 (n : Nat) : Option UInt8 := if n < 256 then some (UInt8.ofNat n) else none

/-- `str::parse::<Ipv4Addr>` -/
def parseIpv4 (s : Str) : Option Ipv4Addr :=
  match s.splitOn dot with
  | [a, b, c, d] => do
    return ⟨← parseOctet a, ← parseOctet b, ← parseOctet c, ← parseOctet d⟩
  | _ => none

/-- The IPv4 address in an endpoint; `none` for a host name, an IPv6 address, or what is not
    a URL. -/
def extractIp (endpoint : Str) : Option Ipv4Addr := do
  let rest ← afterScheme endpoint
  let host := hostPart (authorityOf rest)
  let host := host.takeWhile fun b => b != 0x3A -- `host.split(':').next()`
  parseIpv4 host

/-! ## The addresses of the tasks -/

/-- The address of a task on the agent `agent`, if it runs. -/
def taskIp (agent : Str) (agentIp : Option Ipv4Addr) (task : Task) (here : Option Local) :
    Option Ipv4Addr :=
  if task.state ≠ .running then none
  else
    match here with
    | some l =>
      -- a task of the own node runs in a slot, and its pid is the number of the slot
      if l.node = agent ∧ task.driver = str "hop" ∧ 1 ≤ task.pid ∧ task.pid ≤ SLOT_MAX then
        some (l.slotIp (UInt64.ofNat task.pid.toInt.natAbs))
      else agentIp
    | none => agentIp

/-- The address of an agent, by its id. -/
def agentIp (agents : List AgentInfo) (id : Str) : Option Ipv4Addr := do
  let a ← agents.find? fun a => a.id == id
  extractIp a.endpoint

/-- One turn of the inner loop of `build_jobs`. -/
def buildTask (agent : Str) (ip : Option Ipv4Addr) (here : Option Local) (jobs : Jobs)
    (task : Task) : Fallible Jobs :=
  match taskIp agent ip task here with
  | none => return jobs
  | some addr => do
    let name ← lower task.jobName
    -- the row is extended where it lies; only a new one goes through `insert`
    match jobs.getMut name with
    | some (list, back) =>
      let list ← pushUnique list addr
      return back list
    | none =>
      let list ← pushUnique [] addr
      (Table.insert name list).onLocal jobs

/-- The view of a cluster from its agents and all their tasks: per job the addresses of the
    running tasks, each one once. -/
def buildJobs (agents : List AgentInfo) (tasks : List AgentTasks) (here : Option Local) :
    Fallible Jobs :=
  tasks.foldlM
    (fun jobs atAgent =>
      -- an agent that did not answer the leader adds nothing
      (atAgent.tasks.getD []).foldlM
        (buildTask atAgent.agent (agentIp agents atAgent.agent) here) jobs)
    Table.new

/-- One turn of the inner loop of `build_job`. -/
def buildJobTask (job : Str) (agent : Str) (ip : Option Ipv4Addr) (here : Option Local)
    (ips : List Ipv4Addr) (task : Task) : Fallible (List Ipv4Addr) :=
  -- names are compared with the case ignored, as the key of the row has it folded
  if !eqIgnoreAsciiCase task.jobName job then return ips
  else
    match taskIp agent ip task here with
    | none => return ips
    | some addr => pushUnique ips addr

/-- The addresses of one job from its status. -/
def buildJob (job : Str) (agents : List AgentInfo) (tasks : List AgentTasks)
    (here : Option Local) : Fallible (List Ipv4Addr) :=
  tasks.foldlM
    (fun ips atAgent =>
      (atAgent.tasks.getD []).foldlM
        (buildJobTask job atAgent.agent (agentIp agents atAgent.agent) here) ips)
    []

end HopDns

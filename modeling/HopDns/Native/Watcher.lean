import HopDns.Native.Build

/-!
# The watcher

`watcher::Watcher`: the state machine of one peer. It discovers the name of the
cluster, hears what changed, and says what to read again. Time is a counter in
nanoseconds.
-/

namespace HopDns

open ForStd

/-- `watcher::RECONNECT`, in nanoseconds. -/
def RECONNECT : UInt64 := 5000000000

/-- `watcher::DEBOUNCE`, in nanoseconds. -/
def DEBOUNCE : UInt64 := 500000000

/-- The number of different jobs that may wait before it becomes a full refresh. -/
def MAX_PENDING : Nat := 32

/-- `u64::saturating_add` -/
def saturatingAdd (a b : UInt64) : UInt64 :=
  if a.toNat + b.toNat < 18446744073709551616 then a + b else UInt64.ofNat (18446744073709551615)

/-- What is to be read again. -/
inductive Refresh where
  | full
  | jobs (names : List Str)
deriving DecidableEq, Repr

/-- What the driver has to do now. -/
inductive Action where
  | discover
  | refresh (what : Refresh)
  | wait (until' : Option UInt64)
deriving DecidableEq, Repr

/-- A message to the owner of the cache. -/
inductive Update where
  | replace (cluster : Str) (jobs : Jobs)
  | set (cluster job : Str) (ips : List Ipv4Addr)
deriving DecidableEq

namespace Update

/-- Apply the message to the cache. -/
def apply : Update → Method Error (Cache × Mem) Unit
  | replace cluster jobs => Cache.update cluster jobs
  | set cluster job ips => Cache.set cluster job ips

/-- The cluster of the message. -/
def cluster : Update → Str
  | replace cluster _ => cluster
  | set cluster _ _ => cluster

end Update

/-- `hoplib::Topic`: what an event is about. -/
inductive Topic where
  | ping
  | status
  | agent (id : Str)
  | job (name : Str)
  | task (job : Str)
  | other
deriving DecidableEq, Repr

/-- An event of the stream, by what `Event::topic` says of it; `none` is one that cannot be
    read. -/
structure Event where
  topic : Option Topic
deriving DecidableEq, Repr

/-- What an event means for the cache. -/
inductive Kind where
  | seed
  | full
  | job (name : Str)
  | ignore
deriving DecidableEq, Repr

/-- What the event means for the cache. -/
def classify (ev : Event) : Kind :=
  match ev.topic with
  | some .ping => .seed
  | some .status => .full
  | some (.agent _) => .full
  | some (.job name) => if !name.isEmpty then .job name else .ignore
  | some (.task job) => if !job.isEmpty then .job job else .ignore
  | some .other => .ignore
  | none => .full -- what cannot be read says at least that something changed

/-- The watcher of one peer. -/
structure Watcher where
  endpoint : Str
  cluster : Option Str
  /-- when the next discovery may run -/
  retryAt : UInt64
  /-- when the refresh runs, if one is pending -/
  due : Option UInt64
  /-- a full refresh is pending -/
  full : Bool
  /-- the jobs that are pending -/
  jobs : List Str
  interval : UInt64
  debounce : UInt64
deriving DecidableEq, Repr

namespace Watcher

/-- A watcher for the peer at `endpoint`. -/
def new (endpoint : Str) : Fallible Watcher := do
  let endpoint ← owned endpoint
  return {
    endpoint, cluster := none, retryAt := 0, due := none, full := false, jobs := [],
    interval := RECONNECT, debounce := DEBOUNCE }

/-- The same watcher with another wait after an error, in nanoseconds. -/
def withInterval (w : Watcher) (d : UInt64) : Watcher := { w with interval := d }

/-- What the driver has to do now. -/
def next (w : Watcher) (now : UInt64) : Action × Watcher :=
  if w.cluster.isNone then
    -- undiscovered: nothing but a discovery, and that one not before `retryAt`
    if now ≥ w.retryAt then (.discover, w) else (.wait (some w.retryAt), w)
  else
    match w.due with
    | some t =>
      if t ≤ now then
        -- what was pending is taken out before the driver has done anything with it
        let what := if w.full then Refresh.full else Refresh.jobs w.jobs
        (.refresh what, { w with due := none, jobs := [], full := false })
      else (.wait (some t), w)
    | none => (.wait none, w)

/-- `/v1/status` failed: again after `interval`. -/
def discoverFailed (w : Watcher) (now : UInt64) : Watcher :=
  { w with retryAt := saturatingAdd now w.interval }

/-- `/v1/status` answered with `name`. -/
def discovered (now : UInt64) (name : Str) : Method Error (Watcher × Mem) Unit := do
  let w ← Method.self
  let name := trim name
  -- a name of white space only is a failed discovery, and an error as well
  if name.isEmpty then
    Method.put (w.discoverFailed now)
    Method.throw .noClusterName
  else
    let name ← Method.alloc (lower name)
    Method.put { w with cluster := some name }

/-- A full refresh becomes pending. -/
def pendFull (w : Watcher) (now : UInt64) : Watcher :=
  { w with full := true, jobs := [], due := some (w.due.getD (saturatingAdd now w.debounce)) }

/-- A refresh of the jobs on the list becomes pending. -/
def pendJobs (w : Watcher) (now : UInt64) (jobs : List Str) : Watcher :=
  { w with jobs, due := some (w.due.getD (saturatingAdd now w.debounce)) }

/-- An event of the stream. -/
def event (now : UInt64) (ev : Event) : Method Error (Watcher × Mem) Unit := do
  let w ← Method.self
  match classify ev with
  -- a ping does not wait for the window: what is due becomes due now
  | .seed => Method.put { w with full := true, jobs := [], due := some now }
  | .full => Method.put (w.pendFull now)
  | .job name =>
    -- the full refresh that is pending covers this job
    if w.full then return ()
    else
      -- both reservations come before the first field is written
      let name ← Method.alloc (lower name)
      if w.jobs.contains name then Method.put (w.pendJobs now w.jobs)
      -- too many to fetch one by one: one full refresh instead
      else if w.jobs.length ≥ MAX_PENDING then Method.put (w.pendFull now)
      else
        Method.alloc tryReserve
        Method.put (w.pendJobs now (w.jobs ++ [name]))
  | .ignore => return ()

/-- The stream broke: what was pending lapses. -/
def lost (w : Watcher) : Watcher := { w with due := none, full := false, jobs := [] }

/-- `cluster_owned` -/
def clusterOwned (w : Watcher) : Fallible Str := do
  let name ← Method.okOr w.cluster .noClusterName
  owned name

/-- The state for a full refresh came in. -/
def refreshedFull (w : Watcher) (agents : List AgentInfo) (tasks : List AgentTasks)
    (here : Option Local) : Fallible Update := do
  let cluster ← w.clusterOwned
  let jobs ← buildJobs agents tasks here
  return .replace cluster jobs

/-- The state of one job came in. -/
def refreshedJob (w : Watcher) (job : Str) (status : JobStatus) (here : Option Local) :
    Fallible Update := do
  let cluster ← w.clusterOwned
  let name ← lower job
  let ips ← buildJob job status.agents status.tasks here
  return .set cluster name ips

/-- A refresh failed: one of jobs becomes a full one at once, a full one runs again after
    `interval`. -/
def refreshFailed (w : Watcher) (now : UInt64) (what : Refresh) : Watcher :=
  let t := match what with
    | .full => saturatingAdd now w.interval
    | .jobs _ => now
  -- what is pending already keeps its moment when that is the earlier one
  let due := match w.due with
    | some d => min d t
    | none => t
  { w with full := true, jobs := [], due := some due }

end Watcher

end HopDns

import HopDns.ForStd.Run
import HopDns.Native.Host

/-!
# The two drivers and their clocks

`watch` of `host.rs`, a thread, and `watch` of `bin/hopdns-hopos.rs`, a task, go round
the same loop, and their functions `refresh` do the same but for the clock. The host's
`refresh` is handed a reading of the clock from before the fetch, and passes it on to
`refresh_failed`; the one of HopOS reads the clock again once the fetch has failed. The
host knows of no node it runs on. What `watch` logs is left out, and so are the ends of
its thread.
-/

namespace HopDns

open ForStd

/-- The programs that drive a watcher. -/
inductive Platform where
  | host
  | hopos
deriving DecidableEq, Repr

/-- The reading of the clock that goes to `refresh_failed`: `began` is the argument `now` of
    the host's `refresh`, `now` the clock when the refresh has failed. -/
def Platform.reading (p : Platform) (began now : UInt64) : UInt64 :=
  match p with
  | .host => began
  | .hopos => now

/-- The node that goes with an answer: `None` in `host.rs`, `node.local()` on HopOS. -/
def Platform.Knows : Platform → Option Local → Prop
  | .host, here => here = none
  | .hopos, _ => True

/-- The refresh that is under way where the loop stands. -/
def Phase.refresh? : Phase → Option Refresh
  | .agents => some .full
  | .tasks _ => some .full
  | .jobs all _ => some (.jobs all)
  | _ => none

/-- A driver and its clock. -/
structure Loop where
  driver : Driver
  /-- what the clock last said -/
  clock : UInt64
  /-- what it said when `refresh` was called -/
  began : UInt64
  /-- the messages sent to the owner of the cache, in order -/
  sent : List Update

namespace Loop

/-- What happens, and what the clock says then. -/
inductive Act where
  /-- a turn of the loop: `next` reads the clock, and it is read once more for `refresh` -/
  | turn (now began : UInt64)
  | status (now : UInt64) (name : Option Str)
  | agents (now : UInt64) (agents : List AgentInfo)
  /-- an answer of `/v1/tasks`, and what `refreshed_full` made of it -/
  | tasks (now : UInt64) (tasks : List AgentTasks) (here : Option Local)
      (result : Except Error Update)
  /-- the status of a job, and what `refreshed_job` made of it -/
  | job (now : UInt64) (status : JobStatus) (here : Option Local) (result : Except Error Update)
  /-- a request of the refresh failed -/
  | failed (now : UInt64) (what : Refresh)
  | hear (now : UInt64) (h : Heard)
  | timeout (now : UInt64)

/-- The loop after a step of its driver at `now`, with a message sent or none. -/
def goOn (l : Loop) (now : UInt64) (next : Driver × Option Update) : Loop :=
  { l with driver := next.1, clock := now, sent := l.sent ++ next.2.toList }

/-- The steps of a loop. -/
inductive Step (p : Platform) : Loop → Act → Loop → Prop where
  -- the two readings of a turn may differ, and no step goes back in time
  | turn {l : Loop} (now began : UInt64) (hphase : l.driver.phase = .loop) (hnow : l.clock ≤ now)
      (hbegan : now ≤ began) :
      Step p l (.turn now began)
        { l with driver := l.driver.turn now, clock := began, began }
  | status {l : Loop} (now : UInt64) (name : Option Str) (hphase : l.driver.phase = .status)
      (hnow : l.clock ≤ now) :
      Step p l (.status now name) (l.goOn now (l.driver.gotStatus now name, none))
  | agents {l : Loop} (now : UInt64) (agents : List AgentInfo) (hphase : l.driver.phase = .agents)
      (hnow : l.clock ≤ now) :
      Step p l (.agents now agents) (l.goOn now (l.driver.gotAgents agents, none))
  -- what `refreshedFull` makes of the answers is part of the step, an error included
  | tasks {l : Loop} {mem : Mem} {result : Except Error Update} (now : UInt64)
      (agents : List AgentInfo) (tasks : List AgentTasks) (here : Option Local)
      (hphase : l.driver.phase = .tasks agents) (hnow : l.clock ≤ now) (hhere : p.Knows here)
      (hresult : (l.driver.watcher.refreshedFull agents tasks here).run l.driver.mem =
        (result, mem)) :
      Step p l (.tasks now tasks here result) (l.goOn now (l.driver.gotTasks agents tasks here))
  | job {l : Loop} {mem : Mem} {result : Except Error Update} (now : UInt64) (all : List Str)
      (job : Str) (rest : List Str) (status : JobStatus) (here : Option Local)
      (hphase : l.driver.phase = .jobs all (job :: rest)) (hnow : l.clock ≤ now)
      (hhere : p.Knows here)
      (hresult : (l.driver.watcher.refreshedJob job status here).run l.driver.mem =
        (result, mem)) :
      Step p l (.job now status here result)
        (l.goOn now (l.driver.gotJob (p.reading l.began now) all job rest status here))
  -- of either kind of refresh, at any of its requests
  | failed {l : Loop} (now : UInt64) (what : Refresh)
      (hphase : l.driver.phase.refresh? = some what) (hnow : l.clock ≤ now) :
      Step p l (.failed now what)
        (l.goOn now (l.driver.fetchFailed (p.reading l.began now) what, none))
  | hear {l : Loop} (now : UInt64) (h : Heard) (hphase : l.driver.phase = .waiting)
      (hnow : l.clock ≤ now) :
      Step p l (.hear now h) (l.goOn now (l.driver.hear now h, none))
  | timeout {l : Loop} (now : UInt64) (hphase : l.driver.phase = .waiting) (hnow : l.clock ≤ now) :
      Step p l (.timeout now) (l.goOn now (l.driver.timeout, none))

/-- A loop before its first turn, with a new watcher. -/
def Initial (l : Loop) : Prop :=
  ∃ endpoint mem, (Watcher.new endpoint).run mem = (.ok l.driver.watcher, l.driver.mem) ∧
    l.driver.phase = .loop ∧ l.sent = []

/-- A state of the loop that some order of steps leads to. -/
abbrev Reachable (p : Platform) (l : Loop) : Prop := ForStd.Reachable Initial (Step p) l

end Loop

end HopDns

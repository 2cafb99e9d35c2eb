import HopDns.Native.Server
import HopDns.Native.Watcher

/-!
# The driver of a peer

The loop `host::watch` around a watcher, with `host::refresh`, cut where it waits for
an answer of Hop or for the stream; and `host::drain`, which takes the messages of the
watchers. The log lines are left out.
-/

namespace HopDns

open ForStd

/-- `host::Heard`: what the reader of the stream tells its watcher. -/
inductive Heard where
  | event (ev : Event)
  | lost
deriving DecidableEq

/-- Where the loop stands. -/
inductive Phase where
  /-- at its head -/
  | loop
  /-- at the stream -/
  | waiting
  /-- at `/v1/status` -/
  | status
  /-- at `/v1/agents`, of a full refresh -/
  | agents
  /-- at `/v1/tasks`, with the agents it got -/
  | tasks (agents : List AgentInfo)
  /-- at the status of the first job of `rest`, of a refresh of the jobs `all` -/
  | jobs (all rest : List Str)
deriving DecidableEq

/-- The watcher of a peer and the loop around it. -/
structure Driver where
  watcher : Watcher
  phase : Phase
  mem : Mem

namespace Driver

/-- The loop of `refresh` over the jobs: the next one is asked, or the loop is done. -/
def askJobs (d : Driver) (all : List Str) : List Str → Driver
  | [] => { d with phase := .loop }
  | j :: rest => { d with phase := .jobs all (j :: rest) }

/-- A turn of the loop, up to where it waits. -/
def turn (d : Driver) (now : UInt64) : Driver :=
  match d.watcher.next now with
  | (.discover, w) => { d with watcher := w, phase := .status }
  | (.refresh .full, w) => { d with watcher := w, phase := .agents }
  | (.refresh (.jobs names), w) => { d with watcher := w }.askJobs names names
  | (.wait _, w) => { d with watcher := w, phase := .waiting }

/-- An answer of `/v1/status`, or its failure. -/
def gotStatus (d : Driver) (now : UInt64) : Option Str → Driver
  | some name =>
    -- an error of `discovered` is logged, no more
    match (Watcher.discovered now name).run (d.watcher, d.mem) with
    | (_, w, mem) => { watcher := w, phase := .loop, mem }
  | none => { d with watcher := d.watcher.discoverFailed now, phase := .loop }

/-- An answer of `/v1/agents`. -/
def gotAgents (d : Driver) (agents : List AgentInfo) : Driver := { d with phase := .tasks agents }

/-- An answer of `/v1/tasks`: the message that is sent, if the view can be built. -/
def gotTasks (d : Driver) (agents : List AgentInfo) (tasks : List AgentTasks)
    (here : Option Local) : Driver × Option Update :=
  -- a view that cannot be built is logged too, and the watcher is not told
  match (d.watcher.refreshedFull agents tasks here).run d.mem with
  | (.ok u, mem) => ({ d with phase := .loop, mem }, some u)
  | (.error _, mem) => ({ d with phase := .loop, mem }, none)

/-- An answer with the status of a job: the message that is sent; a job that fails ends the
    refresh. -/
def gotJob (d : Driver) (now : UInt64) (all : List Str) (job : Str) (rest : List Str)
    (status : JobStatus) (here : Option Local) : Driver × Option Update :=
  match (d.watcher.refreshedJob job status here).run d.mem with
  -- one message a job; those sent before a failure stay sent
  | (.ok u, mem) => ({ d with mem }.askJobs all rest, some u)
  | (.error _, mem) =>
    ({ watcher := d.watcher.refreshFailed now (.jobs all), phase := .loop, mem }, none)

/-- Hop did not answer a request of the refresh `what`. -/
def fetchFailed (d : Driver) (now : UInt64) (what : Refresh) : Driver :=
  { d with watcher := d.watcher.refreshFailed now what, phase := .loop }

/-- What the reader of the stream told. -/
def hear (d : Driver) (now : UInt64) : Heard → Driver
  | .event ev =>
    -- what the watcher had no memory for is logged and passed over
    match (Watcher.event now ev).run (d.watcher, d.mem) with
    | (_, w, mem) => { watcher := w, phase := .loop, mem }
  | .lost => { d with watcher := d.watcher.lost, phase := .loop }

/-- The wait is over, and nothing was heard. -/
def timeout (d : Driver) : Driver := { d with phase := .loop }

end Driver

/-- `host::drain`: lay every waiting message in the cache; one that fails is dropped. -/
def drain (updates : List Update) (s : Cache × Mem) : Cache × Mem :=
  updates.foldl (fun s u => ((Update.apply u).run s).2) s

end HopDns

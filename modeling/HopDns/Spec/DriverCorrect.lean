import HopDns.Native.Loop
import HopDns.Spec.WatcherInvariant

/-!
# The steps of a driver

What the pieces of the loop around a watcher do to it, one statement for each.

## Key results

- `Driver.turn_cases`: a turn starts the refresh that `next` gives back
- `Driver.gotTasks_eq`, `Driver.gotJob_ok`, `Driver.gotJob_error`: the answers of a refresh
-/

namespace HopDns

open ForStd

namespace Driver

/-- A driver that asks for the jobs of a list keeps its watcher and its memory. -/
theorem askJobs_frame (d : Driver) (all rest : List Str) :
    (d.askJobs all rest).watcher = d.watcher ∧ (d.askJobs all rest).mem = d.mem ∧
      ∀ agents, (d.askJobs all rest).phase ≠ .tasks agents := by
  cases rest <;> exact ⟨rfl, rfl, fun _ h => by cases h⟩

/-- The turn starts the refresh that `next` gives back, or leaves the watcher alone. -/
theorem turn_cases (d : Driver) (now : UInt64) :
    (∃ what, (d.watcher.next now).1 = .refresh what ∧ (d.turn now).watcher = d.watcher.taken ∧
      (d.turn now).mem = d.mem) ∨
    ((∀ what, (d.watcher.next now).1 ≠ .refresh what) ∧ (d.turn now).watcher = d.watcher ∧
      (d.turn now).mem = d.mem ∧ (d.turn now).phase.refresh? = none) := by
  unfold turn
  obtain ⟨due, -, -, heq⟩ | ⟨hsame, hnot⟩ := d.watcher.next_cases now
  · refine .inl ⟨_, by rw [heq], ?_⟩
    rw [heq]
    cases hfull : d.watcher.full with
    | true => exact ⟨rfl, rfl⟩
    | false =>
      obtain ⟨hwatcher, hmem, -⟩ :=
        askJobs_frame { d with watcher := d.watcher.taken } d.watcher.jobs d.watcher.jobs
      exact ⟨hwatcher, hmem⟩
  · -- `next` left the watcher as it was
    refine .inr ⟨hnot, ?_⟩
    rcases hnext : d.watcher.next now with ⟨action, w⟩
    rw [hnext] at hsame hnot
    obtain rfl : w = d.watcher := hsame
    cases action with
    | refresh what => exact absurd rfl (hnot what)
    | discover => exact ⟨rfl, rfl, rfl⟩
    | wait limit => exact ⟨rfl, rfl, rfl⟩

/-- The answer of `/v1/tasks` leaves the watcher alone, and the refresh is over. -/
theorem gotTasks_eq (d : Driver) {agents : List AgentInfo} {tasks : List AgentTasks}
    {here : Option Local} {result : Except Error Update} {mem : Mem}
    (h : (d.watcher.refreshedFull agents tasks here).run d.mem = (result, mem)) :
    d.gotTasks agents tasks here = ({ d with phase := .loop, mem }, result.toOption) := by
  unfold gotTasks
  rw [h]
  cases result <;> rfl

section

variable (d : Driver) (now : UInt64) (all : List Str) {job : Str} (rest : List Str)
  {status : JobStatus} {here : Option Local} {mem : Mem}

/-- The status of a job is made a message, and the next job is asked. -/
theorem gotJob_ok {u : Update}
    (h : (d.watcher.refreshedJob job status here).run d.mem = (.ok u, mem)) :
    d.gotJob now all job rest status here = ({ d with mem }.askJobs all rest, some u) := by
  unfold gotJob
  rw [h]

/-- A status that cannot be made a message is a refresh that failed. -/
theorem gotJob_error {e : Error}
    (h : (d.watcher.refreshedJob job status here).run d.mem = (.error e, mem)) :
    d.gotJob now all job rest status here =
      ({ watcher := d.watcher.refreshFailed now (.jobs all), phase := .loop, mem }, none) := by
  unfold gotJob
  rw [h]

end

end Driver

end HopDns

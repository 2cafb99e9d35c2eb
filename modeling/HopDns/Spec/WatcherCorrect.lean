import HopDns.ForStd.Run
import HopDns.Spec.BuildCorrect

/-!
# The watcher

What the operations of a watcher do to what it has pending, and what holds of every
run of them, in any order, with any times, events and answers of the allocator.

## Key results

- `Watcher.event_commits`, `Watcher.discovered_commits`: the operations that allocate do all
  of their work or nothing
- `Watcher.Reachable.consistent`: what is pending has a moment at which it runs
- `Watcher.notification_kept`: no notification is lost
-/

namespace HopDns

open ForStd

/-- What a notification asks to be read again: everything, or one job, in lower case. -/
inductive Wanted where
  | all
  | job (name : Str)
deriving DecidableEq

/-- What an event asks for. -/
def Kind.wanted : Kind → Option Wanted
  | .seed => some .all
  | .full => some .all
  | .job name => some (.job (lowercase name))
  | .ignore => none

/-- The refresh reads again what is asked for. -/
def Refresh.Covers : Refresh → Wanted → Prop
  | .full, _ => True
  | .jobs names, .job name => name ∈ names
  | .jobs _, .all => False

namespace Watcher

/-! ## The operations that allocate -/

/-- The watcher after an event, with memory in plenty. -/
def hears (w : Watcher) (now : UInt64) (ev : Event) : Watcher :=
  match classify ev with
  | .seed => { w with full := true, jobs := [], due := some now }
  | .full => w.pendFull now
  | .job name =>
    if w.full then w
    else if w.jobs.contains (lowercase name) then w.pendJobs now w.jobs
    else if w.jobs.length ≥ MAX_PENDING then w.pendFull now
    else w.pendJobs now (w.jobs ++ [lowercase name])
  | .ignore => w

/-- The watcher after an answer to `/v1/status`, with memory in plenty. -/
def learns (w : Watcher) (now : UInt64) (name : Str) : Watcher :=
  if (trim name).isEmpty then w.discoverFailed now
  else { w with cluster := some (lowercase (trim name)) }

/-- `event` does what an event does to the watcher, or it finds no memory and leaves it alone. -/
theorem event_commits (w : Watcher) (now : UInt64) (ev : Event) :
    Commits (event now ev) w (.ok ()) (w.hears now ev) := by
  refine Atomic.self_bind ?_
  unfold hears
  cases classify ev with
  | seed => exact Atomic.put _ _
  | full => exact Atomic.put _ _
  | ignore => exact Atomic.pure _ _
  -- the name is folded and the list made longer only where the job is added, and each can find no
  -- memory
  | job name =>
    simp only
    split
    · exact Atomic.pure _ _
    · refine Atomic.alloc_bind (lower_yields name) ?_
      split
      · exact Atomic.put _ _
      · split
        · exact Atomic.put _ _
        · exact Atomic.alloc_bind tryReserve_yields (Atomic.put _ _)

/-- `discovered` learns the name, refuses a blank one, or finds no memory. -/
theorem discovered_commits (w : Watcher) (now : UInt64) (name : Str) :
    Commits (discovered now name) w
      (if (trim name).isEmpty then .error .noClusterName else .ok ()) (w.learns now name) := by
  refine Atomic.self_bind ?_
  unfold learns
  simp only
  split
  · exact ⟨rfl, fun _ => .inl ⟨rfl, rfl⟩⟩
  · exact Atomic.alloc_bind (lower_yields _) (Atomic.put _ _)

/-! ## The messages -/

/-- The name of the cluster is copied, if it is known. -/
private theorem clusterOwned_yields (w : Watcher) :
    Yields w.clusterOwned (match w.cluster with
      | some c => .ok c
      | none => .error .noClusterName) := by
  unfold clusterOwned
  cases hc : w.cluster with
  | some c => exact (Computes.okOr (some c) _).bind (owned_yields c)
  | none => exact (Computes.okOr none _).bind_error

/-- A watcher that knows its cluster makes the view of it from a report. -/
theorem refreshedFull_yields {w : Watcher} {c : Str} (hc : w.cluster = some c)
    (agents : List AgentInfo) (tasks : List AgentTasks) (here : Option Local) :
    Yields (w.refreshedFull agents tasks here) (.ok (.replace c (viewOf agents tasks here))) := by
  have hcluster := w.clusterOwned_yields
  rw [hc] at hcluster
  exact hcluster.bind ((buildJobs_yields agents tasks here).bind (Computes.pure _))

/-- A watcher that knows its cluster makes the addresses of a job from its status. -/
theorem refreshedJob_yields {w : Watcher} {c : Str} (hc : w.cluster = some c) (job : Str)
    (status : JobStatus) (here : Option Local) :
    Yields (w.refreshedJob job status here)
      (.ok (.set c (lowercase job)
        (addresses status.agents status.tasks here (lowercase job)))) := by
  have hcluster := w.clusterOwned_yields
  rw [hc] at hcluster
  exact hcluster.bind ((lower_yields job).bind
    ((buildJob_yields job status.agents status.tasks here).bind (Computes.pure _)))

section

variable {w : Watcher} {agents : List AgentInfo} {tasks : List AgentTasks} {here : Option Local}
  {job : Str} {status : JobStatus} {u : Update} {mem mem' : Mem}

/-- Without a name there is no refresh. -/
private theorem clusterOwned_none (hc : w.cluster = none) :
    Yields w.clusterOwned (.error .noClusterName) := by
  have hyields := w.clusterOwned_yields
  rw [hc] at hyields
  exact hyields

/-- A view that was made is that of the report, for the cluster of the watcher. -/
theorem refreshedFull_eq_ok (h : (w.refreshedFull agents tasks here).run mem = (.ok u, mem')) :
    ∃ c, w.cluster = some c ∧ u = .replace c (viewOf agents tasks here) := by
  cases hc : w.cluster with
  | none =>
    have hfails : Yields (w.refreshedFull agents tasks here) (.error .noClusterName) :=
      (clusterOwned_none hc).bind_error
    cases hfails.eq_of_ok h
  | some c =>
    have hu := (refreshedFull_yields hc agents tasks here).eq_of_ok h
    exact ⟨c, rfl, (Except.ok.inj hu).symm⟩

/-- A row that was made is that of the job, for the cluster of the watcher. -/
theorem refreshedJob_eq_ok (h : (w.refreshedJob job status here).run mem = (.ok u, mem')) :
    ∃ c, w.cluster = some c ∧
      u = .set c (lowercase job) (addresses status.agents status.tasks here (lowercase job)) := by
  cases hc : w.cluster with
  | none =>
    have hfails : Yields (w.refreshedJob job status here) (.error .noClusterName) :=
      (clusterOwned_none hc).bind_error
    cases hfails.eq_of_ok h
  | some c =>
    have hu := (refreshedJob_yields hc job status here).eq_of_ok h
    exact ⟨c, rfl, (Except.ok.inj hu).symm⟩

end

/-- The message is one the watcher makes of some report. -/
def Sends (w : Watcher) (u : Update) : Prop :=
  (∃ agents tasks here mem mem', (w.refreshedFull agents tasks here).run mem = (.ok u, mem')) ∨
    ∃ job status here mem mem', (w.refreshedJob job status here).run mem = (.ok u, mem')

/-- A message is the view of a report, or the addresses of one job, for the cluster of the
    watcher. -/
theorem Sends.eq {w : Watcher} {u : Update} (h : w.Sends u) : ∃ c, w.cluster = some c ∧
    ((∃ agents tasks here, u = .replace c (viewOf agents tasks here)) ∨
      ∃ agents tasks here job, u = .set c (lowercase job)
        (addresses agents tasks here (lowercase job))) := by
  obtain ⟨agents, tasks, here, mem, mem', hrun⟩ | ⟨job, status, here, mem, mem', hrun⟩ := h
  · obtain ⟨c, hc, hu⟩ := refreshedFull_eq_ok hrun
    exact ⟨c, hc, .inl ⟨agents, tasks, here, hu⟩⟩
  · obtain ⟨c, hc, hu⟩ := refreshedJob_eq_ok hrun
    exact ⟨c, hc, .inr ⟨status.agents, status.tasks, here, job, hu⟩⟩

/-- A message is about the cluster of the watcher that made it. -/
theorem Sends.cluster {w : Watcher} {u : Update} (h : w.Sends u) {c : Str}
    (hc : w.cluster = some c) : u.cluster = c := by
  obtain ⟨c', hc', ⟨agents, tasks, here, rfl⟩ | ⟨agents, tasks, here, job, rfl⟩⟩ := h.eq
  · exact Option.some.inj (hc'.symm.trans hc)
  · exact Option.some.inj (hc'.symm.trans hc)

/-! ## What is pending -/

/-- What is asked for is on the list of what is read next. -/
def Lists (w : Watcher) (k : Wanted) : Prop :=
  w.full = true ∨ ∃ name, k = .job name ∧ name ∈ w.jobs

/-- A refresh of what is asked for is pending: it is on the list, and the list has a moment at
    which it is read. -/
def Pending (w : Watcher) (k : Wanted) : Prop := w.due.isSome ∧ w.Lists k

/-- The list has a moment at which it is read exactly when something is on it, and it names
    few jobs, each once and in lower case. -/
structure Consistent (w : Watcher) : Prop where
  due : w.due.isSome ↔ w.full = true ∨ w.jobs ≠ []
  cleared : w.full = true → w.jobs = []
  few : w.jobs.length ≤ MAX_PENDING
  distinct : w.jobs.Nodup
  folded : ∀ name ∈ w.jobs, lowercase name = name

/-- What is listed is pending. -/
theorem Consistent.pending {w : Watcher} (hw : w.Consistent) {k : Wanted} (h : w.Lists k) :
    w.Pending k := by
  refine ⟨hw.due.mpr ?_, h⟩
  obtain h | ⟨name, -, hmem⟩ := h
  · exact .inl h
  · exact .inr (List.ne_nil_of_mem hmem)

/-- A watcher with a full refresh pending, at any moment, is consistent. -/
theorem Consistent.of_full {w : Watcher} (hdue : w.due.isSome) (hfull : w.full = true)
    (hjobs : w.jobs = []) : w.Consistent where
  due := by simp [hdue, hfull]
  cleared := fun _ => hjobs
  few := by simp [hjobs]
  distinct := by simp [hjobs]
  folded := by simp [hjobs]

/-- A watcher with nothing pending is consistent. -/
theorem Consistent.of_idle {w : Watcher} (hdue : w.due = none) (hfull : w.full = false)
    (hjobs : w.jobs = []) : w.Consistent where
  due := by simp [hdue, hfull, hjobs]
  cleared := fun _ => hjobs
  few := by simp [hjobs]
  distinct := by simp [hjobs]
  folded := by simp [hjobs]

/-- A full refresh is wanted from now on, and a time for it is set. -/
theorem Consistent.pendFull {w : Watcher} (now : UInt64) : (w.pendFull now).Consistent :=
  .of_full rfl rfl rfl

/-- An event keeps the time of what is pending. -/
theorem Consistent.hears {w : Watcher} (hw : w.Consistent) (now : UInt64) (ev : Event) :
    (w.hears now ev).Consistent := by
  unfold Watcher.hears
  -- a ping and a change of the agents ask for everything, a job for itself
  cases classify ev with
  | seed => exact .of_full rfl rfl rfl
  | full => exact .pendFull now
  | ignore => exact hw
  | job name =>
    simp only
    split
    · exact hw
    rename_i hfull
    split
    · -- the job is on the list already
      rename_i hmem
      have hne : w.jobs ≠ [] := List.ne_nil_of_mem (List.contains_iff_mem.mp hmem)
      exact ⟨by simp [pendJobs, hne], hw.cleared, hw.few, hw.distinct, hw.folded⟩
    split
    · exact .pendFull now
    · -- the job is new, and the list has room for it
      rename_i hmem hroom
      have hnew : lowercase name ∉ w.jobs := fun h => hmem (List.contains_iff_mem.mpr h)
      refine ⟨by simp [pendJobs], fun h => absurd h hfull, ?_, ?_, ?_⟩
      · simp [pendJobs]
        omega
      · simp only [pendJobs]
        rw [List.nodup_append]
        refine ⟨hw.distinct, by simp, fun a ha b hb => ?_⟩
        rw [List.mem_singleton.mp hb]
        exact fun h => hnew (h ▸ ha)
      · intro name' hname'
        obtain hname' | hname' := List.mem_append.mp hname'
        · exact hw.folded name' hname'
        · rw [List.mem_singleton.mp hname', lowercase_idem]

/-- After an event, what it asks for is pending. -/
theorem pending_hears {w : Watcher} (hw : w.Consistent) (now : UInt64) {ev : Event} {k : Wanted}
    (hk : (classify ev).wanted = some k) : (w.hears now ev).Pending k := by
  refine (hw.hears now ev).pending ?_
  -- with this event the watcher wants what it names, or everything
  unfold hears
  cases hc : classify ev with
  | seed => exact .inl rfl
  | full => exact .inl rfl
  | ignore =>
    rw [hc] at hk
    cases hk
  | job name =>
    rw [hc] at hk
    obtain rfl := Option.some.inj hk
    -- everything is pending already, the job is listed, there are too many, or it is added
    simp only
    split
    · exact .inl ‹_›
    split
    · rename_i hmem
      exact .inr ⟨_, rfl, List.contains_iff_mem.mp hmem⟩
    split
    · exact .inl rfl
    · exact .inr ⟨_, rfl, List.mem_append_right _ List.mem_cons_self⟩

/-- An event drops nothing from the list: a list that grew too long becomes everything. -/
theorem Lists.hears {w : Watcher} {k : Wanted} (h : w.Lists k) (now : UInt64) (ev : Event) :
    (w.hears now ev).Lists k := by
  unfold Watcher.hears
  -- nothing that is wanted is taken off by an event
  cases classify ev with
  | seed => exact .inl rfl
  | full => exact .inl rfl
  | ignore => exact h
  | job name =>
    simp only
    split
    · exact h
    split
    · exact h
    split
    · exact .inl rfl
    · -- the job of the event comes behind those on the list
      obtain h | ⟨name', hk, hmem⟩ := h
      · exact .inl h
      · exact .inr ⟨name', hk, List.mem_append_left _ hmem⟩

/-- No event changes the name of the cluster. -/
theorem cluster_hears (w : Watcher) (now : UInt64) (ev : Event) :
    (w.hears now ev).cluster = w.cluster := by
  -- only `discovered` sets the cluster
  unfold hears
  cases classify ev with
  | seed => rfl
  | full => rfl
  | ignore => rfl
  | job name =>
    simp only
    split
    · rfl
    split
    · rfl
    split <;> rfl

/-- An event never moves a pending refresh beyond its own moment. -/
private theorem due_hears {w : Watcher} {d : UInt64} (h : w.due = some d) (now : UInt64)
    (ev : Event) :
    ∃ d', (w.hears now ev).due = some d' ∧ d' ≤ max d now := by
  -- `max` on machine words is a comparison
  have hd : d ≤ max d now := by
    rw [UInt64.le_iff_toNat_le]
    show d.toNat ≤ (if d ≤ now then now else d).toNat
    split
    · rename_i hle
      exact UInt64.le_iff_toNat_le.mp hle
    · exact Nat.le_refl _
  have hnow : now ≤ max d now := by
    rw [UInt64.le_iff_toNat_le]
    show now.toNat ≤ (if d ≤ now then now else d).toNat
    split
    · exact Nat.le_refl _
    · rename_i hle
      rw [UInt64.le_iff_toNat_le] at hle
      omega
  -- only a ping sets a moment where there is one already
  unfold hears
  cases classify ev with
  | seed => exact ⟨now, rfl, hnow⟩
  | full => exact ⟨d, by simp [pendFull, h], hd⟩
  | ignore => exact ⟨d, h, hd⟩
  | job name =>
    simp only
    refine ⟨d, ?_, hd⟩
    split
    · exact h
    split
    · simp [pendJobs, h]
    split
    · simp [pendFull, h]
    · simp [pendJobs, h]

/-- What `next` starts is no longer pending, and neither is its time. -/
theorem Consistent.next {w : Watcher} (hw : w.Consistent) (now : UInt64) :
    (w.next now).2.Consistent := by
  unfold Watcher.next
  split
  · split <;> exact hw
  split
  · split
    · exact .of_idle rfl rfl rfl
    · exact hw
  · exact hw

/-- The next action depends on whether the cluster is known, and a refresh of jobs is one of
    the list. -/
theorem next_frame (w : Watcher) (now : UInt64) :
    (w.next now).2.cluster = w.cluster ∧ ((w.next now).1 = .discover → w.cluster = none) ∧
      (∀ what, (w.next now).1 = .refresh what → w.cluster.isSome) ∧
        ∀ names, (w.next now).1 = .refresh (.jobs names) → names = w.jobs := by
  unfold Watcher.next
  cases hc : w.cluster with
  | none => by_cases hnow : now ≥ w.retryAt <;> simp [hnow, hc]
  | some c =>
    cases hd : w.due with
    | none => simp [hc]
    | some t => by_cases hnow : t ≤ now <;> cases hf : w.full <;> simp +contextual [hnow, hc]

/-- What is pending is read now, or stays pending. -/
theorem Pending.next {w : Watcher} {k : Wanted} (h : w.Pending k) (now : UInt64) :
    (∃ what, (w.next now).1 = .refresh what ∧ what.Covers k) ∨ (w.next now).2.Pending k := by
  -- no cluster, nothing due, due now, or due later
  unfold Watcher.next
  split
  · split <;> exact .inr h
  split
  · split
    · refine .inl ⟨_, rfl, ?_⟩
      -- a full refresh covers each job, and a job refresh the jobs that were listed
      obtain hfull | ⟨name, rfl, hmem⟩ := h.2
      · rw [if_pos hfull]
        trivial
      · split
        · trivial
        · exact hmem
    · exact .inr h
  · exact .inr h

/-- A refresh that failed leaves everything pending. -/
theorem pending_refreshFailed (w : Watcher) (now : UInt64) (what : Refresh) (k : Wanted) :
    (w.refreshFailed now what).Pending k := ⟨rfl, .inl rfl⟩

/-- The answer to `/v1/status` leaves alone what is pending. -/
theorem learns_frame (w : Watcher) (now : UInt64) (name : Str) :
    (w.learns now name).due = w.due ∧ (w.learns now name).full = w.full ∧
      (w.learns now name).jobs = w.jobs := by
  unfold learns
  split <;> exact ⟨rfl, rfl, rfl⟩

/-- The name of the cluster leaves the times alone. -/
theorem Consistent.learns {w : Watcher} (hw : w.Consistent) (now : UInt64) (name : Str) :
    (w.learns now name).Consistent := by
  obtain ⟨hdue, hfull, hjobs⟩ := w.learns_frame now name
  exact ⟨by rw [hdue, hfull, hjobs]; exact hw.due, by rw [hfull, hjobs]; exact hw.cleared,
    by rw [hjobs]; exact hw.few, by rw [hjobs]; exact hw.distinct, by rw [hjobs]; exact hw.folded⟩

/-- What was pending is still pending when the name is known. -/
theorem Pending.learns {w : Watcher} {k : Wanted} (h : w.Pending k) (now : UInt64) (name : Str) :
    (w.learns now name).Pending k := by
  obtain ⟨hdue, hfull, hjobs⟩ := w.learns_frame now name
  unfold Pending Lists
  rw [hdue, hfull, hjobs]
  exact h

/-! ## Runs -/

/-- A call of an operation of the watcher. -/
inductive Call where
  | next (now : UInt64)
  | discovered (now : UInt64) (name : Str)
  | discoverFailed (now : UInt64)
  | event (now : UInt64) (ev : Event)
  | lost
  | refreshedFull (agents : List AgentInfo) (tasks : List AgentTasks) (here : Option Local)
  | refreshedJob (job : Str) (status : JobStatus) (here : Option Local)
  | refreshFailed (now : UInt64) (what : Refresh)

/-- What a call gives back. -/
inductive Outcome where
  | done
  | action (a : Action)
  | result (r : Except Error Unit)
  | update (r : Except Error Update)

/-- Make the call: what it gives back, and the watcher and the memory it leaves. -/
def perform : Call → Watcher × Mem → Outcome × Watcher × Mem
  | .next now, (w, mem) => (.action (w.next now).1, (w.next now).2, mem)
  | .discovered now name, s =>
    match (discovered now name).run s with
    | (r, s) => (.result r, s)
  | .discoverFailed now, (w, mem) => (.done, w.discoverFailed now, mem)
  | .event now ev, s =>
    match (event now ev).run s with
    | (r, s) => (.result r, s)
  | .lost, (w, mem) => (.done, w.lost, mem)
  | .refreshedFull agents tasks here, (w, mem) =>
    match (w.refreshedFull agents tasks here).run mem with
    | (r, mem) => (.update r, w, mem)
  | .refreshedJob job status here, (w, mem) =>
    match (w.refreshedJob job status here).run mem with
    | (r, mem) => (.update r, w, mem)
  | .refreshFailed now what, (w, mem) => (.done, w.refreshFailed now what, mem)

/-- A call and what it gave back, as a step of the watcher, whatever the allocator answers. -/
def Step (w : Watcher) (call : Call × Outcome) (w' : Watcher) : Prop :=
  ∃ mem mem', perform call.1 (w, mem) = (call.2, w', mem')

/-- A new watcher, with any wait after an error. -/
def Fresh (w : Watcher) : Prop :=
  ∃ endpoint interval mem mem' w₀, (new endpoint).run mem = (.ok w₀, mem') ∧
    w = w₀.withInterval interval

/-- A state some run of calls leads to. -/
abbrev Reachable (w : Watcher) : Prop := ForStd.Reachable Fresh Step w

/-- The watcher a call leaves, with memory in plenty. -/
def after (w : Watcher) : Call → Watcher
  | .next now => (w.next now).2
  | .discovered now name => w.learns now name
  | .discoverFailed now => w.discoverFailed now
  | .event now ev => w.hears now ev
  | .lost => w.lost
  | .refreshedFull _ _ _ => w
  | .refreshedJob _ _ _ => w
  | .refreshFailed now what => w.refreshFailed now what

/-- A step does all of what its call does, or nothing; a call of `next` always does it all. -/
theorem step_cases {w w' : Watcher} {call : Call} {o : Outcome} (h : Step w (call, o) w') :
    (w' = w.after call ∨ w' = w) ∧
      ∀ now, call = .next now → o = .action (w.next now).1 ∧ w' = (w.next now).2 := by
  obtain ⟨mem, mem', h⟩ := h
  -- the calls that can find no memory leave one of two states, the others one
  cases call with
  | next now =>
    obtain ⟨rfl, rfl, rfl⟩ := h
    refine ⟨.inl rfl, fun now' hnow => ?_⟩
    cases hnow
    exact ⟨rfl, rfl⟩
  | discovered now name =>
    -- with memory or without, one of two states is left
    have hstate := (discovered_commits w now name).state mem
    simp only [perform, Prod.mk.injEq] at h
    rw [h.2] at hstate
    exact ⟨hstate, fun now' hnow => by cases hnow⟩
  | event now ev =>
    have hstate := (event_commits w now ev).state mem
    simp only [perform, Prod.mk.injEq] at h
    rw [h.2] at hstate
    exact ⟨hstate, fun now' hnow => by cases hnow⟩
  | discoverFailed now =>
    obtain ⟨rfl, rfl, rfl⟩ := h
    exact ⟨.inl rfl, fun now' hnow => by cases hnow⟩
  | lost =>
    obtain ⟨rfl, rfl, rfl⟩ := h
    exact ⟨.inl rfl, fun now' hnow => by cases hnow⟩
  | refreshedFull agents tasks here =>
    obtain ⟨rfl, rfl, rfl⟩ := h
    exact ⟨.inl rfl, fun now' hnow => by cases hnow⟩
  | refreshedJob job status here =>
    obtain ⟨rfl, rfl, rfl⟩ := h
    exact ⟨.inl rfl, fun now' hnow => by cases hnow⟩
  | refreshFailed now what =>
    obtain ⟨rfl, rfl, rfl⟩ := h
    exact ⟨.inl rfl, fun now' hnow => by cases hnow⟩

/-- Every call keeps the time of what is pending. -/
theorem Consistent.after {w : Watcher} (hw : w.Consistent) (call : Call) :
    (w.after call).Consistent := by
  cases call with
  | next now => exact hw.next now
  | discovered now name => exact hw.learns now name
  | discoverFailed now => exact ⟨hw.due, hw.cleared, hw.few, hw.distinct, hw.folded⟩
  | event now ev => exact hw.hears now ev
  | lost => exact .of_idle rfl rfl rfl
  | refreshedFull agents tasks here => exact hw
  | refreshedJob job status here => exact hw
  | refreshFailed now what => exact .of_full rfl rfl rfl

/-- So does every step, whatever it finds of memory. -/
theorem Consistent.step {w w' : Watcher} {call : Call × Outcome} (hw : w.Consistent)
    (h : Step w call w') : w'.Consistent := by
  obtain rfl | rfl := (step_cases h).1
  · exact hw.after call.1
  · exact hw

/-- The fields of a new watcher. -/
theorem Fresh.exists_eq {w : Watcher} (h : Fresh w) : ∃ endpoint interval, w =
    { endpoint, cluster := none, retryAt := 0, due := none, full := false, jobs := [],
      interval, debounce := DEBOUNCE } := by
  obtain ⟨endpoint, interval, mem, mem', w₀, hrun, rfl⟩ := h
  have hnew : Yields (new endpoint) (.ok
      { endpoint, cluster := none, retryAt := 0, due := none, full := false, jobs := [],
        interval := RECONNECT, debounce := DEBOUNCE }) :=
    (owned_yields endpoint).bind (Computes.pure _)
  obtain rfl := Except.ok.inj (hnew.eq_of_ok hrun)
  exact ⟨endpoint, interval, rfl⟩

theorem Fresh.consistent {w : Watcher} (h : Fresh w) : w.Consistent := by
  obtain ⟨endpoint, interval, rfl⟩ := h.exists_eq
  exact .of_idle rfl rfl rfl

/-- In every reachable state, what is pending has a moment at which it runs. -/
theorem Reachable.consistent {w : Watcher} (h : w.Reachable) : w.Consistent := by
  have hinit : ∀ w, Fresh w → w.Consistent := fun _ h => h.consistent
  have hstep : ∀ w call w', w.Consistent → Step w call w' → w'.Consistent :=
    fun _ _ _ hw hstep => hw.step hstep
  exact ForStd.Reachable.invariant hinit hstep h

/-- The call was a `next` that gave back a refresh of what is asked for. -/
def Delivers (k : Wanted) (call : Call × Outcome) : Prop :=
  ∃ now what, call = (.next now, .action (.refresh what)) ∧ what.Covers k

/-- A step other than a lost stream delivers what is pending, or leaves it pending. -/
theorem Pending.step {w w' : Watcher} {k : Wanted} {call : Call × Outcome} (hw : w.Consistent)
    (h : w.Pending k) (hlost : call.1 ≠ .lost) (hstep : Step w call w') :
    Delivers k call ∨ w'.Pending k := by
  obtain ⟨call, o⟩ := call
  -- one case for each call; only `next` and `lost` can take what is pending away
  obtain ⟨hafter, hnext⟩ := step_cases hstep
  cases call with
  | next now =>
    obtain ⟨rfl, rfl⟩ := hnext now rfl
    obtain ⟨what, hwhat, hcovers⟩ | h := h.next now
    · exact .inl ⟨now, what, by rw [hwhat], hcovers⟩
    · exact .inr h
  | lost => exact absurd rfl hlost
  -- a new cluster makes everything pending
  | discovered now name =>
    obtain rfl | rfl := hafter
    · exact .inr (h.learns now name)
    · exact .inr h
  | event now ev =>
    obtain rfl | rfl := hafter
    · exact .inr ((hw.hears now ev).pending (h.2.hears now ev))
    · exact .inr h
  | discoverFailed now => obtain rfl | rfl := hafter <;> exact .inr h
  | refreshedFull agents tasks here => obtain rfl | rfl := hafter <;> exact .inr h
  | refreshedJob job status here => obtain rfl | rfl := hafter <;> exact .inr h
  -- what a refresh failed on is pending again
  | refreshFailed now what =>
    obtain rfl | rfl := hafter
    · exact .inr (pending_refreshFailed w now what k)
    · exact .inr h

/-- No notification is lost. What an accepted event asks for is, after any run of calls without
    a lost stream, read again or still pending; further events do not postpone it; and
    discovery keeps it. -/
theorem notification_kept {w : Watcher} (hw : w.Reachable) :
    (∀ now ev mem w₁ mem₁ k calls w₂, (event now ev).run (w, mem) = (.ok (), w₁, mem₁) →
      (classify ev).wanted = some k → Run Step w₁ calls w₂ → (∀ call ∈ calls, call.1 ≠ .lost) →
        (∃ call ∈ calls, Delivers k call) ∨ w₂.Pending k) ∧
    (∀ now ev mem d, w.due = some d →
      ∃ d', ((event now ev).run (w, mem)).2.1.due = some d' ∧ d' ≤ max d now) ∧
    (∀ now name mem k, w.Pending k →
      ((discovered now name).run (w, mem)).2.1.Pending k ∧ (w.discoverFailed now).Pending k) := by
  refine ⟨fun now ev mem w₁ mem₁ k calls w₂ hev hk hrun hlost => ?_, fun now ev mem d hd => ?_,
    fun now name mem k hk => ⟨?_, hk⟩⟩
  -- from the event on, step by step, until it is delivered
  · obtain ⟨-, rfl⟩ := (event_commits w now ev).eq_of_ok hev
    have hkeep : ∀ w call w', w.Consistent → Step w call w' → w'.Consistent :=
      fun _ _ _ hw hstep => hw.step hstep
    have hstep : ∀ w (call : Call × Outcome) w', w.Consistent → w.Pending k → call.1 ≠ .lost →
        Step w call w' → Delivers k call ∨ w'.Pending k :=
      fun _ _ _ hw hp hlost hstep => hp.step hw hlost hstep
    exact hrun.keepsUntil hkeep hstep hlost (hw.consistent.hears now ev)
      (pending_hears hw.consistent now hk)
  -- an event refused by the allocator leaves the moment where it was
  · obtain h | h := (event_commits w now ev).state mem
    · rw [h]
      exact due_hears hd now ev
    · rw [h]
      refine ⟨d, hd, ?_⟩
      obtain ⟨d', hd', hle⟩ := due_hears hd now ⟨some .other⟩
      obtain rfl := Option.some.inj (hd.symm.trans hd')
      exact hle
  -- neither way of learning the cluster drops anything
  · obtain h | h := (discovered_commits w now name).state mem <;> rw [h]
    · exact hk.learns now name
    · exact hk

/-- A watcher before its first call. -/
def peer : Watcher where
  endpoint := str "http://10.0.0.1:8080"
  cluster := none
  retryAt := 0
  due := none
  full := false
  jobs := []
  interval := RECONNECT
  debounce := DEBOUNCE

theorem peer_reachable : peer.Reachable :=
  ForStd.Reachable.of_init ⟨peer.endpoint, RECONNECT, [], [], peer, rfl, rfl⟩

/-- A job is named before the discovery, and the discovery fails: the job stays on the list. -/
theorem notification_kept_peer :
    (∃ call ∈ [(Call.next 7, Outcome.action .discover), (Call.discoverFailed 8, Outcome.done)],
      Delivers (.job (str "web")) call) ∨
      ((peer.hears 3 ⟨some (.job (str "Web"))⟩).discoverFailed 8).Pending (.job (str "web")) :=
  (notification_kept peer_reachable).1 3 ⟨some (.job (str "Web"))⟩ [] _ [] (.job (str "web"))
    _ _ rfl rfl (.cons ⟨[], [], rfl⟩ (.single ⟨[], [], rfl⟩))
    (by simp)

end Watcher

end HopDns

import HopDns.Spec.LoopCorrect

/-!
# A refresh is delivered or retried

`next` has cleared what was pending when a refresh runs. Each way out of the refresh is
to send what was asked for, or to make everything pending again. The drivers do so on
every way out but one: where both answers of a full refresh came in and the view cannot
be built, they only log.

## Key results

- `Loop.jobs_kept`: a refresh of jobs is delivered or retried
- `Loop.refresh_kept_iff`: when a refresh is delivered or retried
-/

namespace HopDns

open ForStd

namespace Loop

/-- A step of `refresh`: an answer to a request, or its failure. -/
def Act.Fetches : Act → Prop
  | .agents _ _ => True
  | .tasks _ _ _ _ => True
  | .job _ _ _ _ => True
  | .failed _ _ => True
  | _ => False

/-- The answers of a full refresh came in, and `refreshed_full` failed. -/
def Act.RebuildFails : Act → Prop
  | .tasks _ _ _ (.error _) => True
  | _ => False

/-- The messages hold everything that was asked for, for the cluster of the watcher. -/
def Delivers (w : Watcher) (us : List Update) : Refresh → Prop
  | .full => ∃ c jobs, w.cluster = some c ∧ .replace c jobs ∈ us
  | .jobs names => ∃ c, w.cluster = some c ∧
      ∀ name ∈ names, ∃ ips, .set c (lowercase name) ips ∈ us

/-- A full refresh is pending. -/
def Retries (l : Loop) : Prop := l.driver.watcher.full = true ∧ l.driver.watcher.due.isSome

/-- A refresh that was reported as failed, and sent nothing since. -/
def GaveUp (l l' : Loop) : Prop :=
  l'.driver.phase = .loop ∧ l'.sent = l.sent ∧ l'.Retries

section

variable {p : Platform} {l l' : Loop} {act : Act} (hfetch : act.Fetches) (hstep : Step p l act l')
include hfetch hstep

/-- A step of `refresh` is made where one is under way. -/
private theorem busy_of_fetches : l.driver.phase.refresh? ≠ none := by
  cases hstep with
  | turn => exact hfetch.elim
  | status => exact hfetch.elim
  | hear => exact hfetch.elim
  | timeout => exact hfetch.elim
  | agents now agents hphase => simp [hphase, Phase.refresh?]
  | tasks now agents tasks here hphase => simp [hphase, Phase.refresh?]
  | job now all job rest status here hphase => simp [hphase, Phase.refresh?]
  | failed now what hphase => simp [hphase]

/-- At `/v1/agents`: the answer leads to `/v1/tasks`, or the refresh failed. -/
private theorem agents_step (hphase : l.driver.phase = .agents) : ¬act.RebuildFails ∧
    ((∃ agents, l'.driver.phase = .tasks agents ∧ l'.driver.watcher = l.driver.watcher ∧
      l'.sent = l.sent) ∨ GaveUp l l') := by
  cases hstep with
  | turn => exact hfetch.elim
  | status => exact hfetch.elim
  | hear => exact hfetch.elim
  | timeout => exact hfetch.elim
  | tasks now agents tasks here h => rw [hphase] at h; cases h
  | job now all job rest status here h => rw [hphase] at h; cases h
  | agents now agents => exact ⟨id, .inl ⟨agents, rfl, rfl, List.append_nil _⟩⟩
  | failed now what => exact ⟨id, .inr ⟨rfl, List.append_nil _, rfl, rfl⟩⟩

/-- At `/v1/tasks`: the view is sent, or it could not be built, or the refresh failed. -/
private theorem tasks_step {agents : List AgentInfo} (hphase : l.driver.phase = .tasks agents) :
    (¬act.RebuildFails ∧ l'.driver.phase = .loop ∧
      ((∃ u, l'.sent = l.sent ++ [u] ∧ Delivers l.driver.watcher [u] .full) ∨ GaveUp l l')) ∨
    (act.RebuildFails ∧ l'.driver.phase = .loop ∧ l'.sent = l.sent ∧
      l'.driver.watcher = l.driver.watcher) := by
  -- only the answer to the tasks and a failed request can follow this phase
  cases hstep with
  | turn => exact hfetch.elim
  | status => exact hfetch.elim
  | hear => exact hfetch.elim
  | timeout => exact hfetch.elim
  | agents now agents h => rw [hphase] at h; cases h
  | job now all job rest status here h => rw [hphase] at h; cases h
  | failed now what => exact .inl ⟨id, rfl, .inr ⟨rfl, List.append_nil _, rfl, rfl⟩⟩
  | @tasks mem result now agents tasks here _ _ _ hresult =>
    rw [goOn, l.driver.gotTasks_eq hresult]
    -- a view that cannot be built is only logged
    cases result with
    | error e => exact .inr ⟨trivial, rfl, List.append_nil _, rfl⟩
    | ok u =>
      refine .inl ⟨id, rfl, .inl ⟨u, rfl, ?_⟩⟩
      -- the message is about the cluster the watcher knows
      obtain ⟨c, hc, rfl⟩ := Watcher.refreshedFull_eq_ok hresult
      exact ⟨c, _, hc, List.mem_cons_self⟩

/-- At the status of a job: it is sent and the next one is asked, or the refresh failed. -/
private theorem job_step {all rest : List Str} {job : Str} {c : Str}
    (hphase : l.driver.phase = .jobs all (job :: rest)) (hc : l.driver.watcher.cluster = some c) :
    ¬act.RebuildFails ∧
    ((∃ (d : Driver) (u : Update), l'.driver = d.askJobs all rest ∧ d.watcher = l.driver.watcher ∧
      l'.sent = l.sent ++ [u] ∧ ∃ ips, .set c (lowercase job) ips = u) ∨ GaveUp l l') := by
  -- only the answer for the job and a failed request can follow
  cases hstep with
  | turn => exact hfetch.elim
  | status => exact hfetch.elim
  | hear => exact hfetch.elim
  | timeout => exact hfetch.elim
  | agents now agents h => rw [hphase] at h; cases h
  | tasks now agents tasks here h => rw [hphase] at h; cases h
  | failed now what => exact ⟨id, .inr ⟨rfl, List.append_nil _, rfl, rfl⟩⟩
  | @job mem result now all' job' rest' status here h _ _ hresult =>
    obtain ⟨rfl, hcons⟩ := Phase.jobs.inj (hphase.symm.trans h)
    obtain ⟨rfl, rfl⟩ := List.cons.inj hcons
    refine ⟨id, ?_⟩
    -- without memory for the message the refresh fails as it does for a lost request
    cases result with
    | error e =>
      rw [goOn, l.driver.gotJob_error _ all rest hresult]
      exact .inr ⟨rfl, List.append_nil _, rfl, rfl⟩
    | ok u =>
      rw [goOn, l.driver.gotJob_ok _ all rest hresult]
      have hu := Except.ok.inj ((Watcher.refreshedJob_yields hc job status here).eq_of_ok hresult)
      exact .inl ⟨{ l.driver with mem }, u, rfl, rfl, rfl, _, hu⟩

end

/-! ## A whole refresh -/

/-- At the head of the loop a refresh is over. -/
private theorem fetches_done {p : Platform} {l l' : Loop} {acts : List Act}
    (hphase : l.driver.phase = .loop) (hrun : Run (Step p) l acts l')
    (hfetches : ∀ act ∈ acts, act.Fetches) : acts = [] ∧ l' = l := by
  cases hrun with
  | nil => exact ⟨rfl, rfl⟩
  | cons hstep _ =>
    have hbusy := busy_of_fetches (hfetches _ List.mem_cons_self) hstep
    rw [hphase] at hbusy
    exact absurd rfl hbusy

/-- The rest of a refresh of jobs is delivered, or everything is pending again. -/
theorem jobs_kept {p : Platform} {l l' : Loop} {d : Driver} {all rest : List Str}
    {acts : List Act} {c : Str} (hdriver : l.driver = d.askJobs all rest)
    (hc : d.watcher.cluster = some c) (hrun : Run (Step p) l acts l')
    (hfetches : ∀ act ∈ acts, act.Fetches) (hend : l'.driver.phase = .loop) :
    (∀ act ∈ acts, ¬act.RebuildFails) ∧ ∃ us, l'.sent = l.sent ++ us ∧
      ((∀ name ∈ rest, ∃ ips, .set c (lowercase name) ips ∈ us) ∨ l'.Retries) := by
  -- the induction is on the jobs still to be asked
  induction rest generalizing l d acts with
  | nil =>
    obtain ⟨rfl, rfl⟩ := fetches_done (by rw [hdriver]; rfl) hrun hfetches
    exact ⟨fun _ hact => absurd hact List.not_mem_nil, [], (List.append_nil _).symm,
      .inl fun _ hname => absurd hname List.not_mem_nil⟩
  | cons job rest ih =>
    have hphase : l.driver.phase = .jobs all (job :: rest) := by rw [hdriver]; rfl
    have hc' : l.driver.watcher.cluster = some c := by rw [hdriver]; exact hc
    -- the run does not end here, as a request is under way
    cases hrun with
    | nil =>
      rw [hphase] at hend
      cases hend
    | @cons _ l₁ _ act acts hstep hrest =>
      have hfetches' : ∀ act ∈ acts, act.Fetches :=
        fun act hact => hfetches act (List.mem_cons_of_mem _ hact)
      obtain ⟨hact, ⟨d', u, hdriver', hwatcher, hsent, ips, hu⟩ | ⟨hloop, hsent, hretries⟩⟩ :=
        job_step (hfetches act List.mem_cons_self) hstep hphase hc'
      · -- the job was sent, and the rest goes on
        obtain ⟨hacts, us, hsent', hkept⟩ :=
          ih hdriver' (by rw [hwatcher]; exact hc') hrest hfetches'
        refine ⟨List.forall_mem_cons.mpr ⟨hact, hacts⟩, u :: us, ?_, ?_⟩
        · rw [hsent', hsent, List.append_assoc, List.singleton_append]
        · refine hkept.imp_left fun hall => List.forall_mem_cons.mpr ⟨⟨ips, ?_⟩, ?_⟩
          · rw [hu]
            exact List.mem_cons_self
          · intro name hname
            obtain ⟨ips', hmem⟩ := hall name hname
            exact ⟨ips', List.mem_cons_of_mem u hmem⟩
      · -- the refresh failed, and is over
        obtain ⟨rfl, rfl⟩ := fetches_done hloop hrest hfetches'
        refine ⟨List.forall_mem_cons.mpr ⟨hact, fun _ hact => absurd hact List.not_mem_nil⟩, [],
          ?_, .inr hretries⟩
        rw [hsent, List.append_nil]

/-- A full refresh is delivered, or everything is pending again, or the view could not be built;
    then nothing is sent and nothing is pending. -/
private theorem full_kept {p : Platform} {l l' : Loop} {acts : List Act}
    (hphase : l.driver.phase = .agents) (hidle : l.driver.watcher.full = false)
    (hrun : Run (Step p) l acts l') (hfetches : ∀ act ∈ acts, act.Fetches)
    (hend : l'.driver.phase = .loop) :
    ∃ us, l'.sent = l.sent ++ us ∧
      (((∀ act ∈ acts, ¬act.RebuildFails) ∧ (Delivers l.driver.watcher us .full ∨ l'.Retries)) ∨
        ((∃ act ∈ acts, act.RebuildFails) ∧ us = [] ∧ l'.driver.watcher.full = false)) := by
  -- the first step is the answer to the agents
  cases hrun with
  | nil =>
    rw [hphase] at hend
    cases hend
  | @cons _ l₁ _ act acts hstep hrest =>
    have hfetches' : ∀ act ∈ acts, act.Fetches :=
      fun act hact => hfetches act (List.mem_cons_of_mem _ hact)
    obtain ⟨hact, ⟨agents, hphase₁, hwatcher, hsent⟩ | ⟨hloop, hsent, hretries⟩⟩ :=
      agents_step (hfetches act List.mem_cons_self) hstep hphase
    -- the second is the answer to the tasks
    · cases hrest with
      | nil =>
        rw [hphase₁] at hend
        cases hend
      | @cons _ l₂ _ act₁ acts hstep₁ hrest₁ =>
        have hfetch₁ := hfetches' act₁ List.mem_cons_self
        have hfetches₁ : ∀ act ∈ acts, act.Fetches :=
          fun act hact => hfetches' act (List.mem_cons_of_mem _ hact)
        obtain ⟨hact₁, hloop, hkept⟩ | ⟨hfails, hloop, hsent₁, hwatcher₁⟩ :=
          tasks_step hfetch₁ hstep₁ hphase₁
        -- the view was sent, or the request failed and is tried again
        · obtain ⟨rfl, rfl⟩ := fetches_done hloop hrest₁ hfetches₁
          have hacts : ∀ act' ∈ [act, act₁], ¬act'.RebuildFails := by simp [hact, hact₁]
          rw [hwatcher] at hkept
          obtain ⟨u, hsent₁, hdelivers⟩ | ⟨-, hsent₁, hretries⟩ := hkept
          · exact ⟨[u], by rw [hsent₁, hsent], .inl ⟨hacts, .inl hdelivers⟩⟩
          · exact ⟨[], by rw [hsent₁, hsent, List.append_nil], .inl ⟨hacts, .inr hretries⟩⟩
        -- the view could not be built
        · obtain ⟨rfl, rfl⟩ := fetches_done hloop hrest₁ hfetches₁
          refine ⟨[], by rw [hsent₁, hsent, List.append_nil],
            .inr ⟨⟨act₁, by simp, hfails⟩, rfl, ?_⟩⟩
          rw [hwatcher₁, hwatcher]
          exact hidle
    -- the request for the agents failed
    · obtain ⟨rfl, rfl⟩ := fetches_done hloop hrest hfetches'
      exact ⟨[], by rw [hsent, List.append_nil], .inl ⟨by simpa using hact, .inr hretries⟩⟩

/-- A refresh is delivered or retried, in either driver, whatever Hop answers and the allocator
    grants, exactly when it does not end with two answers of a full refresh from which the view
    cannot be built. -/
theorem refresh_kept_iff {p : Platform} {l l₁ l' : Loop} {now began : UInt64} {what : Refresh}
    (hwhat : (l.driver.watcher.next now).1 = .refresh what)
    (hturn : Step p l (.turn now began) l₁) {acts : List Act} (hrun : Run (Step p) l₁ acts l')
    (hfetches : ∀ act ∈ acts, act.Fetches) (hend : l'.driver.phase = .loop) :
    ∃ us, l'.sent = l.sent ++ us ∧
      ((Delivers l.driver.watcher us what ∨ l'.Retries) ↔ ∀ act ∈ acts, ¬act.RebuildFails) := by
  obtain ⟨c, hc⟩ := Option.isSome_iff_exists.mp ((l.driver.watcher.next_frame now).2.2.1 what hwhat)
  obtain ⟨-, -, htaken⟩ := Watcher.next_refresh hwhat
  -- only a turn starts a refresh
  cases hturn with
  | turn =>
    cases what with
    | full =>
      -- the turn asks for the agents
      have hdriver : l.driver.turn now =
          { l.driver with watcher := l.driver.watcher.taken, phase := .agents } := by
        unfold Driver.turn
        rw [show l.driver.watcher.next now = (.refresh .full, l.driver.watcher.taken) from
          Prod.ext hwhat htaken]
      obtain ⟨us, hsent, ⟨hacts, hkept⟩ | ⟨⟨act, hact, hfails⟩, rfl, hfull⟩⟩ :=
        full_kept (by rw [hdriver]) (by rw [hdriver]; rfl) hrun hfetches hend
      · -- the turn has taken what was pending: what is pending now the refresh has put there
        refine ⟨us, hsent, fun _ => hacts, fun _ => ?_⟩
        rw [hdriver] at hkept
        exact hkept
      -- a failed rebuild leaves nothing behind: no message, and nothing pending
      · refine ⟨[], hsent, fun hkept => ?_, fun hacts => absurd hfails (hacts act hact)⟩
        obtain ⟨_, _, _, hmem⟩ | ⟨hfull', -⟩ := hkept
        · exact absurd hmem List.not_mem_nil
        · rw [hfull] at hfull'
          cases hfull'
    | jobs names =>
      -- the turn asks for the first job of the list
      have hdriver : l.driver.turn now =
          { l.driver with watcher := l.driver.watcher.taken }.askJobs names names := by
        unfold Driver.turn
        rw [show l.driver.watcher.next now = (.refresh (.jobs names), l.driver.watcher.taken) from
          Prod.ext hwhat htaken]
      obtain ⟨hacts, us, hsent, hkept⟩ :=
        @jobs_kept _ _ _ { l.driver with watcher := l.driver.watcher.taken } _ _ _ _ hdriver hc hrun
          hfetches hend
      exact ⟨us, hsent, fun _ => hacts, fun _ => hkept.imp_left fun hall => ⟨c, hc, hall⟩⟩

/-- The first full refresh of the host's loop gets no answer, and is retried. -/
theorem refresh_kept_iff_fetching : ∃ us, Delivers (pinged []).driver.watcher us .full ∨
    ((fetching []).goOn 5 ((fetching []).driver.fetchFailed 4 .full, none)).Retries := by
  have hfailed : Step .host (fetching []) (.failed 5 .full)
      ((fetching []).goOn 5 ((fetching []).driver.fetchFailed 4 .full, none)) :=
    .failed 5 .full (by decide +kernel) (by decide +kernel)
  have hfull : ((pinged []).driver.watcher.next 4).1 = .refresh .full := by decide +kernel
  obtain ⟨us, -, hkept⟩ := refresh_kept_iff hfull (fetching_step .host (.inl rfl))
    (.single hfailed) (by simp [Act.Fetches]) rfl
  exact ⟨us, hkept.mpr (by simp [Act.RebuildFails])⟩

/-- A loop forgets a refresh: the refresh ends, and neither is all of it sent nor is anything
    pending. -/
def Forgets (p : Platform) : Prop :=
  ∃ l l₁ acts l', l.Reachable p ∧ (l.driver.watcher.next 4).1 = .refresh .full ∧
    Step p l (.turn 4 4) l₁ ∧ Run (Step p) l₁ acts l' ∧ (∀ act ∈ acts, act.Fetches) ∧
      l'.driver.phase = .loop ∧
        ¬∃ us, l'.sent = l.sent ++ us ∧ (Delivers l.driver.watcher us .full ∨ l'.Retries)

/-- The loop when the agents have come in and no allocation will be granted. -/
def starved : Loop :=
  (fetching [true, false]).goOn 5 ((fetching [true, false]).driver.gotAgents [], none)

/-- The copy of the name is refused, and with it the refresh. -/
private theorem starved_refused : (starved.driver.watcher.refreshedFull [] [] none).run
    starved.driver.mem = (.error .outOfMemory, []) := by
  have hmem : starved.driver.mem = [false] := by decide +kernel
  have hcluster : starved.driver.watcher.cluster = some (str "prod") := by decide +kernel
  -- the copy of the cluster's name is refused
  rw [hmem]
  unfold Watcher.refreshedFull Watcher.clusterOwned
  rw [hcluster]
  rfl

/-- On either platform the refresh that ran out of memory is forgotten. -/
private theorem forgets (p : Platform) : Forgets p := by
  -- the request is answered, and the answer to the tasks finds no memory
  have hagents : Step p (fetching [true, false]) (.agents 5 []) starved :=
    .agents 5 [] (by decide +kernel) (by decide +kernel)
  have htasks : Step p starved (.tasks 6 [] none (.error .outOfMemory))
      (starved.goOn 6 (starved.driver.gotTasks [] [] none)) :=
    .tasks 6 [] [] none (by decide +kernel) (by decide +kernel) (by cases p <;> trivial)
      starved_refused
  rw [starved.driver.gotTasks_eq starved_refused] at htasks
  -- the run up to there, and what is left after it
  refine ⟨pinged [true, false], fetching [true, false], _, _, pinged_reachable p (.inr rfl),
    by decide +kernel, fetching_step p (.inr rfl), .cons hagents (.single htasks),
    by simp [Act.Fetches], rfl, fun hkept => ?_⟩
  obtain ⟨us, hsent, ⟨c, jobs, -, hmem⟩ | ⟨hfull, -⟩⟩ := hkept
  · -- nothing was sent before the refresh, and nothing after it
    have hnone : us = [] := by
      have hempty : (pinged [true, false]).sent = [] := by decide +kernel
      have hstarved : starved.sent = [] := by decide +kernel
      simpa [goOn, hempty, hstarved, Except.toOption] using hsent.symm
    rw [hnone] at hmem
    exact absurd hmem List.not_mem_nil
  -- nothing is pending either
  · have hidle : starved.driver.watcher.full = false := by decide +kernel
    exact Bool.false_ne_true (hidle.symm.trans hfull)

/-- In the first full refresh of either loop, the copy of the cluster's name is refused. -/
theorem refresh_forgotten : Forgets .host ∧ Forgets .hopos := ⟨forgets .host, forgets .hopos⟩

end Loop

end HopDns

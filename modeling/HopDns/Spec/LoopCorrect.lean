import HopDns.Spec.DriverCorrect
import HopDns.Spec.Rate

/-!
# The loop of a driver

What each step of the loop does to the watcher and the clock, and what holds wherever
the loop stands.

## Key results

- `Loop.Step.watcher`: the loop makes calls of the watcher, and changes it in no other way
- `Loop.Reachable.sound`: while a refresh is under way, nothing is pending
-/

namespace HopDns

open ForStd

namespace Loop

/-- The clock does not go back. -/
theorem Step.clock_le {p : Platform} {l l' : Loop} {act : Act} (h : Step p l act l') :
    l.clock ≤ l'.clock := by
  cases h with
  | turn now began _ hnow hbegan => exact UInt64.le_trans hnow hbegan
  | status now name _ hnow => exact hnow
  | agents now agents _ hnow => exact hnow
  | tasks now agents tasks here _ hnow => exact hnow
  | job now all job rest status here _ hnow => exact hnow
  | failed now what _ hnow => exact hnow
  | hear now h _ hnow => exact hnow
  | timeout now _ hnow => exact hnow

/-- The loop makes calls of the watcher, and changes it in no other way. -/
theorem Step.watcher {p : Platform} {l l' : Loop} {act : Act} (h : Step p l act l') :
    l'.driver.watcher = l.driver.watcher ∨
      ∃ call, Watcher.Step l.driver.watcher call l'.driver.watcher := by
  cases h with
  | turn now began =>
    -- a turn is a call of `next`, or nothing that shows
    obtain ⟨what, hwhat, hwatcher, -⟩ | ⟨-, hwatcher, -⟩ := l.driver.turn_cases now
    · have hnext : l.driver.watcher.next now =
          (.refresh what, (l.driver.turn now).watcher) :=
        Prod.ext hwhat ((Watcher.next_refresh hwhat).2.2.trans hwatcher.symm)
      exact .inr ⟨_, Watcher.step_next_eq hnext⟩
    · exact .inl hwatcher
  | status now name =>
    cases name with
    | none => exact .inr ⟨(.discoverFailed now, .done), [], [], rfl⟩
    | some name => exact .inr ⟨(.discovered now name, .result _), l.driver.mem, _, rfl⟩
  | agents now agents => exact .inl rfl
  | @tasks mem result now agents tasks here _ _ _ hresult =>
    refine .inl ?_
    rw [goOn, l.driver.gotTasks_eq hresult]
  | @job mem result now all job rest status here _ _ _ hresult =>
    cases result with
    | ok u =>
      rw [goOn, l.driver.gotJob_ok _ all rest hresult]
      exact .inl (Driver.askJobs_frame _ all rest).1
    -- the job failed, and the watcher is told
    | error e =>
      rw [goOn, l.driver.gotJob_error _ all rest hresult]
      exact .inr ⟨(.refreshFailed (p.reading l.began now) (.jobs all), .done), [], [], rfl⟩
  | failed now what =>
    exact .inr ⟨(.refreshFailed (p.reading l.began now) what, .done), [], [], rfl⟩
  | hear now h =>
    cases h with
    | event ev => exact .inr ⟨(.event now ev, .result _), l.driver.mem, _, rfl⟩
    | lost => exact .inr ⟨(.lost, .done), [], [], rfl⟩
  | timeout now => exact .inl rfl

/-- Where a refresh is under way, the watcher that gave it back has nothing pending and knows
    its cluster. -/
structure Sound (l : Loop) : Prop where
  reachable : l.driver.watcher.Reachable
  interval : l.driver.watcher.interval = RECONNECT
  idle : l.driver.phase.refresh? ≠ none → l.driver.watcher.due = none ∧
    l.driver.watcher.full = false ∧ l.driver.watcher.jobs = [] ∧ l.driver.watcher.cluster.isSome

/-- A loop that starts is sound. -/
theorem Initial.sound {l : Loop} (h : l.Initial) : l.Sound := by
  obtain ⟨endpoint, mem, hnew, hphase, -⟩ := h
  have hyields : Yields (Watcher.new endpoint) (.ok
      { endpoint, cluster := none, retryAt := 0, due := none, full := false, jobs := [],
        interval := RECONNECT, debounce := DEBOUNCE }) :=
    (owned_yields endpoint).bind (Computes.pure _)
  have hwatcher := Except.ok.inj (hyields.eq_of_ok hnew)
  have hinterval : l.driver.watcher.interval = RECONNECT := by rw [← hwatcher]
  refine ⟨ForStd.Reachable.of_init ?_, hinterval, fun hbusy => ?_⟩
  · exact ⟨endpoint, RECONNECT, mem, _, _, hnew, by rw [← hwatcher]; rfl⟩
  · rw [hphase] at hbusy
    exact absurd rfl hbusy

/-- Every step keeps it so. -/
theorem Sound.step {p : Platform} {l l' : Loop} {act : Act} (h : l.Sound)
    (hstep : Step p l act l') : l'.Sound := by
  -- a step is a call of the watcher or none
  have hcall : l'.driver.watcher.Reachable ∧ l'.driver.watcher.interval = RECONNECT := by
    obtain hsame | ⟨call, hcall⟩ := hstep.watcher
    · rw [hsame]
      exact ⟨h.reachable, h.interval⟩
    · exact ⟨h.reachable.snoc hcall, (Watcher.settings_step hcall).1.trans h.interval⟩
  -- a refresh is under way after the turn that gave it back, which cleared what was pending,
  -- and after an answer to one of its requests, which leaves the watcher alone
  refine ⟨hcall.1, hcall.2, fun hbusy => ?_⟩
  cases hstep with
  | turn now began =>
    obtain ⟨what, hwhat, hwatcher, -⟩ | ⟨-, -, -, hidle⟩ := l.driver.turn_cases now
    · rw [hwatcher]
      refine ⟨rfl, rfl, rfl, ?_⟩
      exact (l.driver.watcher.next_frame now).2.2.1 what hwhat
    · exact absurd hidle hbusy
  | status now name hphase =>
    cases name <;> exact absurd rfl hbusy
  | agents now agents hphase =>
    have hbefore := h.idle
    rw [hphase] at hbefore
    exact hbefore (by simp [Phase.refresh?])
  | @tasks mem result now agents tasks here _ _ _ hresult =>
    rw [goOn, l.driver.gotTasks_eq hresult] at hbusy
    exact absurd rfl hbusy
  | @job mem result now all job rest status here hphase _ _ hresult =>
    have hbefore := h.idle
    rw [hphase] at hbefore
    cases result with
    | ok u =>
      rw [goOn, l.driver.gotJob_ok _ all rest hresult]
      simp only [(Driver.askJobs_frame _ all rest).1]
      exact hbefore (by simp [Phase.refresh?])
    | error e =>
      rw [goOn, l.driver.gotJob_error _ all rest hresult] at hbusy
      exact absurd rfl hbusy
  | failed now what => exact absurd rfl hbusy
  | hear now h =>
    cases h <;> exact absurd rfl hbusy
  | timeout now => exact absurd rfl hbusy

/-- Wherever the loop stands. -/
theorem Reachable.sound {p : Platform} {l : Loop} (h : l.Reachable p) : l.Sound := by
  have hinit : ∀ l : Loop, l.Initial → l.Sound := fun _ h => h.sound
  have hstep : ∀ l act l', l.Sound → Step p l act l' → l'.Sound := fun _ _ _ h hstep => h.step hstep
  exact ForStd.Reachable.invariant hinit hstep h

/-! ## The first refresh -/

/-- A loop at 0, with the answers its allocator will give. -/
def started (mem : Mem) : Loop := ⟨⟨Watcher.peer, .loop, mem⟩, 0, 0, []⟩

/-- The loop when it asks for the name of the cluster. -/
def asking (mem : Mem) : Loop := { started mem with driver := (started mem).driver.turn 0 }

/-- The loop when it knows the name. -/
def learned (mem : Mem) : Loop :=
  (asking mem).goOn 1 ((asking mem).driver.gotStatus 1 (some (str "prod")), none)

/-- The loop when it waits for the stream. -/
def listening (mem : Mem) : Loop :=
  { learned mem with driver := (learned mem).driver.turn 2, clock := 2, began := 2 }

/-- The loop when it has heard the ping. -/
def pinged (mem : Mem) : Loop :=
  (listening mem).goOn 3 ((listening mem).driver.hear 3 (.event ⟨some .ping⟩), none)

/-- The loop when its first full refresh is under way, since 4. -/
def fetching (mem : Mem) : Loop :=
  { pinged mem with driver := (pinged mem).driver.turn 4, clock := 4, began := 4 }

/-- It gets there, whether the first allocation after the name's will be granted or not. -/
theorem pinged_reachable (p : Platform) {mem : Mem} (hmem : mem = [] ∨ mem = [true, false]) :
    (pinged mem).Reachable p := by
  have hstarted : (started mem).Initial :=
    ⟨Watcher.peer.endpoint, true :: mem, rfl, rfl, rfl⟩
  have hasking : Step p (started mem) (.turn 0 0) (asking mem) :=
    .turn 0 0 rfl (UInt64.le_refl 0) (UInt64.le_refl 0)
  have hlearned : Step p (asking mem) (.status 1 (some (str "prod"))) (learned mem) :=
    .status 1 _ (by obtain rfl | rfl := hmem <;> decide +kernel)
      (by obtain rfl | rfl := hmem <;> decide +kernel)
  have hlistening : Step p (learned mem) (.turn 2 2) (listening mem) :=
    .turn 2 2 (by obtain rfl | rfl := hmem <;> decide +kernel)
      (by obtain rfl | rfl := hmem <;> decide +kernel) (UInt64.le_refl 2)
  have hpinged : Step p (listening mem) (.hear 3 (.event ⟨some .ping⟩)) (pinged mem) :=
    .hear 3 _ (by obtain rfl | rfl := hmem <;> decide +kernel)
      (by obtain rfl | rfl := hmem <;> decide +kernel)
  exact (((ForStd.Reachable.of_init hstarted).snoc hasking).snoc hlearned).snoc hlistening
    |>.snoc hpinged

/-- The turn that starts a full refresh. -/
theorem fetching_step (p : Platform) {mem : Mem} (hmem : mem = [] ∨ mem = [true, false]) :
    Step p (pinged mem) (.turn 4 4) (fetching mem) :=
  .turn 4 4 (by obtain rfl | rfl := hmem <;> decide +kernel)
    (by obtain rfl | rfl := hmem <;> decide +kernel) (UInt64.le_refl 4)

theorem fetching_reachable (p : Platform) {mem : Mem} (hmem : mem = [] ∨ mem = [true, false]) :
    (fetching mem).Reachable p := (pinged_reachable p hmem).snoc (fetching_step p hmem)

end Loop

end HopDns

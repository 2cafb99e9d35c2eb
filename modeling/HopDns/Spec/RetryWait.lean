import HopDns.Spec.LoopCorrect

/-!
# The wait after a full refresh that failed

A full refresh that failed at `f` is to be followed by none before `f + RECONNECT`,
unless a ping or a lost stream comes first. When a request of it failed, the loop of
HopOS keeps to that. The host's waits from the reading its `refresh` was handed, from
before the fetch; a fetch that takes as long as the wait is followed by the next one at
once. When the requests were answered and the view could not be built, neither loop tells
its watcher, and an event may ask for the next one by the debounce.

## Key results

- `Loop.retry_bound`: the bound that either loop keeps
- `Loop.starts_again`: the bound is exact
- `Loop.hopos_waits`: the loop of HopOS waits
- `Loop.host_waits_iff`: when the host's loop waits
-/

namespace HopDns

open ForStd

namespace Watcher

/-- No refresh has a moment before `limit`, and no event from `clock` on gives it one. -/
def HoldsOff (limit clock : UInt64) (w : Watcher) : Prop :=
  w.Spaced limit ∧ (w.due = none → limit ≤ saturatingAdd clock DEBOUNCE)

section

variable {w : Watcher} {limit clock : UInt64} (h : w.HoldsOff limit clock)
include h

theorem HoldsOff.later {now : UInt64} (hnow : clock ≤ now) : w.HoldsOff limit now :=
  ⟨h.1, fun hdue => UInt64.le_trans (h.2 hdue) (saturatingAdd_mono hnow DEBOUNCE)⟩

/-- Only the moment that is set counts. -/
private theorem HoldsOff.of_due_eq {w' : Watcher} (hdue : w'.due = w.due) :
    w'.HoldsOff limit clock := by
  unfold HoldsOff Spaced
  rw [hdue]
  exact h

/-- An event other than a ping brings no refresh forward. -/
theorem HoldsOff.hears (hdebounce : w.debounce = DEBOUNCE) {ev : Event}
    (hseed : classify ev ≠ .seed) : (w.hears clock ev).HoldsOff limit clock := by
  cases hdue : w.due with
  | some d =>
    -- the moment that is set stays
    exact h.of_due_eq ((due_hears_later hdue clock hseed).trans hdue.symm)
  | none =>
    -- nothing is due, so the event sets no moment or one a debounce away
    obtain hsame | hnew := w.due_hears_cases clock hseed
    · exact h.of_due_eq hsame
    · refine ⟨fun d hd => ?_, fun hnone => ?_⟩
      · obtain rfl := Option.some.inj (hnew.symm.trans hd)
        rw [hdebounce]
        exact h.2 hdue
      · rw [hnew] at hnone
        cases hnone

end

end Watcher

namespace Loop

/-- What is heard makes the watcher forget what is pending, or asks for everything at once. -/
def Act.Interrupts : Act → Prop
  | .hear _ (.event ev) => ev.topic = some .ping
  | .hear _ .lost => True
  | _ => False

/-- At `now` the loop starts a full refresh. -/
def StartsFull (l : Loop) (now : UInt64) : Prop :=
  l.driver.phase = .loop ∧ l.clock ≤ now ∧ (l.driver.watcher.next now).1 = .refresh .full

/-! ## The wait -/

/-- No refresh starts before `limit`: the watcher holds it off, or the clock is past it. -/
def Waits (limit : UInt64) (l : Loop) : Prop :=
  limit ≤ l.clock ∨ (l.driver.phase.refresh? = none ∧ l.driver.watcher.HoldsOff limit l.clock)

/-- Without a ping or a lost stream the loop goes on waiting. -/
theorem Waits.step {p : Platform} {limit : UInt64} {l l' : Loop} {act : Act} (hl : l.Sound)
    (h : l.Waits limit) (hact : ¬act.Interrupts) (hstep : Step p l act l') : l'.Waits limit := by
  -- once the limit has passed it stays passed, since the clock only grows
  obtain hpast | ⟨hidle, hholds⟩ := h
  · exact .inl (UInt64.le_trans hpast hstep.clock_le)
  cases hstep with
  | turn now began _ hnow hbegan =>
    obtain ⟨what, hwhat, -⟩ | ⟨-, hwatcher, -, hphase⟩ := l.driver.turn_cases now
    · -- the refresh is given back, so its moment has come
      obtain ⟨⟨d, hd, hle⟩, -⟩ := Watcher.next_refresh hwhat
      exact .inl (UInt64.le_trans (UInt64.le_trans (hholds.1 d hd) hle) hbegan)
    · refine .inr ⟨hphase, ?_⟩
      exact (hholds.later (UInt64.le_trans hnow hbegan)).of_due_eq (congrArg Watcher.due hwatcher)
  | status now name _ hnow =>
    refine .inr ?_
    -- a discovery touches nothing but the name and its own retry
    cases name with
    | none => exact ⟨rfl, (hholds.later hnow).of_due_eq rfl⟩
    | some name =>
      refine ⟨rfl, (hholds.later hnow).of_due_eq ?_⟩
      obtain hw | hw :=
        (Watcher.discovered_commits l.driver.watcher now name).state l.driver.mem
      · exact (congrArg Watcher.due hw).trans (l.driver.watcher.learns_frame now name).1
      · exact congrArg Watcher.due hw
  -- no refresh is under way, so no answer to one comes
  | agents now agents hphase =>
    rw [hphase] at hidle
    cases hidle
  | tasks now agents tasks here hphase =>
    rw [hphase] at hidle
    cases hidle
  | job now all job rest status here hphase =>
    rw [hphase] at hidle
    cases hidle
  | failed now what hphase =>
    rw [hphase] at hidle
    cases hidle
  | hear now heard _ hnow =>
    cases heard with
    | lost => exact absurd trivial hact
    | event ev =>
      refine .inr ⟨rfl, ?_⟩
      -- an event that is no ping puts no moment closer than a debounce
      have hseed : classify ev ≠ .seed := fun hc => hact (classify_eq_seed.mp hc)
      obtain hw | hw := (Watcher.event_commits l.driver.watcher now ev).state l.driver.mem
      · exact ((hholds.later hnow).hears hl.reachable.debounce hseed).of_due_eq
          (congrArg Watcher.due hw)
      · exact (hholds.later hnow).of_due_eq (congrArg Watcher.due hw)
  | timeout now _ hnow => exact .inr ⟨rfl, (hholds.later hnow).of_due_eq rfl⟩

/-- A loop that waits starts no refresh before the limit, unless it hears a ping or a lost
    stream first. -/
theorem Waits.bound {p : Platform} {limit : UInt64} {l l' : Loop} (hl : l.Sound)
    (h : l.Waits limit) {acts : List Act} (hrun : Run (Step p) l acts l')
    (hacts : ∀ act ∈ acts, ¬act.Interrupts) {now : UInt64} (hstarts : l'.StartsFull now) :
    limit ≤ now ∧ l.clock ≤ now := by
  -- the clock and the invariant of the loop go along with the distance
  have hkeep : ∀ (l₁ : Loop) (act : Act) (l₂ : Loop),
      (l₁.Sound ∧ l.clock ≤ l₁.clock ∧ l₁.Waits limit) → ¬act.Interrupts → Step p l₁ act l₂ →
      (l₂.Sound ∧ l.clock ≤ l₂.clock ∧ l₂.Waits limit) :=
    fun _ _ _ hl₁ hact hstep =>
      ⟨hl₁.1.step hstep, UInt64.le_trans hl₁.2.1 hstep.clock_le, hl₁.2.2.step hl₁.1 hact hstep⟩
  -- none of the steps in between is a ping or a loss, so the distance is kept
  obtain ⟨-, hclock, hwaits⟩ := hrun.keepsWhile hkeep hacts ⟨hl, UInt64.le_refl _, h⟩
  obtain ⟨-, hnow, hnext⟩ := hstarts
  refine ⟨?_, UInt64.le_trans hclock hnow⟩
  -- the limit has passed already, or the refresh waited for its moment
  obtain hpast | ⟨-, hholds⟩ := hwaits
  · exact UInt64.le_trans hpast hnow
  · obtain ⟨⟨d, hd, hle⟩, -⟩ := Watcher.next_refresh hnext
    exact UInt64.le_trans (hholds.1 d hd) hle

/-! ## The failure -/

/-- How a full refresh fails: Hop does not answer a request of it, or no view can be built from
    its answers. -/
inductive Failure where
  | request
  | view (tasks : List AgentTasks) (here : Option Local) (e : Error)

/-- The step of the loop in which a full refresh fails at `f`. -/
def Failure.act (f : UInt64) : Failure → Act
  | request => .failed f .full
  | view tasks here e => .tasks f tasks here (.error e)

/-- From when on the loop may start the next full refresh. The watcher is told of a request that
    failed, with a reading of the clock, and waits from there. It is not told of a view that
    could not be built: nothing is pending, and an event may ask for everything. -/
def Failure.again (p : Platform) (l : Loop) (f : UInt64) : Failure → UInt64
  | request => saturatingAdd (p.reading l.began f) RECONNECT
  | view _ _ _ => saturatingAdd f DEBOUNCE

section

variable {p : Platform} {l l' : Loop} (h : l.Sound) {f : UInt64}
include h

/-- The loop after a request that failed: the watcher waits from the reading it was handed. -/
private theorem after_request (hstep : Step p l (Failure.request.act f) l') :
    l'.driver.phase = .loop ∧ l'.clock = f ∧ l'.driver.watcher.cluster.isSome ∧
      l'.driver.watcher.full = true ∧
        l'.driver.watcher.due = some (Failure.request.again p l f) := by
  cases hstep with
  | failed now what hphase =>
    obtain ⟨hdue, -, -, hcluster⟩ := h.idle (by rw [hphase]; simp)
    refine ⟨rfl, rfl, hcluster, rfl, ?_⟩
    simp [goOn, Driver.fetchFailed, Watcher.refreshFailed, hdue, h.interval, Failure.again]

/-- The loop after a view that could not be built: nothing is pending. -/
private theorem after_view {tasks : List AgentTasks} {here : Option Local} {e : Error}
    (hstep : Step p l ((Failure.view tasks here e).act f) l') :
    l'.driver.phase = .loop ∧ l'.clock = f ∧ l'.driver.watcher.cluster.isSome ∧
      l'.driver.watcher.due = none := by
  cases hstep with
  | tasks now agents tasks here hphase _ _ hresult =>
    obtain ⟨hdue, -, -, hcluster⟩ := h.idle (by rw [hphase]; simp [Phase.refresh?])
    rw [goOn, l.driver.gotTasks_eq hresult]
    exact ⟨rfl, rfl, hcluster, hdue⟩

/-- After a failure the loop waits, as long as that kind of failure makes it. -/
private theorem waits_after {failure : Failure} (hstep : Step p l (failure.act f) l') :
    l'.clock = f ∧ l'.Waits (failure.again p l f) := by
  cases failure with
  | request =>
    obtain ⟨hphase, hclock, -, -, hdue⟩ := after_request h hstep
    refine ⟨hclock, .inr ⟨by rw [hphase]; rfl, fun d hd => ?_, fun hnone => ?_⟩⟩
    · obtain rfl := Option.some.inj (hdue.symm.trans hd)
      exact UInt64.le_refl _
    · rw [hdue] at hnone
      cases hnone
  | view tasks here e =>
    obtain ⟨hphase, hclock, -, hdue⟩ := after_view h hstep
    refine ⟨hclock, .inr ⟨by rw [hphase]; rfl, fun d hd => ?_, fun _ => ?_⟩⟩
    · rw [hdue] at hd
      cases hd
    · rw [hclock]
      exact UInt64.le_refl _

/-- From then on no full refresh starts before that, unless a ping or a lost stream comes
    first. -/
theorem retry_bound {failure : Failure} (hstep : Step p l (failure.act f) l') {l'' : Loop}
    {acts : List Act} (hrun : Run (Step p) l' acts l'') (hacts : ∀ act ∈ acts, ¬act.Interrupts)
    {now : UInt64} (hstarts : l''.StartsFull now) : failure.again p l f ≤ now ∧ f ≤ now := by
  obtain ⟨hclock, hwaits⟩ := waits_after h hstep
  have hbound := hwaits.bound (h.step hstep) hrun hacts hstarts
  rw [hclock] at hbound
  exact hbound

/-- At any moment that is not before that, one may start. -/
theorem starts_again {failure : Failure} (hstep : Step p l (failure.act f) l') {now : UInt64}
    (hmoment : failure.again p l f ≤ now) (hnow : f ≤ now) :
    ∃ acts l'', Run (Step p) l' acts l'' ∧ (∀ act ∈ acts, ¬act.Interrupts) ∧
      l''.StartsFull now := by
  cases failure with
  | request =>
    obtain ⟨hphase, hclock, hcluster, hfull, hdue⟩ := after_request h hstep
    obtain ⟨c, hc⟩ := Option.isSome_iff_exists.mp hcluster
    -- the next turn starts it
    refine ⟨[], l', .nil l', fun _ hact => absurd hact List.not_mem_nil, hphase,
      by rw [hclock]; exact hnow, ?_⟩
    rw [Watcher.next_due hc hdue hmoment, hfull, if_pos rfl]
  | view tasks here e =>
    obtain ⟨hphase, hclock, hcluster, hdue⟩ := after_view h hstep
    obtain ⟨c, hc⟩ := Option.isSome_iff_exists.mp hcluster
    have hsound := h.step hstep
    -- the next turn waits for the stream, which at once brings an event about the status
    have hidle : l'.driver.turn f = { l'.driver with phase := .waiting } := by
      simp [Driver.turn, Watcher.next_idle hc hdue]
    have hturn : Step p l' (.turn f f)
        { l' with driver := { l'.driver with phase := .waiting }, clock := f, began := f } := by
      rw [← hidle]
      exact .turn f f hphase (by rw [hclock]; exact UInt64.le_refl f) (UInt64.le_refl f)
    refine ⟨[.turn f f, .hear f (.event ⟨some .status⟩)], _,
      .cons hturn (.single (.hear f _ rfl (UInt64.le_refl f))), ?_, rfl, hnow, ?_⟩
    · intro act hact
      simp only [List.mem_cons, List.not_mem_nil, or_false] at hact
      obtain rfl | rfl := hact
      · exact id
      · exact fun hping => by cases hping
    · have hmoment' : saturatingAdd f l'.driver.watcher.debounce ≤ now := by
        rw [hsound.reachable.debounce]
        exact hmoment
      have hpend : (l'.driver.watcher.pendFull f).due =
          some (saturatingAdd f l'.driver.watcher.debounce) := by
        simp [Watcher.pendFull, hdue]
      exact congrArg Prod.fst
        (Watcher.next_due (w := l'.driver.watcher.pendFull f) hc hpend hmoment')

end

/-! ## The loops of the platforms -/

/-- After a full refresh that failed at `f`, the loop starts no full refresh before the wait is
    over, unless it hears a ping or a lost stream first. -/
def WaitsFrom (p : Platform) (f : UInt64) (l : Loop) : Prop :=
  ∀ acts l' now, Run (Step p) l acts l' → (∀ act ∈ acts, ¬act.Interrupts) → l'.StartsFull now →
    saturatingAdd f RECONNECT ≤ now

/-- The loop of HopOS waits after every full refresh of which a request fails. -/
theorem hopos_waits {l l' : Loop} (hl : l.Reachable .hopos) {f : UInt64}
    (hstep : Step .hopos l (Failure.request.act f) l') : l'.WaitsFrom .hopos f :=
  fun _ _ _ hrun hacts hstarts => (retry_bound hl.sound hstep hrun hacts hstarts).1

/-- The host's loop waits after a full refresh that fails exactly when the wait from the failure
    ends no later than the moment from which it may start the next one. After a request that
    failed that is the sum from the reading before the fetch: the clock has not moved since, or
    both sums stop at the largest moment. At the largest moment itself there is nothing to wait
    for. -/
theorem host_waits_iff {l l' : Loop} (hl : l.Reachable .host) {f : UInt64} {failure : Failure}
    (hstep : Step .host l (failure.act f) l') :
    l'.WaitsFrom .host f ↔
      saturatingAdd f RECONNECT ≤ failure.again .host l f ∨ saturatingAdd f RECONNECT ≤ f := by
  constructor
  · intro hwaits
    -- the loop may start one as soon as both bounds allow it
    have hnext : ∀ now, failure.again .host l f ≤ now → f ≤ now →
        saturatingAdd f RECONNECT ≤ now := by
      intro now hmoment hnow
      obtain ⟨acts, l'', hrun, hacts, hstarts⟩ := starts_again hl.sound hstep hmoment hnow
      exact hwaits acts l'' now hrun hacts hstarts
    obtain hle | hle := UInt64.le_total f (failure.again .host l f)
    · exact .inl (hnext _ (UInt64.le_refl _) hle)
    · exact .inr (hnext f hle (UInt64.le_refl f))
  · intro hsum acts l'' now hrun hacts hstarts
    obtain ⟨hmoment, hnow⟩ := retry_bound hl.sound hstep hrun hacts hstarts
    obtain hle | hle := hsum
    · exact UInt64.le_trans hle hmoment
    · exact UInt64.le_trans hle hnow

/-- A request of the first full refresh of the host's loop fails at the moment it began. -/
theorem host_waits_iff_fetching :
    ((fetching []).goOn 4 ((fetching []).driver.fetchFailed 4 .full, none)).WaitsFrom .host 4 := by
  have hstep : Step .host (fetching []) (Failure.request.act 4)
      ((fetching []).goOn 4 ((fetching []).driver.fetchFailed 4 .full, none)) :=
    .failed 4 .full (by decide +kernel) (by decide +kernel)
  exact (host_waits_iff (fetching_reachable .host (.inl rfl)) hstep).mpr
    (.inl (UInt64.le_refl _))

/-- A request of the first full refresh of the host's loop fails when the clock is as far on as
    the wait is long, and the next one starts at that very moment. -/
theorem host_retries_at_once : ∃ l l', l.Reachable .host ∧
    Step .host l (.failed 5000000004 .full) l' ∧ l'.StartsFull 5000000004 ∧
      ¬l'.WaitsFrom .host 5000000004 := by
  have hstarts : ((fetching []).goOn 5000000004
      ((fetching []).driver.fetchFailed 4 .full, none)).StartsFull 5000000004 :=
    ⟨rfl, by decide +kernel, by decide +kernel⟩
  refine ⟨fetching [], _, fetching_reachable .host (.inl rfl),
    .failed 5000000004 .full (by decide +kernel) (by decide +kernel), hstarts, fun hwaits => ?_⟩
  have hbound :=
    hwaits [] _ 5000000004 (.nil _) (fun _ hact => absurd hact List.not_mem_nil) hstarts
  exact absurd hbound (by decide +kernel)

end Loop

end HopDns

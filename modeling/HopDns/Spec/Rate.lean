import HopDns.Spec.Coalesce

/-!
# The rate of the requests

How soon a watcher asks for another request. The moments of the calls do not go back;
sums of moments stop at the largest one.

## Key results

- `Watcher.spaced_step`: without a ping or a failure, a refresh waits out the debounce
- `Watcher.retrying_run`: a full refresh that failed waits out the interval
- `Watcher.refresh_spaced`, `Watcher.refresh_retried`, `Watcher.discovery_retried`: the bounds
- `Watcher.rate_limited`: the three of them
-/

namespace HopDns

open ForStd

/-- The sum as a number, up to the largest one. -/
private theorem toNat_saturatingAdd (a b : UInt64) :
    (saturatingAdd a b).toNat = min (a.toNat + b.toNat) 18446744073709551615 := by
  unfold saturatingAdd
  split
  · rename_i hsmall
    rw [UInt64.toNat_add, Nat.mod_eq_of_lt hsmall]
    omega
  · have hmax : (UInt64.ofNat 18446744073709551615).toNat = 18446744073709551615 := by decide
    omega

/-- Later moments have later deadlines. -/
theorem saturatingAdd_mono {a b : UInt64} (h : a ≤ b) (d : UInt64) :
    saturatingAdd a d ≤ saturatingAdd b d := by
  rw [UInt64.le_iff_toNat_le] at h ⊢
  rw [toNat_saturatingAdd, toNat_saturatingAdd]
  omega

/-- Only the ping of a stream seeds. -/
theorem classify_eq_seed {ev : Event} : classify ev = .seed ↔ ev.topic = some .ping := by
  unfold classify
  split
  · simp_all
  · simp_all
  · simp_all
  · split <;> simp_all
  · split <;> simp_all
  · simp_all
  · simp_all

namespace Watcher

/-! ## The moments of calls -/

/-- The moment a call is made at, where it is given one. -/
def Call.time : Call → Option UInt64
  | .next now => some now
  | .discovered now _ => some now
  | .discoverFailed now => some now
  | .event now _ => some now
  | .refreshFailed now _ => some now
  | .lost => none
  | .refreshedFull _ _ _ => none
  | .refreshedJob _ _ _ => none

/-- The moments of the calls do not go back. -/
def InOrder (calls : List (Call × Outcome)) : Prop :=
  (calls.filterMap fun call => call.1.time).Pairwise (· ≤ ·)

/-- No call comes before the first one. -/
private theorem InOrder.le {call call' : Call × Outcome} {calls : List (Call × Outcome)}
    {t t' : UInt64} (h : InOrder (call :: calls)) (ht : call.1.time = some t) (hmem : call' ∈ calls)
    (ht' : call'.1.time = some t') : t ≤ t' := by
  have hcons : (call :: calls).filterMap (fun call => call.1.time) =
      t :: calls.filterMap (fun call => call.1.time) := List.filterMap_cons_some ht
  rw [InOrder, hcons] at h
  exact (List.pairwise_cons.mp h).1 t' (List.mem_filterMap.mpr ⟨call', hmem, ht'⟩)

/-- Later calls alone are in order too. -/
theorem InOrder.of_append {calls calls' : List (Call × Outcome)} (h : InOrder (calls ++ calls')) :
    InOrder calls' := by
  rw [InOrder, List.filterMap_append] at h
  exact (List.pairwise_append.mp h).2.1

/-- The call is not made before `t`. -/
def NotBefore (t : UInt64) (call : Call × Outcome) : Prop :=
  ∀ now, call.1.time = some now → t ≤ now

/-- The call brings a ping. -/
def Pings (call : Call × Outcome) : Prop :=
  ∃ now ev, call.1 = .event now ev ∧ ev.topic = some .ping

/-- The call reports a refresh that failed. -/
def Fails (call : Call × Outcome) : Prop := ∃ now what, call.1 = .refreshFailed now what

/-- The call reports a refresh of jobs that failed. -/
def FailsJobs (call : Call × Outcome) : Prop :=
  ∃ now names, call.1 = .refreshFailed now (.jobs names)

/-- The first call gave back the refresh that the second one reports as failed. -/
def Gives (call call' : Call × Outcome) : Prop :=
  ∃ t what now, call = (.next t, .action (.refresh what)) ∧ call'.1 = .refreshFailed now what

/-- The refreshes of jobs that are reported as failed are some that `next` gave back. -/
def Reports (calls : List (Call × Outcome)) : Prop := Preceded FailsJobs Gives calls

/-! ## What a call does to the moment of the refresh -/

/-- An event other than a ping leaves a moment alone, and sets one by the debounce. -/
theorem due_hears_cases (w : Watcher) (now : UInt64) {ev : Event} (hseed : classify ev ≠ .seed) :
    (w.hears now ev).due = w.due ∨
      (w.hears now ev).due = some (saturatingAdd now w.debounce) := by
  -- only an event that finds nothing due sets a moment
  cases hdue : w.due with
  -- a moment that is there already stays
  | some d => exact .inl (due_hears_later hdue now hseed)
  | none =>
    unfold hears
    cases hc : classify ev with
    | seed => exact absurd hc hseed
    | ignore => exact .inl hdue
    | full => exact .inr (by simp [pendFull, hdue])
    | job name =>
      simp only
      split
      · exact .inl hdue
      split
      · exact .inr (by simp [pendJobs, hdue])
      split
      · exact .inr (by simp [pendFull, hdue])
      · exact .inr (by simp [pendJobs, hdue])

/-! ## Two refreshes -/

/-- No refresh has a moment before `limit`. -/
def Spaced (limit : UInt64) (w : Watcher) : Prop := ∀ d, w.due = some d → limit ≤ d

/-- Without a ping or a failure, moments set from `t` on are not before the end of a debounce
    from `t` on. -/
theorem spaced_step {w w' : Watcher} {t : UInt64} {call : Call × Outcome}
    (hdebounce : w.debounce = DEBOUNCE) (h : w.Spaced (saturatingAdd t DEBOUNCE))
    (htime : NotBefore t call) (hping : ¬Pings call) (hfails : ¬Fails call)
    (hstep : Step w call w') : w'.Spaced (saturatingAdd t DEBOUNCE) := by
  obtain ⟨call, o⟩ := call
  obtain ⟨rfl | rfl, -⟩ := step_cases hstep
  · intro d hd
    cases call with
    -- a refresh that is given back takes the moment with it
    | next now =>
      rw [after] at hd
      obtain ⟨d', -, -, heq⟩ | ⟨heq, -⟩ := w.next_cases now <;> rw [heq] at hd
      · cases hd
      -- `next` waits, and leaves the moment
      · exact h d hd
    | discovered now name => exact h d ((w.learns_frame now name).1.symm.trans hd)
    | event now ev =>
      have hseed : classify ev ≠ .seed :=
        fun hc => hping ⟨now, ev, rfl, classify_eq_seed.mp hc⟩
      obtain hsame | hnew := w.due_hears_cases now hseed
      · exact h d (hsame.symm.trans hd)
      · -- a moment that is new is a debounce from now on
        obtain rfl := Option.some.inj (hnew.symm.trans hd)
        rw [hdebounce]
        exact saturatingAdd_mono (htime now rfl) DEBOUNCE
    -- a lost stream, too, leaves nothing due
    | lost => cases hd
    | discoverFailed now => exact h d hd
    | refreshedFull agents tasks here => exact h d hd
    | refreshedJob job status here => exact h d hd
    | refreshFailed now what => exact absurd ⟨now, what, rfl⟩ hfails
  -- a call that fails leaves the state as it was
  · exact h

/-! ## After a full refresh that failed -/

/-- A refresh has a moment, and it is not before `limit`. -/
def Retrying (limit : UInt64) (w : Watcher) : Prop := ∃ d, w.due = some d ∧ limit ≤ d

/-- The call gave back a refresh, and not before `limit`. -/
def RefreshesFrom (limit : UInt64) (call : Call × Outcome) : Prop :=
  ∃ t what, call = (.next t, .action (.refresh what)) ∧ limit ≤ t

/-- A call other than `next` gives back no action. -/
private theorem step_ne_action {w w' : Watcher} {call : Call} {o : Outcome}
    (hstep : Step w (call, o) w')
    (hne : ∀ now, call ≠ .next now) (action : Action) : o ≠ .action action := by
  intro ho
  -- only `next` has an action for its outcome
  obtain ⟨mem, mem', hperform⟩ := hstep
  cases call with
  | next now => exact hne now rfl
  | discovered now name => simp [perform, ho] at hperform
  | event now ev => simp [perform, ho] at hperform
  | discoverFailed now => simp [perform, ho] at hperform
  | lost => simp [perform, ho] at hperform
  | refreshedFull agents tasks here => simp [perform, ho] at hperform
  | refreshedJob job status here => simp [perform, ho] at hperform
  | refreshFailed now what => simp [perform, ho] at hperform

/-- Without a ping, a lost stream or the failure of a refresh of jobs, the moment stays until
    it has come. -/
private theorem retrying_step {w w' : Watcher} {f i : UInt64} {call : Call × Outcome}
    (hinterval : w.interval = i) (h : w.Retrying (saturatingAdd f i)) (htime : NotBefore f call)
    (hping : ¬Pings call) (hlost : call.1 ≠ .lost) (hjobs : ¬FailsJobs call)
    (hstep : Step w call w') :
    RefreshesFrom (saturatingAdd f i) call ∨
      w'.Retrying (saturatingAdd f i) ∧ ∀ what, call.2 ≠ .action (.refresh what) := by
  obtain ⟨d, hd, hle⟩ := h
  obtain ⟨call, o⟩ := call
  obtain ⟨hafter, hnext⟩ := step_cases hstep
  -- a call that is not `next` gives no refresh back
  have hother : (∀ now, call ≠ .next now) → ∀ what, o ≠ .action (.refresh what) :=
    fun hne what => step_ne_action hstep hne (.refresh what)
  cases call with
  | next now =>
    obtain ⟨rfl, rfl⟩ := hnext now rfl
    obtain ⟨d', hd', hnow, heq⟩ | ⟨heq, hnot⟩ := w.next_cases now
    -- the moment has come, and it is no earlier than the limit
    · obtain rfl := Option.some.inj (hd.symm.trans hd')
      exact .inl ⟨now, _, by rw [heq], UInt64.le_trans hle hnow⟩
    · rw [heq]
      exact .inr ⟨⟨d, hd, hle⟩, fun what ho => hnot what (Outcome.action.inj ho)⟩
  | lost => exact absurd rfl hlost
  | event now ev =>
    refine .inr ⟨?_, hother (fun _ => by simp)⟩
    have hseed : classify ev ≠ .seed := fun hc => hping ⟨now, ev, rfl, classify_eq_seed.mp hc⟩
    obtain rfl | rfl := hafter
    -- an event does not bring the moment forward
    · exact ⟨d, due_hears_later hd now hseed, hle⟩
    · exact ⟨d, hd, hle⟩
  | discovered now name =>
    refine .inr ⟨?_, hother (fun _ => by simp)⟩
    obtain rfl | rfl := hafter
    · exact ⟨d, (w.learns_frame now name).1.trans hd, hle⟩
    · exact ⟨d, hd, hle⟩
  | discoverFailed now =>
    obtain rfl | rfl := hafter <;> exact .inr ⟨⟨d, hd, hle⟩, hother (fun _ => by simp)⟩
  | refreshedFull agents tasks here =>
    obtain rfl | rfl := hafter <;> exact .inr ⟨⟨d, hd, hle⟩, hother (fun _ => by simp)⟩
  | refreshedJob job status here =>
    obtain rfl | rfl := hafter <;> exact .inr ⟨⟨d, hd, hle⟩, hother (fun _ => by simp)⟩
  | refreshFailed now what =>
    refine .inr ⟨?_, hother (fun _ => by simp)⟩
    cases what with
    | jobs names => exact absurd ⟨now, names, rfl⟩ hjobs
    | full =>
      -- the earlier of the two moments is kept, and both are late enough
      obtain rfl | rfl := hafter
      · -- a full refresh that fails later waits longer
        have hlater : saturatingAdd f i ≤ saturatingAdd now w.interval := by
          rw [hinterval]
          exact saturatingAdd_mono (htime now rfl) i
        refine ⟨min d (saturatingAdd now w.interval), by simp [after, refreshFailed, hd], ?_⟩
        show _ ≤ if d ≤ saturatingAdd now w.interval then d else saturatingAdd now w.interval
        split
        · exact hle
        · exact hlater
      · exact ⟨d, hd, hle⟩

/-- The same of a run of calls: the moment stays, or a refresh was given back and not before
    it. -/
theorem retrying_run {w w' : Watcher} {f i : UInt64} {calls : List (Call × Outcome)}
    (hinterval : w.interval = i) (h : w.Retrying (saturatingAdd f i)) (hrun : Run Step w calls w')
    (htime : ∀ call ∈ calls, NotBefore f call)
    (hquiet : ∀ call ∈ calls, ¬Pings call ∧ call.1 ≠ .lost) (hreports : Reports calls) :
    (∃ call ∈ calls, RefreshesFrom (saturatingAdd f i) call) ∨
      w'.Retrying (saturatingAdd f i) := by
  -- time, pings and losses restrict each call; the reports bar what may follow one
  have hall : ∀ call ∈ calls, NotBefore f call ∧ ¬Pings call ∧ call.1 ≠ .lost :=
    fun call hcall => ⟨htime call hcall, hquiet call hcall⟩
  have hstep : ∀ (w : Watcher) (call : Call × Outcome) (w' : Watcher),
      (w.interval = i ∧ w.Retrying (saturatingAdd f i)) → ¬FailsJobs call →
      ((NotBefore f call ∧ ¬Pings call ∧ call.1 ≠ .lost) ∧ Step w call w') →
      RefreshesFrom (saturatingAdd f i) call ∨
        (w'.interval = i ∧ w'.Retrying (saturatingAdd f i)) ∧
          ∀ call', FailsJobs call' → ¬Gives call call' := by
    -- a call that gives no refresh back allows no failure of one to follow
    intro w call w' hw hjobs hstep
    obtain ⟨⟨htime, hping, hlost⟩, hstep⟩ := hstep
    obtain hfrom | ⟨hw', hnone⟩ := retrying_step hw.1 hw.2 htime hping hlost hjobs hstep
    · exact .inl hfrom
    · refine .inr ⟨⟨(settings_step hstep).1.trans hw.1, hw'⟩, fun call' _ hgives => ?_⟩
      obtain ⟨t, what, now, rfl, -⟩ := hgives
      exact hnone what rfl
  obtain hfrom | ⟨hw', -⟩ := (hrun.restrict hall).keepsBarring hstep hreports ⟨hinterval, h⟩
  · exact .inl hfrom
  · exact .inr hw'.2

/-! ## After a discovery that failed -/

/-- No discovery runs before `limit`. -/
def Waiting (limit : UInt64) (w : Watcher) : Prop := limit ≤ w.retryAt

/-- A call other than a discovery that fails leaves the moment of the next discovery alone. -/
private theorem retryAt_after (w : Watcher) (call : Call) :
    (w.after call).retryAt = w.retryAt ∨
      ∃ now, call.time = some now ∧ (w.after call).retryAt = saturatingAdd now w.interval := by
  -- the discovery calls are the only ones that set the moment
  cases call with
  | next now =>
    refine .inl ?_
    rw [after]
    obtain ⟨d, -, -, heq⟩ | ⟨heq, -⟩ := w.next_cases now
    · rw [heq]
      rfl
    · rw [heq]
  -- an empty name is a failed discovery
  | discovered now name =>
    simp only [after, learns]
    split
    · exact .inr ⟨now, rfl, rfl⟩
    · exact .inl rfl
  | discoverFailed now => exact .inr ⟨now, rfl, rfl⟩
  | event now ev =>
    refine .inl ?_
    simp only [after, hears]
    cases classify ev with
    | seed => rfl
    | full => rfl
    | ignore => rfl
    | job name =>
      simp only
      split
      · rfl
      split
      · rfl
      split <;> rfl
  | lost => exact .inl rfl
  | refreshedFull agents tasks here => exact .inl rfl
  | refreshedJob job status here => exact .inl rfl
  | refreshFailed now what => exact .inl rfl

/-- A watcher that waits goes on waiting, whatever is called before the time. -/
private theorem waiting_step {w w' : Watcher} {f i : UInt64} {call : Call × Outcome}
    (hinterval : w.interval = i) (h : w.Waiting (saturatingAdd f i)) (htime : NotBefore f call)
    (hstep : Step w call w') : w'.Waiting (saturatingAdd f i) := by
  obtain rfl | rfl := (step_cases hstep).1
  · obtain hsame | ⟨now, hnow, hlater⟩ := w.retryAt_after call.1
    · rw [Waiting, hsame]
      exact h
    · rw [Waiting, hlater, hinterval]
      exact saturatingAdd_mono (htime now hnow) i
  · exact h

/-- A discovery is asked for no sooner than its moment. -/
private theorem retryAt_le_of_discover {w : Watcher} {now : UInt64}
    (h : (w.next now).1 = .discover) :
    w.retryAt ≤ now := by
  unfold next at h
  split at h
  · split at h
    · assumption
    · cases h
  split at h
  · split at h <;> cases h
  · cases h

/-- The call reports that the discovery failed at `f`, or brings a name that is blank. -/
def FailsDiscovery (f : UInt64) (call : Call × Outcome) : Prop :=
  call.1 = .discoverFailed f ∨ ∃ name, call.1 = .discovered f name ∧ (trim name).isEmpty = true

/-- A discovery that fails sets the time for the next one. -/
private theorem step_failsDiscovery {w w' : Watcher} {f : UInt64} {call : Call × Outcome}
    (h : FailsDiscovery f call) (hstep : Step w call w') : w' = w.discoverFailed f := by
  obtain ⟨call, o⟩ := call
  obtain ⟨mem, mem', hperform⟩ := hstep
  -- the discovery failed, or the name that it brought is blank
  obtain rfl | ⟨name, rfl, hblank⟩ : call = .discoverFailed f ∨
    ∃ name, call = .discovered f name ∧ (trim name).isEmpty = true := h
  · obtain ⟨-, rfl, -⟩ := hperform
    rfl
  · -- a blank name asks for no memory
    have hrun : (discovered f name).run (w, mem) =
        (.error .noClusterName, w.discoverFailed f, mem) := by
      unfold discovered
      rw [Method.run_bind_ok _ (Method.run_self (w, mem))]
      simp only [hblank, if_true]
      rfl
    simp only [perform, hrun, Prod.mk.injEq] at hperform
    exact hperform.2.1.symm

/-! ## The bounds -/

/-- Two refreshes without a ping or a failed refresh between them are a debounce apart. -/
theorem refresh_spaced {w w' : Watcher} (hw : w.Reachable) {t₁ t₂ : UInt64} {r₁ r₂ : Refresh}
    {calls : List (Call × Outcome)}
    (hrun : Run Step w ((.next t₁, .action (.refresh r₁)) ::
      (calls ++ [(.next t₂, .action (.refresh r₂))])) w')
    (horder : InOrder ((.next t₁, .action (.refresh r₁)) ::
      (calls ++ [(.next t₂, .action (.refresh r₂))])))
    (hquiet : ∀ call ∈ calls, ¬Pings call ∧ ¬Fails call) : saturatingAdd t₁ DEBOUNCE ≤ t₂ := by
  have htime : ∀ call ∈ calls, NotBefore t₁ call :=
    fun call hcall now hnow => horder.le rfl (List.mem_append_left _ hcall) hnow
  -- the first refresh, the calls in between and the second one
  cases hrun with
  | cons hfirst hrest =>
    obtain ⟨v, v', hmid, hlast, -⟩ := hrest.split_cons
    obtain ⟨hr₁, rfl⟩ := (step_cases hfirst).2 t₁ rfl
    obtain ⟨hr₂, -⟩ := (step_cases hlast).2 t₂ rfl
    -- the first refresh leaves nothing pending, and what comes after keeps its distance
    obtain ⟨-, -, hidle⟩ := next_refresh (Outcome.action.inj hr₁).symm
    have hstart : (w.next t₁).2.debounce = DEBOUNCE ∧
        (w.next t₁).2.Spaced (saturatingAdd t₁ DEBOUNCE) := by
      refine ⟨(settings_step hfirst).2.trans hw.debounce, fun d hd => ?_⟩
      rw [hidle] at hd
      cases hd
    -- what lies between has none of the calls that bring the moment forward
    have hall : ∀ call ∈ calls, NotBefore t₁ call ∧ ¬Pings call ∧ ¬Fails call :=
      fun call hcall => ⟨htime call hcall, hquiet call hcall⟩
    have hstep : ∀ (w : Watcher) (call : Call × Outcome) (w' : Watcher),
        (w.debounce = DEBOUNCE ∧ w.Spaced (saturatingAdd t₁ DEBOUNCE)) →
        (NotBefore t₁ call ∧ ¬Pings call ∧ ¬Fails call) → Step w call w' →
        (w'.debounce = DEBOUNCE ∧ w'.Spaced (saturatingAdd t₁ DEBOUNCE)) := by
      intro w call w' hw hcall hstep
      obtain ⟨htime, hping, hfails⟩ := hcall
      exact ⟨(settings_step hstep).2.trans hw.1, spaced_step hw.1 hw.2 htime hping hfails hstep⟩
    obtain ⟨-, hspaced⟩ := hmid.keepsWhile hstep hall hstart
    obtain ⟨⟨d, hd, hle⟩, -, -⟩ := next_refresh (Outcome.action.inj hr₂).symm
    exact UInt64.le_trans (hspaced d hd) hle

/-- A full refresh that failed with nothing pending is followed by no refresh before the
    interval is over, unless a ping or a lost stream comes first. -/
theorem refresh_retried {w w' : Watcher} {f t : UInt64} {what : Refresh} (hdue : w.due = none)
    {calls : List (Call × Outcome)}
    (hrun : Run Step w ((.refreshFailed f .full, .done) ::
      (calls ++ [(.next t, .action (.refresh what))])) w')
    (horder : InOrder ((.refreshFailed f .full, .done) ::
      (calls ++ [(.next t, .action (.refresh what))])))
    (hquiet : ∀ call ∈ calls, ¬Pings call ∧ call.1 ≠ .lost) (hreports : Reports calls) :
    saturatingAdd f w.interval ≤ t := by
  have htime : ∀ call ∈ calls, NotBefore f call :=
    fun call hcall now hnow => horder.le rfl (List.mem_append_left _ hcall) hnow
  cases hrun with
  | cons hfirst hrest =>
    obtain ⟨v, v', hmid, hlast, -⟩ := hrest.split_cons
    obtain ⟨hwhat, -⟩ := (step_cases hlast).2 t rfl
    obtain ⟨mem, mem', rfl, rfl, rfl⟩ := hfirst
    -- the failure has put the moment a whole interval away
    have hstart : (w.refreshFailed f .full).Retrying (saturatingAdd f w.interval) :=
      ⟨saturatingAdd f w.interval, by simp [refreshFailed, hdue], UInt64.le_refl _⟩
    obtain ⟨call, hcall, now, what', rfl, hnow⟩ | ⟨d, hd, hle⟩ :=
      retrying_run (w := w.refreshFailed f .full) rfl hstart hmid htime hquiet hreports
    · -- a refresh was given back before, and not too soon
      obtain ⟨before, after, rfl⟩ := List.append_of_mem hcall
      have hlater : InOrder ((.next now, .action (.refresh what')) ::
          (after ++ [(.next t, .action (.refresh what))])) := by
        refine @InOrder.of_append ((.refreshFailed f .full, .done) :: before) _ ?_
        simpa only [List.cons_append, List.append_assoc] using horder
      exact UInt64.le_trans hnow
        (hlater.le rfl (List.mem_append_right _ List.mem_cons_self) rfl)
    · -- the moment has stayed, and so the last refresh is no sooner
      -- that is no earlier than the retry, and so is the refresh
      obtain ⟨⟨d', hd', hle'⟩, -, -⟩ := next_refresh (Outcome.action.inj hwhat).symm
      obtain rfl := Option.some.inj (hd.symm.trans hd')
      exact UInt64.le_trans hle hle'

/-- A discovery that failed is followed by none before the interval is over. -/
theorem discovery_retried {w w' : Watcher} {f t : UInt64} {failure : Call × Outcome}
    (hfailure : FailsDiscovery f failure) {calls : List (Call × Outcome)}
    (hrun : Run Step w (failure :: (calls ++ [(.next t, .action .discover)])) w')
    (horder : InOrder (failure :: (calls ++ [(.next t, .action .discover)]))) :
    saturatingAdd f w.interval ≤ t := by
  have hnow : failure.1.time = some f := by
    obtain h | ⟨name, h, -⟩ := hfailure <;> rw [h] <;> rfl
  have htime : ∀ call ∈ calls, NotBefore f call :=
    fun call hcall now hnow' => horder.le hnow (List.mem_append_left _ hcall) hnow'
  cases hrun with
  | cons hfirst hrest =>
    obtain ⟨v, v', hmid, hlast, -⟩ := hrest.split_cons
    obtain ⟨haction, -⟩ := (step_cases hlast).2 t rfl
    -- the watcher now waits for the moment that `discover_failed` set
    obtain rfl := step_failsDiscovery hfailure hfirst
    -- no call brings the next discovery forward
    have hstep : ∀ (v : Watcher) (call : Call × Outcome) (v' : Watcher),
        (v.interval = w.interval ∧ v.Waiting (saturatingAdd f w.interval)) →
        NotBefore f call → Step v call v' →
        (v'.interval = w.interval ∧ v'.Waiting (saturatingAdd f w.interval)) := by
      intro v call v' hv htime hstep
      exact ⟨(settings_step hstep).1.trans hv.1, waiting_step hv.1 hv.2 htime hstep⟩
    obtain ⟨-, hwaiting⟩ := hmid.keepsWhile hstep htime ⟨rfl, UInt64.le_refl _⟩
    exact UInt64.le_trans hwaiting (retryAt_le_of_discover (Outcome.action.inj haction).symm)

/-- The rate of the requests, over runs of calls whose moments do not go back: two refreshes
    without a ping or a failed refresh between them are a debounce apart; a full refresh that
    failed with nothing pending is followed by none before the interval is over, unless a ping
    or a lost stream comes first; and so is a failed discovery. -/
theorem rate_limited {w : Watcher} (hw : w.Reachable) :
    (∀ t₁ r₁ calls t₂ r₂ w', Run Step w ((.next t₁, .action (.refresh r₁)) ::
        (calls ++ [(.next t₂, .action (.refresh r₂))])) w' →
      InOrder ((.next t₁, .action (.refresh r₁)) ::
        (calls ++ [(.next t₂, .action (.refresh r₂))])) →
      (∀ call ∈ calls, ¬Pings call ∧ ¬Fails call) → saturatingAdd t₁ DEBOUNCE ≤ t₂) ∧
    (∀ f calls t what w', w.due = none → Run Step w ((.refreshFailed f .full, .done) ::
        (calls ++ [(.next t, .action (.refresh what))])) w' →
      InOrder ((.refreshFailed f .full, .done) ::
        (calls ++ [(.next t, .action (.refresh what))])) →
      (∀ call ∈ calls, ¬Pings call ∧ call.1 ≠ .lost) → Reports calls →
        saturatingAdd f w.interval ≤ t) ∧
    (∀ f failure calls t w', FailsDiscovery f failure →
      Run Step w (failure :: (calls ++ [(.next t, .action .discover)])) w' →
      InOrder (failure :: (calls ++ [(.next t, .action .discover)])) →
        saturatingAdd f w.interval ≤ t) := by
  refine ⟨?_, ?_, ?_⟩
  · intro t₁ r₁ calls t₂ r₂ w' hrun horder hquiet
    exact refresh_spaced hw hrun horder hquiet
  · intro f calls t what w' hdue hrun horder hquiet hreports
    exact refresh_retried hdue hrun horder hquiet hreports
  · intro f failure calls t w' hfailure hrun horder
    exact discovery_retried hfailure hrun horder

/-- A watcher that knows its cluster, after a ping. -/
def pinged : Watcher := known.hears 5 ⟨some .ping⟩

theorem pinged_reachable : pinged.Reachable := known_reachable.snoc (known.step_event 5 _)

/-- A refresh and the next one, with a job named between them; a full refresh that failed and
    the next one, with a job named between them; and a discovery that failed and the next one. -/
theorem rate_limited_pinged : saturatingAdd 5 DEBOUNCE ≤ 500000006 ∧
    saturatingAdd 5 known.interval ≤ 5000000005 ∧ saturatingAdd 7 peer.interval ≤ 5000000007 := by
  refine ⟨?_, ?_, ?_⟩
  · have hfirst : Step pinged (.next 5, .action (.refresh .full)) known :=
      step_next_eq (by decide +kernel)
    refine (rate_limited pinged_reachable).1 5 .full
      [(.event 6 ⟨some (.job (str "web"))⟩, .result (.ok ()))] 500000006 (.jobs [str "web"])
      known (.cons hfirst (.cons (step_event _ 6 _) (.single (step_next_eq (by decide +kernel)))))
      (by unfold InOrder; decide +kernel) ?_
    intro call hcall
    rw [List.mem_singleton.mp hcall]
    exact ⟨by simp [Pings], by simp [Fails]⟩
  · refine (rate_limited known_reachable).2.1 5
      [(.event 6 ⟨some (.job (str "web"))⟩, .result (.ok ()))] 5000000005 .full known
      (by decide +kernel) (.cons ⟨[], [], rfl⟩
        (.cons (step_event _ 6 _) (.single (step_next_eq (by decide +kernel)))))
      (by unfold InOrder; decide +kernel) ?_ ?_
    · intro call hcall
      rw [List.mem_singleton.mp hcall]
      exact ⟨by simp [Pings], by simp⟩
    · intro before call after heq hfails
      have hcall : call ∈ [(Call.event 6 ⟨some (.job (str "web"))⟩, Outcome.result (.ok ()))] := by
        rw [heq]
        exact List.mem_append_right _ List.mem_cons_self
      rw [List.mem_singleton.mp hcall] at hfails
      simp [FailsJobs] at hfails
  · exact (rate_limited peer_reachable).2.2 7 (.discoverFailed 7, .done) [] 5000000007
      (peer.discoverFailed 7) (.inl rfl) (.cons ⟨[], [], rfl⟩
        (.single (step_next_eq (by decide +kernel)))) (by unfold InOrder; decide +kernel)

end Watcher

end HopDns

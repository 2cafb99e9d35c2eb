import HopDns.ForStd.Distinct
import HopDns.Spec.WatcherInvariant

/-!
# Coalescing

The events of a storm become one refresh. The `summary` of a list of events says which:
everything, or the jobs they name. What the watcher has pending after those events, in
whatever steps it got there, is that summary.

## Key results

- `Watcher.Gathered.hears`: one event more is one event more in the summary
- `Watcher.coalesced`: the refresh at the end of the window is the summary of its events
-/

namespace HopDns

open ForStd

/-- The job an event names, in lower case. -/
def Event.job? (ev : Event) : Option Str :=
  match classify ev with
  | .job name => some (lowercase name)
  | _ => none

/-- The jobs that events name, in lower case, in the order in which they were first named. -/
def mentioned (evs : List Event) : List Str := (evs.filterMap Event.job?).eraseDups

/-- The events ask for everything: one of them does, or they name more jobs than the list of a
    watcher holds. -/
def AskAll (evs : List Event) : Prop :=
  (∃ ev ∈ evs, classify ev = .full) ∨ MAX_PENDING < (mentioned evs).length

instance (evs : List Event) : Decidable (AskAll evs) := inferInstanceAs (Decidable (_ ∨ _))

/-- The refresh that events come down to. -/
def summary (evs : List Event) : Refresh :=
  if AskAll evs then .full else .jobs (mentioned evs)

@[simp] theorem mentioned_nil : mentioned [] = [] := rfl

/-- An event that names no job leaves the names as they are. -/
private theorem mentioned_concat_none {evs : List Event} {ev : Event} (h : ev.job? = none) :
    mentioned (evs ++ [ev]) = mentioned evs := by
  simp [mentioned, h]

/-- An event that names a job adds it when it is new. -/
private theorem mentioned_concat_some {evs : List Event} {ev : Event} {name : Str}
    (h : ev.job? = some name) : mentioned (evs ++ [ev]) =
      if name ∈ mentioned evs then mentioned evs else mentioned evs ++ [name] := by
  have hlist : (evs ++ [ev]).filterMap Event.job? = evs.filterMap Event.job? ++ [name] := by
    simp [h]
  rw [mentioned, hlist, List.eraseDups_concat]
  simp only [mentioned, List.mem_eraseDups]

/-- Events that ask for everything still do with one more. -/
theorem AskAll.concat {evs : List Event} (h : AskAll evs) (ev : Event) : AskAll (evs ++ [ev]) := by
  obtain ⟨e, he, hfull⟩ | hlong := h
  · exact .inl ⟨e, List.mem_append_left _ he, hfull⟩
  · refine .inr (Nat.lt_of_lt_of_le hlong ?_)
    cases hjob : ev.job? with
    | none => exact Nat.le_of_eq (congrArg List.length (mentioned_concat_none hjob).symm)
    | some name =>
      rw [mentioned_concat_some hjob]
      split
      · omega
      · rw [List.length_append]
        omega

/-- Without the last event, the rest asks for everything too, unless it is that event that does
    or a job too many. -/
private theorem askAll_concat {evs : List Event} {ev : Event} (hev : classify ev ≠ .full) :
    AskAll (evs ++ [ev]) ↔
      AskAll evs ∨ MAX_PENDING < (mentioned (evs ++ [ev])).length := by
  constructor
  · intro h
    -- the list asks for everything because of one event or because it is too long
    obtain ⟨e, he, hfull⟩ | hlong := h
    · obtain he | he := List.mem_append.mp he
      · exact .inl (.inl ⟨e, he, hfull⟩)
      · rw [List.mem_singleton.mp he] at hfull
        exact absurd hfull hev
    · exact .inr hlong
  · intro h
    obtain h | hlong := h
    · exact h.concat ev
    · exact .inr hlong

namespace Watcher

/-! ## What is pending after some events -/

/-- The watcher has pending what the events come down to. -/
structure Gathered (w : Watcher) (evs : List Event) : Prop where
  all : AskAll evs → w.full = true ∧ w.jobs = []
  some : ¬AskAll evs → w.full = false ∧ w.jobs = mentioned evs

/-- One job more, after events that do not ask for everything. -/
private theorem Gathered.hears_job {w : Watcher} {evs : List Event} (h : w.Gathered evs)
    (hall : ¬AskAll evs) {ev : Event} {name : Str} (hc : classify ev = .job name) (now : UInt64) :
    (w.hears now ev).Gathered (evs ++ [ev]) := by
  -- up to here only jobs are pending, the ones that were mentioned
  obtain ⟨hfull, hjobs⟩ := h.some hall
  have hjob : ev.job? = Option.some (lowercase name) := by simp [Event.job?, hc]
  have hshort : (mentioned evs).length ≤ MAX_PENDING := by
    apply Nat.le_of_not_lt
    exact fun hlong => hall (.inr hlong)
  -- with this event it asks for everything only if the list gets too long
  have hiff : AskAll (evs ++ [ev]) ↔ MAX_PENDING < (mentioned (evs ++ [ev])).length := by
    rw [askAll_concat (by rw [hc]; simp)]
    simp [hall]
  rw [mentioned_concat_some hjob] at hiff
  by_cases hmem : lowercase name ∈ mentioned evs
  · -- the name is on the list
    rw [if_pos hmem] at hiff
    have hsame : ¬AskAll (evs ++ [ev]) := by
      rw [hiff]
      omega
    refine ⟨fun hyes => absurd hyes hsame, fun _ => ?_⟩
    rw [mentioned_concat_some hjob, if_pos hmem]
    simp [Watcher.hears, hc, hfull, hjobs, hmem, pendJobs]
  rw [if_neg hmem, List.length_append, List.length_singleton] at hiff
  by_cases hroom : (mentioned evs).length < MAX_PENDING
  · -- there is room for it
    have hsame : ¬AskAll (evs ++ [ev]) := by
      rw [hiff]
      omega
    refine ⟨fun hyes => absurd hyes hsame, fun _ => ?_⟩
    rw [mentioned_concat_some hjob, if_neg hmem]
    have hnot : ¬MAX_PENDING ≤ (mentioned evs).length := by omega
    simp [Watcher.hears, hc, hfull, hjobs, hmem, hnot, pendJobs]
  · -- it is the one too many
    have hmany : AskAll (evs ++ [ev]) := hiff.mpr (by omega)
    refine ⟨fun _ => ?_, fun hnot => absurd hmany hnot⟩
    have hge : MAX_PENDING ≤ (mentioned evs).length := by omega
    simp [Watcher.hears, hc, hfull, hjobs, hmem, hge, pendFull]

/-- One event more, other than a ping. -/
theorem Gathered.hears {w : Watcher} {evs : List Event} (h : w.Gathered evs) {ev : Event}
    (hev : classify ev ≠ .seed) (now : UInt64) : (w.hears now ev).Gathered (evs ++ [ev]) := by
  by_cases hall : AskAll evs
  · -- everything is pending already, and stays so
    obtain ⟨hfull, hjobs⟩ := h.all hall
    refine ⟨fun _ => ?_, fun hnot => absurd (hall.concat ev) hnot⟩
    unfold Watcher.hears
    cases hc : classify ev with
    | seed => exact absurd hc hev
    | full => exact ⟨rfl, rfl⟩
    | ignore => exact ⟨hfull, hjobs⟩
    | job name => simp [hfull, hjobs]
  -- not everything is pending, so the event decides
  cases hc : classify ev with
  | seed => exact absurd hc hev
  | full =>
    refine ⟨fun _ => ?_, fun hnot => ?_⟩
    · simp [Watcher.hears, hc, pendFull]
    · exact absurd (.inl ⟨ev, List.mem_append_right _ List.mem_cons_self, hc⟩) hnot
  -- an ignored event leaves the list and the watcher as they are
  | ignore =>
    obtain ⟨hfull, hjobs⟩ := h.some hall
    have hjob : ev.job? = none := by simp [Event.job?, hc]
    have hsame : ¬AskAll (evs ++ [ev]) := by
      rw [askAll_concat (by rw [hc]; simp), mentioned_concat_none hjob]
      intro hor
      obtain hor | hlong := hor
      · exact hall hor
      · exact hall (.inr hlong)
    refine ⟨fun hyes => absurd hyes hsame, fun _ => ?_⟩
    rw [mentioned_concat_none hjob]
    simp [Watcher.hears, hc, hfull, hjobs]
  | job name => exact h.hears_job hall hc now

/-- What is pending after events is their summary. -/
private theorem Gathered.summary_eq {w : Watcher} {evs : List Event} (h : w.Gathered evs) :
    (if w.full then Refresh.full else .jobs w.jobs) = summary evs := by
  unfold summary
  by_cases hall : AskAll evs
  · rw [if_pos hall, (h.all hall).1, if_pos rfl]
  · rw [if_neg hall, (h.some hall).1, (h.some hall).2, if_neg Bool.false_ne_true]

/-! ## The moment of the refresh -/

/-- An event that is ignored changes nothing. -/
private theorem hears_ignored (w : Watcher) (now : UInt64) {ev : Event}
    (h : classify ev = .ignore) :
    w.hears now ev = w := by
  unfold hears
  rw [h]

/-- The first event with something to ask for sets the moment. -/
private theorem due_hears_first {w : Watcher} (hdue : w.due = none) (hfull : w.full = false)
    (now : UInt64) {ev : Event} (hseed : classify ev ≠ .seed) (hignore : classify ev ≠ .ignore) :
    (w.hears now ev).due = some (saturatingAdd now w.debounce) := by
  unfold hears
  -- every event that adds something sets the moment, as none is set
  cases hc : classify ev with
  | seed => exact absurd hc hseed
  | ignore => exact absurd hc hignore
  | full => simp [pendFull, hdue]
  -- a job adds itself, finds itself listed, or makes it everything
  | job name =>
    simp only [hfull, Bool.false_eq_true, if_false]
    split
    · simp [pendJobs, hdue]
    split
    · simp [pendFull, hdue]
    · simp [pendJobs, hdue]

/-- No later event other than a ping moves it. -/
theorem due_hears_later {w : Watcher} {d : UInt64} (hdue : w.due = some d) (now : UInt64)
    {ev : Event} (hseed : classify ev ≠ .seed) : (w.hears now ev).due = some d := by
  unfold hears
  -- what is pending has its moment, and no event moves it
  cases hc : classify ev with
  | seed => exact absurd hc hseed
  | ignore => exact hdue
  | full => simp [pendFull, hdue]
  | job name =>
    simp only
    split
    · exact hdue
    split
    · simp [pendJobs, hdue]
    split
    · simp [pendFull, hdue]
    · simp [pendJobs, hdue]

section

variable {w : Watcher} {c : Str} (hc : w.cluster = some c)
include hc

theorem next_idle (hdue : w.due = none) (now : UInt64) : w.next now = (.wait none, w) := by
  simp [next, hc, hdue]

/-- Before its time there is nothing to do yet. -/
private theorem next_early {d now : UInt64} (hdue : w.due = some d) (hnow : now < d) :
    w.next now = (.wait (some d), w) := by
  have hnot : ¬d ≤ now := UInt64.not_le.mpr hnow
  simp [next, hc, hdue, hnot]

/-- From its time on all that is pending is done at once. -/
theorem next_due {d now : UInt64} (hdue : w.due = some d) (hnow : d ≤ now) :
    w.next now = (.refresh (if w.full then .full else .jobs w.jobs), w.taken) := by
  simp [next, hc, hdue, hnow, taken]

end

/-! ## A window of events -/

/-- The events among calls. -/
def events (calls : List (Call × Outcome)) : List Event :=
  calls.filterMap fun call => match call.1 with
    | .event _ ev => some ev
    | _ => none

/-- The watcher took an event, other than a ping. -/
def Took (call : Call × Outcome) (ev : Event) : Prop :=
  ∃ now, call = (.event now ev, .result (.ok ())) ∧ classify ev ≠ .seed

/-- Before the window opens: an event that is ignored, or a poll at any moment. -/
def Before (call : Call × Outcome) : Prop :=
  (∃ ev, Took call ev ∧ classify ev = .ignore) ∨ ∃ now, call.1 = .next now

/-- In the window: any event, or a poll before its end. -/
def Within (limit : UInt64) (call : Call × Outcome) : Prop :=
  (∃ ev, Took call ev) ∨ ∃ now, call.1 = .next now ∧ now < limit

private theorem events_concat (calls : List (Call × Outcome)) (call : Call × Outcome) :
    events (calls ++ [call]) = events calls ++ events [call] := by
  simp [events]

/-- An accepted event leaves what it is heard to leave. -/
private theorem step_took {w w' : Watcher} {now : UInt64} {ev : Event}
    (h : Step w (.event now ev, .result (.ok ())) w') : w' = w.hears now ev := by
  obtain ⟨mem, mem', hperform⟩ := h
  simp only [perform, Prod.mk.injEq, Outcome.result.injEq] at hperform
  have hok : (event now ev).run (w, mem) = (.ok (), w', mem') :=
    Prod.ext hperform.1 hperform.2
  exact ((event_commits w now ev).eq_of_ok hok).2

/-- Before the window opens nothing changes. -/
private theorem before_run {w w' : Watcher} {c : Str} (hc : w.cluster = some c)
    (hdue : w.due = none)
    (hw : w.Gathered []) {calls : List (Call × Outcome)} (hrun : Run Step w calls w')
    (hcalls : ∀ call ∈ calls, Before call) : w' = w ∧ w.Gathered (events calls) := by
  -- the induction is on the calls; the watcher stays as it is while the list grows
  refine hrun.history (I := fun calls w' => (∀ call ∈ calls, Before call) →
    w' = w ∧ w.Gathered (events calls)) (fun _ => ⟨rfl, hw⟩) ?_ hcalls
  intro calls v call v' ih hstep hcalls
  obtain ⟨rfl, hgathered⟩ := ih fun call' hcall' => hcalls call' (List.mem_append_left _ hcall')
  rw [events_concat]
  obtain ⟨ev, ⟨now, rfl, hseed⟩, hignore⟩ | ⟨now, hnext⟩ :=
    hcalls call (List.mem_append_right _ List.mem_cons_self)
  · -- an event that is ignored
    obtain rfl := step_took hstep
    have hmore := hgathered.hears hseed now
    rw [v.hears_ignored now hignore] at hmore ⊢
    exact ⟨rfl, hmore⟩
  -- a poll with no moment set waits and changes nothing
  · obtain ⟨call, o⟩ := call
    obtain rfl : call = .next now := hnext
    obtain ⟨-, rfl⟩ := (step_cases hstep).2 now rfl
    rw [next_idle hc hdue]
    exact ⟨rfl, by simpa [events] using hgathered⟩

/-- In the window the moment stays, every poll waits for it, and what is pending is the summary
    of the events so far. -/
private theorem within_run {w w' : Watcher} {c : Str} {limit : UInt64} {evs : List Event}
    (hc : w.cluster = some c) (hdue : w.due = some limit) (hw : w.Gathered evs)
    {calls : List (Call × Outcome)} (hrun : Run Step w calls w')
    (hcalls : ∀ call ∈ calls, Within limit call) :
    (w'.cluster = some c ∧ w'.due = some limit ∧ w'.Gathered (evs ++ events calls)) ∧
      ∀ call ∈ calls, ∀ now, call.1 = .next now → call.2 = .action (.wait (some limit)) := by
  -- the induction is on the calls; the moment stays while the list grows
  refine hrun.history (I := fun calls w' => (∀ call ∈ calls, Within limit call) →
    (w'.cluster = some c ∧ w'.due = some limit ∧ w'.Gathered (evs ++ events calls)) ∧
      ∀ call ∈ calls, ∀ now, call.1 = .next now → call.2 = .action (.wait (some limit)))
    (fun _ => ⟨⟨hc, hdue, by simpa [events] using hw⟩, by simp⟩) ?_ hcalls
  intro calls v call v' ih hstep hcalls
  obtain ⟨⟨hc, hdue, hgathered⟩, hpolls⟩ :=
    ih fun call' hcall' => hcalls call' (List.mem_append_left _ hcall')
  rw [events_concat, ← List.append_assoc]
  obtain ⟨ev, now, rfl, hseed⟩ | ⟨now, hnext, hnow⟩ :=
    hcalls call (List.mem_append_right _ List.mem_cons_self)
  · -- an event in the window leaves the moment alone, and is one more in the summary
    obtain rfl := step_took hstep
    refine ⟨⟨(v.cluster_hears now ev).trans hc, due_hears_later hdue now hseed,
      hgathered.hears hseed now⟩, ?_⟩
    intro call hcall now' hnext
    obtain hcall | hcall := List.mem_append.mp hcall
    · exact hpolls call hcall now' hnext
    · rw [List.mem_singleton.mp hcall] at hnext
      cases hnext
  -- a poll before the moment waits for it
  · obtain ⟨call, o⟩ := call
    obtain rfl : call = .next now := hnext
    obtain ⟨rfl, rfl⟩ := (step_cases hstep).2 now rfl
    rw [next_early hc hdue hnow]
    refine ⟨⟨hc, hdue, by simpa [events] using hgathered⟩, ?_⟩
    intro call hcall now' hnext'
    obtain hcall | hcall := List.mem_append.mp hcall
    · exact hpolls call hcall now' hnext'
    · rw [List.mem_singleton.mp hcall]

/-- Coalescing is exact. From a watcher with nothing pending, the first event that asks for
    something, at `t`, opens a window. Until its end every poll waits for it and changes
    nothing; the first poll from then on gives back the summary of the events, whatever their
    times and the polls between them, and leaves nothing pending. -/
theorem coalesced {w w' : Watcher} {c : Str} (hw : w.Reachable) (hc : w.cluster = some c)
    (hdue : w.due = none) {early rest : List (Call × Outcome)} {t : UInt64} {ev : Event}
    (hrun : Run Step w (early ++ (.event t ev, .result (.ok ())) :: rest) w')
    (hearly : ∀ call ∈ early, Before call) (hseed : classify ev ≠ .seed)
    (hignore : classify ev ≠ .ignore)
    (hrest : ∀ call ∈ rest, Within (saturatingAdd t DEBOUNCE) call) :
    (∀ call ∈ rest, ∀ now, call.1 = .next now →
      call.2 = .action (.wait (some (saturatingAdd t DEBOUNCE)))) ∧
    (∀ now, now < saturatingAdd t DEBOUNCE →
      w'.next now = (.wait (some (saturatingAdd t DEBOUNCE)), w')) ∧
    (∀ now, saturatingAdd t DEBOUNCE ≤ now → w'.next now =
      (.refresh (summary (events early ++ ev :: events rest)),
        { w' with due := none, jobs := [], full := false })) := by
  -- with no moment there is nothing on the list
  have hempty : w.full = false ∧ w.jobs = [] := by
    have hiff := hw.consistent.due
    rw [hdue] at hiff
    simpa using hiff
  -- an empty list asks for nothing, which is what the watcher has
  have hnone : w.Gathered [] := by
    refine ⟨fun hall => ?_, fun _ => hempty⟩
    obtain ⟨e, he, -⟩ | hlong := hall
    · exact absurd he List.not_mem_nil
    · exact absurd hlong (Nat.not_lt_zero _)
  -- the run is cut at the event that opens the window
  obtain ⟨v, v', hbefore, hstep, hafter⟩ := hrun.split_cons
  obtain ⟨rfl, hgathered⟩ := before_run hc hdue hnone hbefore hearly
  obtain rfl := step_took hstep
  -- the window is open
  have hfirst := due_hears_first hdue hempty.1 t hseed hignore
  rw [hw.debounce] at hfirst
  obtain ⟨⟨hc', hdue', hgathered'⟩, hpolls⟩ := within_run ((v.cluster_hears t ev).trans hc) hfirst
    (hgathered.hears hseed t) hafter hrest
  -- a poll waits until the moment, and at the moment it hands out the summary
  refine ⟨hpolls, fun now hnow => next_early hc' hdue' hnow, fun now hnow => ?_⟩
  rw [next_due hc' hdue' hnow, hgathered'.summary_eq, List.append_assoc, List.singleton_append,
    taken]

/-- A watcher that knows its cluster. -/
def known : Watcher := peer.learns 1 (str "prod")

theorem known_reachable : known.Reachable :=
  peer_reachable.snoc (step_discovered peer 1 (by decide +kernel))

/-- Three events name two jobs, and a poll comes between them. -/
theorem coalesced_known :
    ((((known.hears 5 ⟨some (.job (str "Web"))⟩).hears 8 ⟨some (.task (str "web"))⟩).hears 9
      ⟨some (.job (str "api"))⟩).next 500000005).1 = .refresh (.jobs [str "web", str "api"]) := by
  -- the poll in the window waits for the moment that the first job set
  have hpoll : Step (known.hears 5 ⟨some (.job (str "Web"))⟩)
      (.next 7, .action (.wait (some 500000005))) (known.hears 5 ⟨some (.job (str "Web"))⟩) :=
    step_next_eq (by decide +kernel)
  have hrun : Run Step known
      ([(.event 2 ⟨some .other⟩, .result (.ok ()))] ++
        (.event 5 ⟨some (.job (str "Web"))⟩, .result (.ok ())) ::
          [(.next 7, .action (.wait (some 500000005))),
            (.event 8 ⟨some (.task (str "web"))⟩, .result (.ok ())),
            -- two more events in the window, one of them of the same job
            (.event 9 ⟨some (.job (str "api"))⟩, .result (.ok ()))]) _ :=
    .cons (known.step_event 2 ⟨some .other⟩) (.cons (known.step_event 5 ⟨some (.job (str "Web"))⟩)
      (.cons hpoll (.cons (step_event _ 8 _) (.single (step_event _ 9 _)))))
  -- what the events of this run are to the watcher
  have htook : ∀ now topic, topic ≠ .ping →
      Took (.event now ⟨some topic⟩, .result (.ok ())) ⟨some topic⟩ := by
    intro now topic htopic
    refine ⟨now, rfl, ?_⟩
    cases topic <;> simp_all [classify] <;> split <;> simp
  have hcluster : known.cluster = some (str "prod") := by decide +kernel
  obtain ⟨-, -, hend⟩ := coalesced known_reachable hcluster (by decide +kernel) hrun
    (by
      intro call hcall
      rw [List.mem_singleton.mp hcall]
      exact .inl ⟨_, htook 2 .other (by decide), rfl⟩)
    (by decide) (by decide)
    (by
      intro call hcall
      simp only [List.mem_cons, List.not_mem_nil, or_false] at hcall
      obtain rfl | rfl | rfl := hcall
      · exact .inr ⟨7, rfl, by decide⟩
      · exact .inl ⟨_, htook 8 (.task (str "web")) (by decide)⟩
      · exact .inl ⟨_, htook 9 (.job (str "api")) (by decide)⟩)
  have hnext := congrArg Prod.fst (hend 500000005 (by decide))
  exact hnext.trans (by decide +kernel)

end Watcher

end HopDns

import HopDns.Spec.WatcherCorrect

/-!
# What holds of a watcher at all times

The four fields of what is pending hang together in every state that calls of the
watcher lead to, whatever the order of the calls, their times, and the answers of the
allocator. The name of the cluster, once known, stays.

## Key results

- `Watcher.hears_of_error`: an event that fails changes nothing
- `Watcher.cluster_step`: a watcher that knows its cluster keeps it, and asks no more for it
- `Watcher.reachable_invariant`: the invariant of every reachable state
-/

namespace HopDns

open ForStd

namespace Watcher

/-! ## Steps with memory in plenty -/

private theorem step_next (w : Watcher) (now : UInt64) :
    Step w (.next now, .action (w.next now).1) (w.next now).2 := ⟨[], [], rfl⟩

theorem step_next_eq {w w' : Watcher} {now : UInt64} {a : Action} (h : w.next now = (a, w')) :
    Step w (.next now, .action a) w' := ⟨[], [], by simp only [perform, h]⟩

theorem step_event (w : Watcher) (now : UInt64) (ev : Event) :
    Step w (.event now ev, .result (.ok ())) (w.hears now ev) :=
  ⟨[], [], by simp only [perform, (event_commits w now ev).ample]⟩

/-- A name is learnt, with memory in plenty. -/
theorem step_discovered (w : Watcher) (now : UInt64) {name : Str}
    (h : (trim name).isEmpty = false) :
    Step w (.discovered now name, .result (.ok ())) (w.learns now name) := by
  have hrun := (discovered_commits w now name).ample
  rw [if_neg (by rw [h]; exact Bool.false_ne_true)] at hrun
  exact ⟨[], [], by simp only [perform, hrun]⟩

/-! ## What `next` does -/

/-- The watcher after a refresh was given back. -/
def taken (w : Watcher) : Watcher := { w with due := none, jobs := [], full := false }

/-- `next` gives back what is pending, once its moment has come, and leaves nothing pending; or
    it changes nothing. -/
theorem next_cases (w : Watcher) (now : UInt64) :
    (∃ d, w.due = some d ∧ d ≤ now ∧
      w.next now = (.refresh (if w.full then .full else .jobs w.jobs), w.taken)) ∨
    ((w.next now).2 = w ∧ ∀ what, (w.next now).1 ≠ .refresh what) := by
  -- only a known cluster with a moment that has come gives a refresh back
  unfold next
  split
  · -- the cluster is not known yet
    split <;> exact .inr ⟨rfl, fun _ => by simp⟩
  split
  · rename_i d hdue
    split
    · exact .inl ⟨d, hdue, ‹_›, rfl⟩
    · exact .inr ⟨rfl, fun _ => by simp⟩
  · exact .inr ⟨rfl, fun _ => by simp⟩

/-- What a refresh that was given back says of the watcher before it and after it. -/
theorem next_refresh {w : Watcher} {now : UInt64} {what : Refresh}
    (h : (w.next now).1 = .refresh what) :
    (∃ d, w.due = some d ∧ d ≤ now) ∧ what = (if w.full then .full else .jobs w.jobs) ∧
      (w.next now).2 = w.taken := by
  obtain ⟨d, hdue, hnow, heq⟩ | ⟨-, hnot⟩ := w.next_cases now
  · rw [heq] at h ⊢
    exact ⟨⟨d, hdue, hnow⟩, (Action.refresh.inj h).symm, rfl⟩
  · exact absurd h (hnot what)

/-! ## The settings -/

/-- No call changes the waits. -/
private theorem settings_after (w : Watcher) (call : Call) :
    (w.after call).interval = w.interval ∧ (w.after call).debounce = w.debounce := by
  -- one case for each call: no function of the watcher writes either field
  cases call with
  | next now =>
    rw [after]
    obtain ⟨d, -, -, heq⟩ | ⟨heq, -⟩ := w.next_cases now
    · rw [heq]
      exact ⟨rfl, rfl⟩
    · rw [heq]
      exact ⟨rfl, rfl⟩
  | discovered now name =>
    simp only [after, learns]
    split <;> exact ⟨rfl, rfl⟩
  | event now ev =>
    simp only [after, hears]
    cases classify ev with
    | seed => exact ⟨rfl, rfl⟩
    | full => exact ⟨rfl, rfl⟩
    | ignore => exact ⟨rfl, rfl⟩
    | job name =>
      simp only
      split
      · exact ⟨rfl, rfl⟩
      split
      · exact ⟨rfl, rfl⟩
      split <;> exact ⟨rfl, rfl⟩
  | discoverFailed now => exact ⟨rfl, rfl⟩
  | lost => exact ⟨rfl, rfl⟩
  | refreshedFull agents tasks here => exact ⟨rfl, rfl⟩
  | refreshedJob job status here => exact ⟨rfl, rfl⟩
  | refreshFailed now what => exact ⟨rfl, rfl⟩

/-- No call changes the settings. -/
theorem settings_step {w w' : Watcher} {call : Call × Outcome} (h : Step w call w') :
    w'.interval = w.interval ∧ w'.debounce = w.debounce := by
  obtain rfl | rfl := (step_cases h).1
  · exact w.settings_after call.1
  · exact ⟨rfl, rfl⟩

/-- The wait before a refresh is the same for every watcher. -/
theorem Reachable.debounce {w : Watcher} (h : w.Reachable) : w.debounce = DEBOUNCE := by
  have hinit : ∀ w, Fresh w → w.debounce = DEBOUNCE := by
    intro w hw
    obtain ⟨endpoint, interval, rfl⟩ := hw.exists_eq
    rfl
  have hstep : ∀ w call w', w.debounce = DEBOUNCE → Step w call w' → w'.debounce = DEBOUNCE :=
    fun _ _ _ hw hstep => (settings_step hstep).2.trans hw
  exact ForStd.Reachable.invariant hinit hstep h

/-! ## The names on the list -/

/-- A name that an event is about is not empty. -/
private theorem ne_nil_of_classify {ev : Event} {name : Str} (h : classify ev = .job name) :
    name ≠ [] := by
  intro hnil
  subst hnil
  unfold classify at h
  split at h <;> simp at h <;> split at h <;> simp_all

/-- The names on the list after an event are those before it, and perhaps the one it is about. -/
private theorem mem_jobs_hears {w : Watcher} {now : UInt64} {ev : Event} {name : Str}
    (h : name ∈ (w.hears now ev).jobs) :
    name ∈ w.jobs ∨ ∃ job, classify ev = .job job ∧ name = lowercase job := by
  -- a job event is the only one that adds a name
  unfold hears at h
  cases hc : classify ev with
  | seed => simp [hc] at h
  | full => simp [hc, pendFull] at h
  | ignore =>
    rw [hc] at h
    exact .inl h
  | job job =>
    simp only [hc] at h
    split at h
    · exact .inl h
    split at h
    · exact .inl h
    split at h
    · simp [pendFull] at h
    · -- the name is new on the list
      obtain h | h := List.mem_append.mp h
      · exact .inl h
      · exact .inr ⟨job, rfl, List.mem_singleton.mp h⟩

/-- Every name on the list is a name. -/
def Named (w : Watcher) : Prop := ∀ name ∈ w.jobs, name ≠ []

/-- The names that are pending stay in lower case and not empty. -/
theorem Named.after {w : Watcher} (h : w.Named) (call : Call) : (w.after call).Named := by
  -- one case for each call; an event is the one that brings a name
  intro name hname
  cases call with
  | next now =>
    rw [Watcher.after] at hname
    -- the list is taken whole, or it stays
    obtain ⟨d, -, -, heq⟩ | ⟨heq, -⟩ := w.next_cases now <;> rw [heq] at hname
    · exact absurd hname List.not_mem_nil
    · exact h name hname
  | discovered now learned =>
    rw [Watcher.after, (w.learns_frame now learned).2.2] at hname
    exact h name hname
  | event now ev =>
    obtain hname | ⟨job, hjob, rfl⟩ := mem_jobs_hears hname
    · exact h name hname
    · -- folding the case of a name keeps its length
      apply List.ne_nil_of_length_pos
      rw [length_lowercase]
      exact List.length_pos_iff.mpr (ne_nil_of_classify hjob)
  | discoverFailed now => exact h name hname
  | refreshedFull agents tasks here => exact h name hname
  | refreshedJob job status here => exact h name hname
  | lost => exact absurd hname List.not_mem_nil
  | refreshFailed now what => exact absurd hname List.not_mem_nil

/-- Every watcher that calls lead to has such names. -/
theorem Reachable.named {w : Watcher} (h : w.Reachable) : w.Named := by
  -- a new watcher has an empty list
  have hinit : ∀ w, Fresh w → w.Named := by
    intro w hw name hname
    obtain ⟨endpoint, interval, rfl⟩ := hw.exists_eq
    exact absurd hname List.not_mem_nil
  have hstep : ∀ w call w', w.Named → Step w call w' → w'.Named := by
    intro w call w' hw hstep
    obtain rfl | rfl := (step_cases hstep).1
    · exact hw.after call.1
    · exact hw
  exact ForStd.Reachable.invariant hinit hstep h

/-! ## An event that fails -/

/-- An event that fails changes nothing. -/
theorem hears_of_error {w w' : Watcher} {now : UInt64} {ev : Event} {mem mem' : Mem} {e : Error}
    (h : (event now ev).run (w, mem) = (.error e, w', mem')) : w' = w := by
  obtain ⟨hok, -⟩ | ⟨-, hsame⟩ := (event_commits w now ev).lean mem
  · rw [h] at hok
    cases hok
  · rw [h] at hsame
    exact hsame

/-! ## The cluster -/

/-- The call gives `discovered` a name. -/
def Discovers (call : Call × Outcome) : Prop := ∃ now name, call.1 = .discovered now name

/-- The call of `next` asked for the name. -/
def AsksDiscover (call : Call × Outcome) : Prop :=
  ∃ now, call = (.next now, .action .discover)

/-- A driver that calls `discovered` only after it was asked to. -/
def DiscoversWhenAsked (calls : List (Call × Outcome)) : Prop :=
  Preceded Discovers (fun call _ => AsksDiscover call) calls

/-- A watcher that knows its cluster keeps it, asks no more for it, and makes messages about
    no other. -/
theorem cluster_step {w w' : Watcher} {c : Str} {call : Call × Outcome} (hc : w.cluster = some c)
    (hcall : ¬Discovers call) (h : Step w call w') :
    w'.cluster = some c ∧ ¬AsksDiscover call ∧ ∀ u, call.2 = .update (.ok u) → u.cluster = c := by
  obtain ⟨call, o⟩ := call
  obtain ⟨hafter, hnext⟩ := step_cases h
  refine ⟨?_, ?_, ?_⟩
  · -- every call but that of `discovered` leaves the name alone
    have hframe : (w.after call).cluster = w.cluster := by
      cases call with
      | next now => exact (w.next_frame now).1
      | discovered now name => exact absurd ⟨now, name, rfl⟩ hcall
      | event now ev => exact w.cluster_hears now ev
      | discoverFailed now => rfl
      | lost => rfl
      | refreshedFull agents tasks here => rfl
      | refreshedJob job status here => rfl
      | refreshFailed now what => rfl
    obtain rfl | rfl := hafter
    · exact hframe.trans hc
    · exact hc
  · intro hasks
    obtain ⟨now, heq⟩ := hasks
    obtain ⟨rfl, ho⟩ := Prod.mk.inj heq
    have haction := (hnext now rfl).1
    rw [ho] at haction
    -- `Discover` is for a watcher without a name
    have hnone := (w.next_frame now).2.1 (Outcome.action.inj haction).symm
    rw [hc] at hnone
    cases hnone
  -- an update carries the cluster of the watcher that made it
  · intro u ho
    obtain ⟨mem, mem', hperform⟩ := h
    obtain rfl : o = .update (.ok u) := ho
    -- only the two builders give an update back
    have hsends : w.Sends u := by
      cases call with
      | refreshedFull agents tasks here =>
        simp only [perform, Prod.mk.injEq, Outcome.update.injEq] at hperform
        exact .inl ⟨agents, tasks, here, mem, _, Prod.ext hperform.1 rfl⟩
      | refreshedJob job status here =>
        simp only [perform, Prod.mk.injEq, Outcome.update.injEq] at hperform
        exact .inr ⟨job, status, here, mem, _, Prod.ext hperform.1 rfl⟩
      | next now => simp [perform] at hperform
      | discovered now name => simp [perform] at hperform
      | event now ev => simp [perform] at hperform
      | discoverFailed now => simp [perform] at hperform
      | lost => simp [perform] at hperform
      | refreshFailed now what => simp [perform] at hperform
    exact hsends.cluster hc

/-- The same of a whole run, with a driver that calls `discovered` only when asked. -/
private theorem cluster_run {w w' : Watcher} {c : Str} {calls : List (Call × Outcome)}
    (hc : w.cluster = some c) (hasked : DiscoversWhenAsked calls) (hrun : Run Step w calls w') :
    w'.cluster = some c ∧ ∀ call ∈ calls, ¬AsksDiscover call ∧
      ∀ u, call.2 = .update (.ok u) → u.cluster = c := by
  -- a watcher that knows its cluster asks for no discovery, so none is answered
  have hstep : ∀ w call w', w.cluster = some c → ¬Discovers call → Step w call w' →
      False ∨ (w'.cluster = some c ∧ ∀ l, Discovers l → ¬AsksDiscover call) := by
    intro w call w' hc hcall hstep
    obtain ⟨hc', hnot, -⟩ := cluster_step hc hcall hstep
    exact .inr ⟨hc', fun _ _ => hnot⟩
  obtain ⟨_, _, hfalse⟩ | ⟨hc', hnone⟩ :=
    hrun.keepsBarring (Q := fun _ => False) hstep hasked hc
  · exact hfalse.elim
  refine ⟨hc', fun call hcall => ?_⟩
  -- the cluster is known where the call is made
  obtain ⟨before, after, rfl⟩ := List.append_of_mem hcall
  obtain ⟨v, v', hbefore, hmade, -⟩ := hrun.split_cons
  have hkeep : ∀ w call w', w.cluster = some c → ¬Discovers call → Step w call w' →
      w'.cluster = some c := fun _ _ _ hc hcall hstep => (cluster_step hc hcall hstep).1
  have hv : v.cluster = some c :=
    hbefore.keepsWhile hkeep (fun call hmem => hnone call (List.mem_append_left _ hmem)) hc
  exact (cluster_step hv (hnone call hcall) hmade).2

/-! ## The invariant -/

/-- In every reachable state: a refresh has a moment exactly when something is pending;
    everything pending leaves no job on the list; the list has few names, each once, in lower
    case and not empty; and the cluster, once known, stays, and is asked for no more. So no
    refresh of jobs is empty, has a job twice or is too long, and an event that fails changes
    nothing that is pending. -/
theorem reachable_invariant {w : Watcher} (hw : w.Reachable) :
    (w.due.isSome ↔ w.full = true ∨ w.jobs ≠ []) ∧
    (w.full = true → w.jobs = []) ∧
    (w.jobs.Nodup ∧ w.jobs.length ≤ MAX_PENDING ∧
      ∀ name ∈ w.jobs, lowercase name = name ∧ name ≠ []) ∧
    (∀ c calls w', w.cluster = some c → DiscoversWhenAsked calls → Run Step w calls w' →
      w'.cluster = some c ∧ ∀ call ∈ calls, ¬AsksDiscover call ∧
        ∀ u, call.2 = .update (.ok u) → u.cluster = c) ∧
    (∀ now names, (w.next now).1 = .refresh (.jobs names) →
      names ≠ [] ∧ names.Nodup ∧ names.length ≤ MAX_PENDING) ∧
    (∀ now ev mem e w' mem', (event now ev).run (w, mem) = (.error e, w', mem') →
      w'.due = w.due ∧ w'.full = w.full ∧ w'.jobs = w.jobs) := by
  -- the parts of the invariant are read off one by one
  have hcons := hw.consistent
  have hlist : ∀ name ∈ w.jobs, lowercase name = name ∧ name ≠ [] :=
    fun name hname => ⟨hcons.folded name hname, hw.named name hname⟩
  refine ⟨hcons.due, hcons.cleared, ⟨hcons.distinct, hcons.few, hlist⟩, ?_, ?_, ?_⟩
  · intro c calls w' hc hasked hrun
    exact cluster_run hc hasked hrun
  · intro now names hnext
    obtain ⟨⟨d, hdue, -⟩, hwhat, -⟩ := next_refresh hnext
    -- something is pending, and it is not everything
    have hsome : w.full = true ∨ w.jobs ≠ [] := hcons.due.mp (by rw [hdue]; rfl)
    cases hfull : w.full with
    | true => simp [hfull] at hwhat
    | false =>
      obtain rfl : names = w.jobs := by simpa [hfull] using hwhat
      exact ⟨hsome.resolve_left (by simp [hfull]), hcons.distinct, hcons.few⟩
  -- an event that fails leaves the state as it was
  · intro now ev mem e w' mem' hev
    obtain rfl := hears_of_error hev
    exact ⟨rfl, rfl, rfl⟩

/-- The watcher once a job was named and its cluster became known. -/
def listed : Watcher := (peer.hears 3 ⟨some (.job (str "Web"))⟩).learns 5 (str " Prod ")

private theorem listed_reachable : listed.Reachable :=
  (peer_reachable.snoc (peer.step_event 3 ⟨some (.job (str "Web"))⟩)).snoc
    (step_discovered _ 5 (by decide +kernel))

/-- The job waits for its moment, and the refresh names it alone. -/
theorem reachable_invariant_listed :
    (listed.due.isSome ∧ [str "web"].Nodup) ∧
      (listed.next 500000002).2.cluster = some (str "prod") := by
  obtain ⟨hdue, -, -, hcluster, hnames, -⟩ := reachable_invariant listed_reachable
  refine ⟨⟨hdue.mpr (.inr (by decide +kernel)), ?_⟩, ?_⟩
  · exact (hnames 500000003 [str "web"] (by decide +kernel)).2.1
  · refine (hcluster (str "prod") _ _ (by decide +kernel) ?_
      (.single (listed.step_next 500000002))).1
    -- a call of `next` discovers nothing
    intro before l after heq hl
    obtain ⟨now, name, hcall⟩ := hl
    have hmem : l ∈ [(Call.next 500000002, Outcome.action (listed.next 500000002).1)] := by
      rw [heq]
      exact List.mem_append_right _ List.mem_cons_self
    rw [List.mem_singleton.mp hmem] at hcall
    cases hcall

end Watcher

end HopDns

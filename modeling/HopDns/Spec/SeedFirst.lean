import HopDns.Spec.Coalesce

/-!
# The seed comes before the increments

A driver of the watcher goes round a loop: it calls `next`, does what it is told, and
reports each refresh as done or as failed before it calls `next` again. A refresh of
jobs changes a part of what a full refresh once laid down. Where each stream begins with
a ping, it never comes before the full refresh of its stream, nor after one that failed.

## Key results

- `Session.Step`: the loop, by what the watcher sees of it
- `Session.Based.step`: the invariant that links what is pending to what was done
- `Session.seeded_before_jobs`: every refresh of jobs has a base
-/

namespace HopDns

open ForStd

/-- A watcher and the loop around it: the refresh under way, if there is one. -/
structure Session where
  watcher : Watcher
  busy : Option Refresh

namespace Session

/-- What happens in a loop around a watcher. -/
inductive Move where
  /-- a call of `next` and the action it gave back -/
  | poll (now : UInt64) (action : Action)
  /-- an answer of `/v1/status`, or its failure -/
  | learned (now : UInt64) (name : Option Str)
  | event (now : UInt64) (ev : Event)
  | lost
  | succeeded (what : Refresh)
  | failed (now : UInt64) (what : Refresh)

/-- The refresh an action asks for. -/
def asked : Action → Option Refresh
  | .refresh what => some what
  | _ => none

/-- The steps of the loop. While a refresh is under way, nothing else happens. -/
inductive Step : Session → Move → Session → Prop where
  | poll {w : Watcher} (now : UInt64) :
      Step ⟨w, none⟩ (.poll now (w.next now).1) ⟨(w.next now).2, asked (w.next now).1⟩
  | learned {w w' : Watcher} {mem mem' : Mem} {r : Except Error Unit} (now : UInt64) (name : Str)
      (h : (Watcher.discovered now name).run (w, mem) = (r, w', mem')) :
      Step ⟨w, none⟩ (.learned now (some name)) ⟨w', none⟩
  | notLearned {w : Watcher} (now : UInt64) :
      Step ⟨w, none⟩ (.learned now none) ⟨w.discoverFailed now, none⟩
  | event {w w' : Watcher} {mem mem' : Mem} {r : Except Error Unit} (now : UInt64) (ev : Event)
      (h : (Watcher.event now ev).run (w, mem) = (r, w', mem')) :
      Step ⟨w, none⟩ (.event now ev) ⟨w', none⟩
  | lost {w : Watcher} : Step ⟨w, none⟩ .lost ⟨w.lost, none⟩
  | succeeded {w : Watcher} (what : Refresh) :
      Step ⟨w, some what⟩ (.succeeded what) ⟨w, none⟩
  | failed {w : Watcher} (now : UInt64) (what : Refresh) :
      Step ⟨w, some what⟩ (.failed now what) ⟨w.refreshFailed now what, none⟩

/-- A poll asks for what `next` answers, and leaves the watcher as it does. -/
private theorem step_poll {w w' : Watcher} {now : UInt64} {action : Action}
    (h : w.next now = (action, w')) : Step ⟨w, none⟩ (.poll now action) ⟨w', asked action⟩ := by
  have hstep := Step.poll (w := w) now
  rwa [h] at hstep

/-! ## What was done, the latest first -/

/-- The stream has brought an event since it began. -/
def Opened : List Move → Prop
  | [] => False
  | .lost :: _ => False
  | .event _ _ :: _ => True
  | _ :: past => Opened past

/-- A full refresh was done since the stream began. -/
def Seeded : List Move → Prop
  | [] => False
  | .lost :: _ => False
  | .succeeded .full :: _ => True
  | _ :: past => Seeded past

/-- The last refresh was done. -/
def LastSucceeded : List Move → Prop
  | [] => False
  | .succeeded _ :: _ => True
  | .failed _ _ :: _ => False
  | _ :: past => LastSucceeded past

/-- Every stream begins with a ping. -/
def PingFirst (moves : List Move) : Prop :=
  ∀ past now ev rest, moves = past ++ .event now ev :: rest → ¬Opened past.reverse →
    ev.topic = some .ping

/-- What holds of all streams held of those before. -/
theorem PingFirst.of_append {moves moves' : List Move} (h : PingFirst (moves ++ moves')) :
    PingFirst moves := by
  intro past now ev rest heq
  refine h past now ev (rest ++ moves') ?_
  rw [heq, List.append_assoc, List.cons_append]

theorem PingFirst.nil : PingFirst [] := by
  intro past now ev rest heq
  simp at heq

/-- One move more, which is no event, or not the first of its stream, or a ping. -/
theorem PingFirst.concat {moves : List Move} {move : Move} (h : PingFirst moves)
    (hmove : ∀ now ev, move = .event now ev → ¬Opened moves.reverse → ev.topic = some .ping) :
    PingFirst (moves ++ [move]) := by
  intro past now ev rest heq hclosed
  obtain rfl | ⟨rest', last, rfl⟩ := List.eq_nil_or_concat rest
  · obtain ⟨rfl, hlast⟩ := List.append_inj' heq rfl
    exact hmove now ev (List.singleton_inj.mp hlast) hclosed
  · have heq' : moves ++ [move] = (past ++ .event now ev :: rest') ++ [last] := by
      rw [heq, List.concat_eq_append, List.append_assoc, List.cons_append]
    exact h past now ev rest' (List.append_inj' heq' rfl).1 hclosed

/-! ## The invariant -/

/-- What is pending rests on what was done: before its first event a stream has nothing
    pending; after it, everything is pending or there is a base for the jobs. -/
structure Based (past : List Move) (s : Session) : Prop where
  consistent : s.watcher.Consistent
  closed : ¬Opened past → s.watcher.full = false ∧ s.watcher.jobs = []
  base : s.busy = none → Opened past → s.watcher.full = true ∨ (Seeded past ∧ LastSucceeded past)
  busy : ∀ what, s.busy = some what → Opened past ∧ s.watcher.full = false ∧
    ∀ names, what = .jobs names → Seeded past ∧ LastSucceeded past

/-- What is pending was asked for by an event of the stream. -/
private theorem Based.opened {past : List Move} {w : Watcher} (h : Based past ⟨w, none⟩)
    {d : UInt64} (hdue : w.due = some d) : Opened past := by
  apply Classical.byContradiction
  intro hclosed
  obtain ⟨hfull, hjobs⟩ := h.closed hclosed
  have hpending : w.full = true ∨ w.jobs ≠ [] := h.consistent.due.mp (by rw [hdue]; rfl)
  obtain hpending | hpending := hpending
  · exact Bool.false_ne_true (hfull.symm.trans hpending)
  · exact hpending hjobs

/-- A refresh of jobs has a base. -/
theorem Based.jobs {past : List Move} {w : Watcher} (h : Based past ⟨w, none⟩) {now : UInt64}
    {names : List Str} (hnext : (w.next now).1 = .refresh (.jobs names)) :
    Opened past ∧ Seeded past ∧ LastSucceeded past := by
  obtain ⟨⟨d, hdue, -⟩, hwhat, -⟩ := Watcher.next_refresh hnext
  have hfull : w.full ≠ true := fun hfull => by simp [hfull] at hwhat
  have hopened := h.opened hdue
  exact ⟨hopened, (h.base rfl hopened).resolve_left hfull⟩

/-- A ping asks for everything, whatever the allocator answers. -/
private theorem event_ping {w w' : Watcher} {mem mem' : Mem} {r : Except Error Unit} {now : UInt64}
    {ev : Event} (hping : ev.topic = some .ping)
    (h : (Watcher.event now ev).run (w, mem) = (r, w', mem')) : w'.full = true := by
  -- a ping asks for everything, whatever is pending
  have hrun : (Watcher.event now ev).run (w, mem) =
      (.ok (), { w with full := true, jobs := [], due := some now }, mem) := by
    unfold Watcher.event
    rw [Method.run_bind_ok _ (Method.run_self (w, mem))]
    simp only [classify, hping]
    rfl
  rw [hrun] at h
  obtain ⟨-, rfl, -⟩ := h
  rfl

section

variable {past : List Move} {w : Watcher} (h : Based past ⟨w, none⟩)
include h

/-- A poll asks for a refresh of what is pending, or for nothing. -/
private theorem Based.poll (now : UInt64) : Based (.poll now (w.next now).1 :: past)
    ⟨(w.next now).2, asked (w.next now).1⟩ := by
  have hconsistent : (w.next now).2.Consistent := h.consistent.next now
  obtain ⟨d, hdue, hnow, heq⟩ | ⟨hsame, hnot⟩ := w.next_cases now
  · -- a refresh is under way, and nothing is pending
    have hopened := h.opened hdue
    refine ⟨hconsistent, fun hclosed => absurd hopened hclosed, fun hbusy => ?_, ?_⟩
    · rw [heq] at hbusy
      -- what was pending was known to have a base
      cases hbusy
    · intro what hwhat
      refine ⟨hopened, by rw [heq]; rfl, fun names hnames => ?_⟩
      rw [heq] at hwhat
      obtain rfl := Option.some.inj hwhat
      have hjobs : (w.next now).1 = .refresh (.jobs names) := by rw [heq, hnames]
      exact (h.jobs hjobs).2
  -- an action that is no refresh leaves nothing to report
  · have hidle : asked (w.next now).1 = none := by
      cases ha : (w.next now).1 with
      | refresh what => exact absurd ha (hnot what)
      | discover => rfl
      | wait limit => rfl
    rw [hsame, hidle]
    exact ⟨h.consistent, h.closed, h.base, fun _ hbusy => by cases hbusy⟩

/-- An answer about the cluster leaves alone what is pending. -/
theorem Based.learned {now : UInt64} {name : Str} {w' : Watcher} {mem mem' : Mem}
    {r : Except Error Unit}
    (hrun : (Watcher.discovered now name).run (w, mem) = (r, w', mem')) :
    Based (.learned now (some name) :: past) ⟨w', none⟩ := by
  -- learning the name leaves what is pending as it is
  have hsame : w'.full = w.full ∧ w'.jobs = w.jobs ∧ w'.Consistent := by
    obtain hw | hw := (Watcher.discovered_commits w now name).state mem <;> rw [hrun] at hw
    · obtain rfl : w' = w.learns now name := hw
      obtain ⟨-, hfull, hjobs⟩ := w.learns_frame now name
      exact ⟨hfull, hjobs, h.consistent.learns now name⟩
    · obtain rfl : w' = w := hw
      exact ⟨rfl, rfl, h.consistent⟩
  obtain ⟨hfull, hjobs, hconsistent⟩ := hsame
  -- before the stream is open nothing is pending, and afterwards there is a base
  refine ⟨hconsistent, fun hclosed => ?_, fun _ hopened => ?_, fun _ hbusy => by cases hbusy⟩
  · exact ⟨hfull.trans (h.closed hclosed).1, hjobs.trans (h.closed hclosed).2⟩
  · exact (h.base rfl hopened).imp_left hfull.trans

/-- An event adds to what is pending, and the first one of a stream asks for everything. -/
theorem Based.event {now : UInt64} {ev : Event} {w' : Watcher} {mem mem' : Mem}
    {r : Except Error Unit} (hping : ¬Opened past → ev.topic = some .ping)
    (hrun : (Watcher.event now ev).run (w, mem) = (r, w', mem')) :
    Based (.event now ev :: past) ⟨w', none⟩ := by
  have hw : w' = w.hears now ev ∨ w' = w := by
    have hstate := (Watcher.event_commits w now ev).state mem
    rwa [hrun] at hstate
  have hconsistent : w'.Consistent := by
    obtain rfl | rfl := hw
    · exact h.consistent.hears now ev
    · exact h.consistent
  refine ⟨hconsistent, fun hclosed => absurd trivial hclosed, fun _ _ => ?_,
    fun _ hbusy => by cases hbusy⟩
  by_cases hopened : Opened past
  · -- what is pending only grows
    obtain hfull | hbase := h.base rfl hopened
    · obtain rfl | rfl := hw
      · obtain hall | ⟨name, hname, -⟩ := Watcher.Lists.hears (k := .all) (.inl hfull) now ev
        · exact .inl hall
        · cases hname
      · exact .inl hfull
    · exact .inr hbase
  -- the first event of a stream is a ping
  · exact .inl (event_ping (hping hopened) hrun)

end

/-- What a step does keeps the invariant, where the stream begins with a ping. -/
theorem Based.step {past : List Move} {s s' : Session} {move : Move} (h : Based past s)
    (hping : ∀ now ev, move = .event now ev → ¬Opened past → ev.topic = some .ping)
    (hstep : Step s move s') : Based (move :: past) s' := by
  -- the invariant for each move of a session
  cases hstep with
  | poll now => exact h.poll now
  | learned now name hrun => exact h.learned hrun
  | notLearned now =>
    exact ⟨h.consistent.after (.discoverFailed now), h.closed, fun _ => h.base rfl,
      fun _ hbusy => by cases hbusy⟩
  | event now ev hrun => exact h.event (hping now ev rfl) hrun
  | lost =>
    -- nothing is pending until the next stream begins
    exact ⟨.of_idle rfl rfl rfl, fun _ => ⟨rfl, rfl⟩, fun _ hopened => hopened.elim,
      fun _ hbusy => by cases hbusy⟩
  | @succeeded w what =>
    obtain ⟨hopened, hfull, hbase⟩ := h.busy what rfl
    refine ⟨h.consistent, ?_, fun _ _ => .inr ?_, fun _ hbusy => by cases hbusy⟩
    · intro hclosed
      exact absurd hopened (by cases what <;> exact hclosed)
    · -- a full refresh is a base for the jobs, and one of jobs had a base already
      cases what with
      | full => exact ⟨trivial, trivial⟩
      | jobs names => exact ⟨(hbase names rfl).1, trivial⟩
  | @failed w now what =>
    obtain ⟨hopened, -, -⟩ := h.busy what rfl
    -- everything is pending, which needs no base
    exact ⟨.of_full rfl rfl rfl, fun hclosed => absurd hopened hclosed, fun _ _ => .inl rfl,
      fun _ hbusy => by cases hbusy⟩

/-! ## Runs -/

/-- Whatever the moves are, what is pending rests on what was done. -/
theorem Based.run {w : Watcher} (hw : w.Fresh) {moves : List Move} {s : Session}
    (hrun : Run Step ⟨w, none⟩ moves s) (hping : PingFirst moves) : Based moves.reverse s := by
  -- at the start nothing is pending and no stream is open
  have hnew : Based [] ⟨w, none⟩ := by
    obtain ⟨endpoint, interval, rfl⟩ := hw.exists_eq
    exact ⟨.of_idle rfl rfl rfl, fun _ => ⟨rfl, rfl⟩, fun _ hopened => hopened.elim,
      fun _ hbusy => by cases hbusy⟩
  -- the moves are taken in their order, and the past lists them from the last one on
  refine hrun.history (I := fun moves s => PingFirst moves → Based moves.reverse s)
    (fun _ => hnew) ?_ hping
  intro moves s move s' ih hstep hping
  rw [List.reverse_append, List.reverse_singleton, List.singleton_append]
  refine (ih hping.of_append).step (fun now ev hmove hclosed => ?_) hstep
  exact hping moves now ev [] (by rw [hmove]) hclosed

/-- The seed comes before the increments: in every run of a loop around a new watcher in which
    each stream begins with a ping, a refresh of jobs is given back only after a full refresh
    was done since the stream began, and after a refresh that was done. -/
theorem seeded_before_jobs {w : Watcher} (hw : w.Fresh) {past rest : List Move} {now : UInt64}
    {names : List Str} {s : Session}
    (hrun : Run Step ⟨w, none⟩ (past ++ .poll now (.refresh (.jobs names)) :: rest) s)
    (hping : PingFirst (past ++ .poll now (.refresh (.jobs names)) :: rest)) :
    Seeded past.reverse ∧ LastSucceeded past.reverse := by
  obtain ⟨t, t', hpast, hstep, -⟩ := hrun.split_cons
  have hbased := Based.run hw hpast hping.of_append
  generalize haction : Action.refresh (.jobs names) = action at hstep
  cases hstep with
  | poll now => exact (hbased.jobs haction.symm).2

/-- The moves of a loop: a ping comes in, the cluster is read, and a job is named. -/
theorem seeded_before_jobs_web :
    Seeded [.event 4 ⟨some (.job (str "web"))⟩, .succeeded .full, .poll 3 (.refresh .full),
      .event 2 ⟨some .ping⟩, .learned 1 (some (str "prod"))] ∧
    LastSucceeded [.event 4 ⟨some (.job (str "web"))⟩, .succeeded .full, .poll 3 (.refresh .full),
      .event 2 ⟨some .ping⟩, .learned 1 (some (str "prod"))] := by
  -- the moves of the example, one by one
  have hfresh : Watcher.peer.Fresh :=
    ⟨Watcher.peer.endpoint, RECONNECT, [], [], Watcher.peer, rfl, rfl⟩
  have hlearned : Step ⟨Watcher.peer, none⟩ (.learned 1 (some (str "prod")))
      ⟨Watcher.known, none⟩ :=
    .learned 1 (str "prod")
      (Watcher.discovered_commits Watcher.peer 1 (str "prod")).ample
  have hping : Step ⟨Watcher.known, none⟩ (.event 2 ⟨some .ping⟩)
      ⟨Watcher.known.hears 2 ⟨some .ping⟩, none⟩ :=
    .event 2 _ (Watcher.event_commits Watcher.known 2 ⟨some .ping⟩).ample
  have hnamed : Step ⟨Watcher.known, none⟩ (.event 4 ⟨some (.job (str "web"))⟩)
      ⟨Watcher.known.hears 4 ⟨some (.job (str "web"))⟩, none⟩ :=
    .event 4 _ (Watcher.event_commits Watcher.known 4 ⟨some (.job (str "web"))⟩).ample
  have hrefresh : Step ⟨Watcher.known.hears 2 ⟨some .ping⟩, none⟩ (.poll 3 (.refresh .full))
      ⟨Watcher.known, some .full⟩ := step_poll (by decide +kernel)
  have hjobs : Step ⟨Watcher.known.hears 4 ⟨some (.job (str "web"))⟩, none⟩
      (.poll 500000004 (.refresh (.jobs [str "web"])))
      ⟨Watcher.known, some (.jobs [str "web"])⟩ := step_poll (by decide +kernel)
  have hquiet : ∀ moves move, PingFirst moves → (∀ now ev, move ≠ .event now ev) →
      PingFirst (moves ++ [move]) :=
    fun moves move h hmove => h.concat fun now ev heq => absurd heq (hmove now ev)
  -- each event of the run comes after a ping, or is one
  have hfirst : PingFirst ([.learned 1 (some (str "prod")), .event 2 ⟨some .ping⟩,
      .poll 3 (.refresh .full), .succeeded .full, .event 4 ⟨some (.job (str "web"))⟩] ++
        [.poll 500000004 (.refresh (.jobs [str "web"]))]) := by
    refine hquiet _ _ ?_ (by simp)
    refine @PingFirst.concat [_, _, _, _] _ ?_ (fun _ _ _ hclosed => absurd trivial hclosed)
    refine hquiet [_, _, _] _ ?_ (by simp)
    refine hquiet [_, _] _ ?_ (by simp)
    refine @PingFirst.concat [_] _ ?_ (fun _ _ hev _ => by cases hev; rfl)
    exact hquiet [] _ .nil (by simp)
  have hrun := Run.cons hlearned (.cons hping (.cons hrefresh
    (.cons (.succeeded .full) (.cons hnamed (.single hjobs)))))
  exact @seeded_before_jobs _ hfresh [_, _, _, _, _] [] _ _ _ hrun hfirst

end Session

end HopDns

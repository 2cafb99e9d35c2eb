import Mathlib.Algebra.Order.BigOperators.Group.Finset
import HopDns.Spec.Federation

/-!
# Coming to rest

When the clusters change no more, every stream is up and stays, nothing is told but what is still
to be announced, and every request is answered, the daemon comes to rest: the work that is left is
bounded, every step of the peers but a wait takes some of it away, and a peer that is not at rest
can always go on once the clock has come so far. As for the answers at rest, memory is in plenty
and the names of the jobs are in lower case.

## Key results

- `Peer.Step.work_le`: what a step takes of the work that is left
- `Peer.Sound.goesOn`: no peer gets stuck before it is at rest
- `Federation.settles`: all peers come to rest, whatever the order of their steps
-/

namespace HopDns

open ForStd

/-! ## The work that is left -/

namespace Watcher

/-- The steps that what is pending takes: the turn that starts the refresh, its requests, and the
    delivery of the messages it makes. -/
def backlog (w : Watcher) : Nat :=
  if w.full then 4 else if w.jobs = [] then 0 else 1 + 2 * w.jobs.length

/-- An event asks for no more than a full refresh, or for one job more. -/
private theorem backlog_hears_le (w : Watcher) (now : UInt64) (ev : Event) :
    (w.hears now ev).backlog ≤ w.backlog + 4 := by
  unfold hears
  cases classify ev with
  | seed => exact Nat.le_add_left 4 _
  | full => exact Nat.le_add_left 4 _
  | ignore => exact Nat.le_add_right _ 4
  -- a job is covered by a full refresh, listed already, one too many, or one more
  | job name =>
    simp only
    split
    · exact Nat.le_add_right _ 4
    rename_i hfull
    split
    · exact Nat.le_add_right _ 4
    split
    · exact Nat.le_add_left 4 _
    -- the first job is the dearest, for it takes a turn as well
    · by_cases hjobs : w.jobs = []
      · simp [backlog, pendJobs, hfull, hjobs]
      · simp [backlog, pendJobs, hfull, hjobs]
        omega

/-- The name of the cluster changes nothing that is pending. -/
private theorem backlog_learns (w : Watcher) (now : UInt64) (name : Str) :
    (w.learns now name).backlog = w.backlog := by
  unfold learns
  split <;> rfl

/-- What is due takes work. -/
private theorem Consistent.backlog_eq {w : Watcher} (hw : w.Consistent) {d : UInt64}
    (hdue : w.due = some d) : w.backlog = if w.full then 4 else 1 + 2 * w.jobs.length := by
  have hpending := hw.due.mp (by rw [hdue]; rfl)
  unfold backlog
  split
  · rfl
  · rename_i hfull
    rw [if_neg (hpending.resolve_left hfull)]

/-- The moment from which on the watcher has something to do, if it has anything to do. -/
def wake (w : Watcher) : UInt64 := if w.cluster.isNone then w.retryAt else w.due.getD 0

end Watcher

/-- The steps of the refresh that is under way, with the delivery of its messages. -/
def Phase.left : Phase → Nat
  | .agents => 3
  | .tasks _ => 2
  | .jobs _ rest => 2 * rest.length
  | _ => 0

namespace Driver

/-- The steps to the name of the cluster. -/
def unknown (d : Driver) : Nat :=
  if d.watcher.cluster.isSome then 0 else if d.phase = .status then 1 else 2

/-- The work that is left to a driver. -/
def work (d : Driver) : Nat := d.watcher.backlog + d.unknown + d.phase.left

/-- The jobs to ask for are the work that is left of a refresh. -/
private theorem work_askJobs {d : Driver} (hc : d.watcher.cluster.isSome) (all rest : List Str) :
    (d.askJobs all rest).work = d.watcher.backlog + 2 * rest.length := by
  cases rest <;> simp [askJobs, work, unknown, hc, Phase.left]

/-- A turn takes work away, or the driver waits; and it does not wait once the clock has come so
    far, unless there is nothing to do. -/
private theorem turn_work (d : Driver) (hw : d.watcher.Consistent) (now : UInt64)
    (hphase : d.phase = .loop) : (d.turn now).work < d.work ∨
      d.turn now = { d with phase := .waiting } ∧ (d.turn now).work = d.work ∧
        (d.watcher.wake ≤ now → d.watcher.due = none) := by
  have hleft : d.phase.left = 0 := by rw [hphase]; rfl
  -- without a cluster a turn asks for it, and with one it looks at what is due
  unfold turn Watcher.next
  cases hcluster : d.watcher.cluster with
  | none =>
    simp only [Option.isNone_none, if_true]
    -- the question for the cluster costs a turn less
    by_cases hnow : d.watcher.retryAt ≤ now
    · refine .inl ?_
      simp [hnow, work, unknown, hcluster, hphase, Phase.left]
    · refine .inr ?_
      simp [hnow, work, unknown, hcluster, hphase, Phase.left, Watcher.wake]
  | some c =>
    simp only [Option.isNone_some, if_false, Bool.false_eq_true]
    cases hdue : d.watcher.due with
    -- nothing is due, so the driver waits
    | none =>
      refine .inr ⟨rfl, ?_, fun _ => rfl⟩
      simp [work, unknown, hcluster, hphase, Phase.left]
    | some t =>
      by_cases hnow : t ≤ now
      · -- the refresh starts, and nothing is pending any more
        refine .inl ?_
        have hbacklog := hw.backlog_eq hdue
        have hwork : d.work = d.watcher.backlog := by simp [work, unknown, hcluster, hleft]
        rw [hwork, hbacklog]
        simp only [hnow, if_true]
        cases d.watcher.full with
        | true => simp [work, unknown, Phase.left, Watcher.backlog]
        | false =>
          simp only [Bool.false_eq_true, if_false]
          rw [work_askJobs rfl]
          simp [Watcher.backlog]
      -- the moment is still ahead
      · refine .inr ?_
        simp [hnow, work, unknown, hcluster, hphase, Phase.left, Watcher.wake, hdue]

/-- The name is the last step of the discovery. -/
private theorem gotStatus_work {d : Driver} (hmem : d.mem = []) (hphase : d.phase = .status)
    (hcluster : d.watcher.cluster = none) (now : UInt64) {given : Str} (hgiven : trim given ≠ []) :
    (d.gotStatus now (some given)).work + 1 = d.work := by
  have hrun := (Watcher.discovered_commits d.watcher now given).ample
  have hblank : (trim given).isEmpty = false := List.isEmpty_eq_false_iff.mpr hgiven
  have hknown : (d.watcher.learns now given).cluster.isSome := by
    simp [Watcher.learns, hblank]
  simp only [gotStatus, hmem, hrun]
  simp [work, unknown, Watcher.backlog_learns, hknown, hphase, hcluster, Phase.left]

/-- What is heard may ask for a refresh. -/
private theorem hear_work_le {d : Driver} (hmem : d.mem = []) (hphase : d.phase = .waiting)
    (now : UInt64) (first : Heard) : (d.hear now first).work ≤ d.work + 4 := by
  have hwork : d.work = d.watcher.backlog + if d.watcher.cluster.isSome then 0 else 2 := by
    simp [work, unknown, hphase, Phase.left]
  rw [hwork]
  -- a lost stream drops what is pending, with the cluster left to be asked for
  cases first with
  | lost =>
    have hlapsed : d.watcher.lost.backlog = 0 := rfl
    have hsame : d.watcher.lost.cluster = d.watcher.cluster := rfl
    simp only [hear, work, unknown, hlapsed, hsame, Phase.left, reduceCtorEq, if_false]
    omega
  -- an event adds at most four
  | event ev =>
    have hrun := (Watcher.event_commits d.watcher now ev).ample
    have hle := d.watcher.backlog_hears_le now ev
    simp only [hear, hmem, hrun]
    simp only [work, unknown, Watcher.cluster_hears, Phase.left, reduceCtorEq, if_false]
    omega

end Driver

/-- The answer names the cluster. -/
def Gives (answer name : Str) : Prop := trim answer ≠ [] ∧ lowercase (trim answer) = name

namespace Peer

/-- Nothing changes at the cluster, nothing fails, and nothing is told but what is still to be
    announced. -/
def Act.Settles (name : Str) : Act → Prop
  | .announce _ _ => True
  | .turn _ => True
  | .status _ answer => ∃ given, answer = some given ∧ Gives given name
  | .fetchAgents => True
  | .fetchTasks => True
  | .fetchJob _ _ => True
  | .hear _ => True
  | .timeout => True
  | .apply => True
  | _ => False

/-- A step that is no turn of the loop and no end of a wait. -/
def Act.works : Act → Bool
  | .turn _ => false
  | .timeout => false
  | _ => true

/-- The work that is left at a peer. An event that is still to be heard costs a full refresh at
    most, and one that is still to be told is to be heard as well. -/
def work (p : Peer) : Nat :=
  6 * p.owed.length + 5 * p.heard.length + p.driver.work + p.updates.length

section

variable {here : Option Local} {p p' : Peer} {act : Act} {name : Str}

/-- What is told is one event more to hear. -/
private theorem work_tell_le (p : Peer) (ev : Event) : (p.tell ev).work ≤ p.work + 5 := by
  unfold tell
  split
  · simp only [work, List.length_append, List.length_singleton]
    omega
  · exact Nat.le_add_right _ 5

/-- A step takes from the work that is left, unless it only waits. -/
theorem Step.work_le (hstep : Step here p act p') (h : p.Sound here) (hs : act.Settles name) :
    (if act.works then 1 else 0) + p'.work ≤ p.work := by
  cases hstep with
  | changeJob | changeAgents | say | breakOff | connect | fetchFailed => exact hs.elim
  -- the notice leaves the debts, and costs less at the stream than it did there
  | announce n ev hn hev =>
    have htold := work_tell_le { p with owed := p.owed.erase n } ev
    have hlen := List.length_erase_of_mem hn
    have hpos := List.length_pos_of_mem hn
    simp only [work, Act.works, if_true] at htold ⊢
    omega
  | turn now hphase =>
    have hle : (p.driver.turn now).work ≤ p.driver.work := by
      obtain hlt | ⟨-, heq, -⟩ := p.driver.turn_work h.watcher now hphase
      · exact Nat.le_of_lt hlt
      · exact Nat.le_of_eq heq
    simp only [work, Act.works, Bool.false_eq_true, if_false]
    omega
  -- the answer names the cluster, so the question is not asked again
  | status now answer hphase =>
    obtain ⟨given, rfl, hgiven, -⟩ := hs
    have hfits := h.fits
    unfold Fits at hfits
    rw [hphase] at hfits
    have hwork := Driver.gotStatus_work h.mem hphase hfits now hgiven
    simp only [work, Act.works, if_true]
    omega
  | fetchAgents hphase =>
    have hwork : p.driver.work = (p.driver.gotAgents p.hop.agents).work + 1 := by
      simp [Driver.work, Driver.unknown, Driver.gotAgents, hphase, Phase.left]
    simp only [work, Act.works, if_true]
    omega
  -- the list answers, a message goes out, and two turns are done
  | fetchTasks agents hphase =>
    obtain ⟨c, hc⟩ := h.fits.cluster (by rw [hphase]; simp [Phase.refresh?])
    have hrun := (Watcher.refreshedFull_yields hc agents p.hop.tasks here).ample
    rw [← h.mem] at hrun
    rw [p.driver.gotTasks_eq hrun]
    have hwork : p.driver.work = (⟨p.driver.watcher, .loop, p.driver.mem⟩ : Driver).work + 2 := by
      simp [Driver.work, Driver.unknown, hphase, hc, Phase.left]
    simp only [work, drive, Act.works, if_true, Except.toOption, Option.toList_some,
      List.length_append, List.length_singleton]
    omega
  -- one job less to ask for, against one message more
  | fetchJob now status all job rest hphase hstatus =>
    obtain ⟨c, hc⟩ := h.fits.cluster (by rw [hphase]; simp [Phase.refresh?])
    have hsome : p.driver.watcher.cluster.isSome := by rw [hc]; rfl
    have hrun := (Watcher.refreshedJob_yields hc job status here).ample
    rw [← h.mem] at hrun
    rw [p.driver.gotJob_ok now all rest hrun]
    have hnext := Driver.work_askJobs (d := { p.driver with mem := p.driver.mem }) hsome all rest
    have hwork : p.driver.work = p.driver.watcher.backlog + 2 * (rest.length + 1) := by
      simp [Driver.work, Driver.unknown, hphase, hsome, Phase.left]
    simp only [work, drive, Act.works, if_true, List.length_append, Option.toList_some,
      List.length_singleton, hnext, hwork]
    omega
  | hear now first rest hphase hheard =>
    have hle := Driver.hear_work_le h.mem hphase now first
    simp only [work, Act.works, if_true, hheard, List.length_cons]
    omega
  -- the timeout only moves the driver on
  | timeout hphase =>
    simp [work, Act.works, Driver.work, Driver.unknown, Driver.timeout, hphase, Phase.left]
  | apply u rest hupdates =>
    simp only [work, Act.works, hupdates, List.length_cons, if_true]
    omega

end

/-! ## No peer gets stuck -/

/-- A refresh of jobs that is under way still has a job to ask for. -/
def Asking (d : Driver) : Prop := ∀ all rest, d.phase = .jobs all rest → rest ≠ []

/-- Jobs that are to be asked for are asked for, or there are none. -/
private theorem asking_askJobs (d : Driver) (all rest : List Str) : Asking (d.askJobs all rest) :=
    by
  cases rest with
  | nil => exact fun _ _ h => by cases h
  | cons job rest =>
    intro all' rest' h
    cases h
    exact List.cons_ne_nil job rest

/-- A peer whose stream is there. -/
structure Steady (here : Option Local) (p : Peer) : Prop where
  sound : p.Sound here
  asking : Asking p.driver
  connected : p.connected = true

section

variable {here : Option Local} {p p' : Peer} {act : Act} {name : Str}

/-- No step leaves a refresh of jobs without a job. -/
theorem Step.asking (hstep : Step here p act p') (h : Asking p.driver) : Asking p'.driver := by
  -- only a refresh of jobs has jobs to ask for, and it never starts without one
  cases hstep with
  | changeJob | changeAgents | breakOff | connect | apply => exact h
  | announce n ev hn hev => rwa [(tell_frame _ ev).2.1]
  | say ev => rwa [(p.tell_frame ev).2.1]
  -- the turn takes over the names that the watcher hands out, of which there is one
  | turn now hphase =>
    show Asking (p.driver.turn now)
    unfold Driver.turn
    rcases p.driver.watcher.next now with ⟨_ | (_ | names) | _, w⟩
    · exact fun _ _ h => by cases h
    · exact fun _ _ h => by cases h
    · exact asking_askJobs _ names names
    · exact fun _ _ h => by cases h
  | status now answer hphase =>
    cases answer <;> exact fun _ _ h => by cases h
  | fetchAgents hphase => exact fun _ _ h => by cases h
  | fetchTasks agents hphase =>
    rcases hrun : (p.driver.watcher.refreshedFull agents p.hop.tasks here).run p.driver.mem with
      ⟨result, mem⟩
    rw [p.driver.gotTasks_eq hrun]
    exact fun _ _ h => by cases h
  -- the rest of the list goes on, or the refresh is over
  | fetchJob now status all job rest hphase hstatus =>
    rcases hrun : (p.driver.watcher.refreshedJob job status here).run p.driver.mem with
      ⟨e | u, mem⟩
    · rw [p.driver.gotJob_error now all rest hrun]
      exact fun _ _ h => by cases h
    · rw [p.driver.gotJob_ok now all rest hrun]
      exact asking_askJobs _ all rest
  | fetchFailed now what hphase => exact fun _ _ h => by cases h
  | hear now first rest hphase hheard =>
    cases first <;> exact fun _ _ h => by cases h
  | timeout hphase => exact fun _ _ h => by cases h

/-- A stream that is told something is still there. -/
private theorem connected_tell (p : Peer) (ev : Event) : (p.tell ev).connected = p.connected := by
  unfold tell
  split <;> rfl

/-- A peer that is left alone keeps its stream and its cluster. -/
theorem Steady.step (h : p.Steady here) (hstep : Step here p act p') (hs : act.Settles name) :
    p'.Steady here ∧ p'.hop = p.hop := by
  have hasking := hstep.asking h.asking
  have hsound := h.sound.step hstep
  cases hstep with
  | changeJob | changeAgents | say | breakOff | connect | fetchFailed => exact hs.elim
  | announce n ev hn hev =>
    exact ⟨⟨hsound, hasking, (connected_tell _ ev).trans h.connected⟩, (tell_frame _ ev).1⟩
  | turn | status | fetchAgents | fetchTasks | fetchJob | hear | timeout | apply =>
    exact ⟨⟨hsound, hasking, h.connected⟩, rfl⟩

/-- The readings of the clock in the step. -/
def Act.At (now : UInt64) : Act → Prop
  | .turn now' => now' = now
  | .status now' _ => now' = now
  | .fetchJob now' _ => now' = now
  | .hear now' => now' = now
  | _ => True

/-- A peer that goes on by itself at a moment, with steps of its own. -/
def GoesOn (here : Option Local) (name : Str) (p : Peer) (now : UInt64) : Prop :=
  ∃ acts p', Run (Step here) p acts p' ∧ acts.length ≤ 2 ∧
    (∀ act ∈ acts, act.Settles name ∧ act.At now) ∧ (p'.AtRest ∨ p'.work < p.work)

/-- One step that does not wait is enough. -/
theorem Step.goesOn {now : UInt64} (hstep : Step here p act p') (h : p.Sound here)
    (hworks : act.works = true) (hs : act.Settles name) (hat : act.At now) :
    p.GoesOn here name now := by
  have hle := hstep.work_le h hs
  rw [hworks, if_pos rfl] at hle
  refine ⟨[act], p', .single hstep, by simp, ?_, .inr (by omega)⟩
  intro act' hact'
  obtain rfl := List.mem_singleton.mp hact'
  exact ⟨hs, hat⟩

/-- Hop can tell the status of every job. -/
private theorem exists_statusOf (h : Hop) (job : Str) : ∃ status, h.StatusOf job status := by
  refine ⟨⟨h.agents, (h.named job).map fun e => ⟨e.1, some [e.2]⟩⟩, rfl, ?_⟩
  simp [entries, List.flatMap_map]

/-- Every change can be announced. -/
private theorem exists_announced (n : Notice) : ∃ ev, n.Announced ev := by
  cases n with
  | job name => exact ⟨⟨some (.job name)⟩, .inl rfl⟩
  | agents => exact ⟨⟨some .status⟩, .inl rfl⟩

/-- Where nothing is left but the turns of the loop, one at the right moment takes work away or
    leads to rest. -/
private theorem Steady.turn_goesOn (h : p.Steady here) (howed : p.owed = [])
    (hupdates : p.updates = [])
    (hphase : p.driver.phase = .loop) {now : UInt64} (hnow : p.driver.watcher.wake ≤ now) :
    p.GoesOn here name now := by
  have hturn : Step here p (.turn now) { p with driver := p.driver.turn now } := .turn now hphase
  have hone : ∀ act ∈ [Act.turn now], act.Settles name ∧ act.At now := by
    intro act hact
    obtain rfl := List.mem_singleton.mp hact
    exact ⟨trivial, rfl⟩
  -- the turn does something, or it finds nothing and waits
  obtain hlt | ⟨hturned, hsame, hidle⟩ := p.driver.turn_work h.sound.watcher now hphase
  · refine ⟨[.turn now], _, .single hturn, by simp, hone, .inr ?_⟩
    simp only [work]
    omega
  · cases hheard : p.heard with
    -- nothing was told either, so the peer is at rest
    | nil =>
      refine ⟨[.turn now], _, .single hturn, by simp, hone, .inl ?_⟩
      exact ⟨h.connected, howed, hheard, by rw [hturned], by rw [hturned]; exact hidle hnow,
        hupdates⟩
    | cons first rest =>
      -- the driver waits at the stream, and hears what was told
      have hhear : Step here { p with driver := p.driver.turn now } (.hear now)
          { p with heard := rest, driver := (p.driver.turn now).hear now first } :=
        .hear now first rest (by rw [hturned]) hheard
      have hle : 1 + _ ≤ _ := hhear.work_le (h.sound.step hturn)
        (show Act.Settles name (.hear now) from trivial)
      refine ⟨[.turn now, .hear now], _, .cons hturn (.single hhear), by simp, ?_, .inr ?_⟩
      · intro act hact
        obtain rfl | hact := List.mem_cons.mp hact
        · exact ⟨trivial, rfl⟩
        · obtain rfl := List.mem_singleton.mp hact
          exact ⟨trivial, rfl⟩
      · simp only [work] at hle ⊢
        omega

/-- A peer that is not at rest goes on by itself, at any moment from one on. -/
theorem Steady.goesOn (h : p.Steady here) {given : Str} (hgives : Gives given name) :
    p.AtRest ∨ ∃ wake, ∀ now, wake ≤ now → p.GoesOn here name now := by
  -- what is on its way can be taken at any time
  cases howed : p.owed with
  | cons n rest =>
    obtain ⟨ev, hev⟩ := exists_announced n
    have hn : n ∈ p.owed := by rw [howed]; exact List.mem_cons_self
    exact .inr ⟨0, fun now _ => (Step.announce n ev hn hev).goesOn h.sound rfl trivial trivial⟩
  | nil =>
  cases hupdates : p.updates with
  | cons u rest =>
    exact .inr ⟨0, fun now _ => (Step.apply u rest hupdates).goesOn h.sound rfl trivial trivial⟩
  | nil =>
  -- what the driver is at decides what it does next
  cases hphase : p.driver.phase with
  | loop =>
    exact .inr ⟨p.driver.watcher.wake, fun now hnow => h.turn_goesOn howed hupdates hphase hnow⟩
  | status =>
    exact .inr ⟨0, fun now _ => (Step.status now (some given) hphase).goesOn h.sound rfl
      ⟨given, rfl, hgives⟩ rfl⟩
  | agents =>
    exact .inr ⟨0, fun now _ => (Step.fetchAgents hphase).goesOn h.sound rfl trivial trivial⟩
  | tasks agents =>
    exact .inr ⟨0, fun now _ => (Step.fetchTasks agents hphase).goesOn h.sound rfl trivial trivial⟩
  | jobs all rest =>
    obtain ⟨job, rest, rfl⟩ := List.exists_cons_of_ne_nil (h.asking all rest hphase)
    obtain ⟨status, hstatus⟩ := exists_statusOf p.hop job
    exact .inr ⟨0, fun now _ => (Step.fetchJob now status all job rest hphase hstatus).goesOn
      h.sound rfl trivial rfl⟩
  -- the driver waits, for what was told or for the moment
  | waiting =>
    cases hheard : p.heard with
    | cons first rest =>
      exact .inr ⟨0, fun now _ => (Step.hear now first rest hphase hheard).goesOn h.sound rfl
        trivial rfl⟩
    | nil =>
      cases hdue : p.driver.watcher.due with
      | none => exact .inl ⟨h.connected, howed, hheard, hphase, hdue, hupdates⟩
      | some d =>
        -- the wait ends, and the turn behind it starts what is due
        refine .inr ⟨p.driver.watcher.wake, fun now hnow => ?_⟩
        have hstep : Step here p .timeout { p with driver := p.driver.timeout } := .timeout hphase
        have hle : 0 + _ ≤ _ := hstep.work_le h.sound (show Act.Settles name .timeout from trivial)
        obtain hlt | ⟨-, -, hidle⟩ := p.driver.timeout.turn_work h.sound.watcher now rfl
        · refine ⟨[.timeout, .turn now], _, .cons hstep (.single (.turn now rfl)), by simp, ?_,
            .inr ?_⟩
          · intro act hact
            obtain rfl | hact := List.mem_cons.mp hact
            · exact ⟨trivial, trivial⟩
            · obtain rfl := List.mem_singleton.mp hact
              exact ⟨trivial, rfl⟩
          · simp only [work] at hle ⊢
            omega
        · cases (hidle hnow).symm.trans hdue

end

end Peer

/-! ## All peers together -/

namespace Federation

variable {ι : Type}

/-- The work that is left at all peers. -/
def work [Fintype ι] (f : Federation ι) : Nat := ∑ i, (f.peers i).work

section

variable [DecidableEq ι] {here : Option Local} {name : ι → Str} {f f' : Federation ι}
  {act : ι × Peer.Act}

/-- A run of one peer by itself is one among the others, which it leaves where they are. -/
private theorem run_of_peer {i : ι} {p p' : Peer} {acts : List Peer.Act}
    (h : Run (Peer.Step here) p acts p') {f : Federation ι} (hp : f.seen i = p) :
    ∃ f', Run (Step here) f (acts.map fun act => (i, act)) f' ∧ f'.seen i = p' ∧
      ∀ j, j ≠ i → f'.peers j = f.peers j := by
  induction h generalizing f with
  | nil p => exact ⟨f, .nil f, hp, fun _ _ => rfl⟩
  | @cons p p₁ p' act acts hstep _ ih =>
    obtain ⟨f', hrun, hseen, hothers⟩ := @ih ⟨Function.update f.peers i p₁, p₁.cache⟩ (by
      simp only [seen, Function.update_self])
    refine ⟨f', .cons (.peer i act (hp ▸ hstep)) hrun, hseen, fun j hj => ?_⟩
    rw [hothers j hj]
    exact Function.update_of_ne hj _ _

/-- A peer that is left alone learns the name of its cluster. -/
private theorem calls_of_settles {act : Peer.Act} {name : Str} (h : act.Settles name) :
    act.Calls name := by
  cases act with
  | status now answer =>
    obtain ⟨given, rfl, -, hname⟩ := h
    exact .inl hname
  | _ => trivial

/-- All streams are there. -/
structure Steady (name : ι → Str) (here : Option Local) (f : Federation ι) : Prop where
  sound : f.Sound name here
  asking : ∀ i, Peer.Asking (f.peers i).driver
  connected : ∀ i, (f.peers i).connected = true

omit [DecidableEq ι] in
theorem Steady.peer (h : f.Steady name here) (i : ι) : (f.seen i).Steady here :=
  ⟨h.sound.peers i, h.asking i, h.connected i⟩

/-- No step of a peer leaves another without a job to ask for. -/
theorem Step.asking (hstep : Step here f act f') (h : ∀ i, Peer.Asking (f.peers i).driver) :
    ∀ i, Peer.Asking (f'.peers i).driver := by
  cases hstep with
  | @peer p' i act hstep =>
    intro j
    by_cases hj : j = i
    · subst hj
      simpa only [Function.update_self] using hstep.asking (h j)
    · simpa only [Function.update_of_ne hj] using h j

/-- Peers that are left alone keep their streams and their clusters. -/
theorem Steady.step (hname : Function.Injective name) (h : f.Steady name here)
    (hstep : Step here f act f') (hs : act.2.Settles (name act.1)) :
    f'.Steady name here ∧ ∀ i, (f'.peers i).hop = (f.peers i).hop := by
  have hsound := h.sound.step hname (calls_of_settles hs) hstep
  have hasking := hstep.asking h.asking
  -- only the peer that moved has changed
  cases hstep with
  | @peer p' i act hstep =>
    obtain ⟨hsteady, hhop⟩ := (h.peer i).step hstep hs
    refine ⟨⟨hsound, hasking, fun j => ?_⟩, fun j => ?_⟩
    · by_cases hj : j = i
      · subst hj
        simpa only [Function.update_self] using hsteady.connected
      · simpa only [Function.update_of_ne hj] using h.connected j
    · by_cases hj : j = i
      · subst hj
        show (Function.update f.peers j p' j).hop = _
        rw [Function.update_self]
        exact hhop
      · simp only [Function.update_of_ne hj]

/-- A step of a peer takes from the work of all, unless it only waits. -/
theorem Step.work_le [Fintype ι] (hstep : Step here f act f') (h : f.Steady name here)
    (hs : act.2.Settles (name act.1)) : (if act.2.works then 1 else 0) + f'.work ≤ f.work := by
  -- one summand goes down and the others stay
  cases hstep with
  | @peer p' i act hstep =>
    -- the step of the one peer
    have hle := hstep.work_le (h.sound.peers i) hs
    have hothers : ∑ j ∈ Finset.univ.erase i, (Function.update f.peers i p' j).work =
        ∑ j ∈ Finset.univ.erase i, (f.peers j).work :=
      Finset.sum_congr rfl fun j hj => by rw [Function.update_of_ne (Finset.ne_of_mem_erase hj)]
    have hafter := Finset.add_sum_erase Finset.univ
      (fun j => (Function.update f.peers i p' j).work) (Finset.mem_univ i)
    have hbefore := Finset.add_sum_erase Finset.univ (fun j => (f.peers j).work) (Finset.mem_univ i)
    have hseen : (f.seen i).work = (f.peers i).work := rfl
    -- the two sums, each with this peer's part taken out
    rw [hothers, Function.update_self] at hafter
    show (if act.works then 1 else 0) + ∑ j, (Function.update f.peers i p' j).work ≤
      ∑ j, (f.peers j).work
    omega

/-- A peer that goes on by itself at a moment, with steps of its own. -/
def GoesOn [Fintype ι] (here : Option Local) (name : ι → Str) (f : Federation ι) (i : ι)
    (now : UInt64) : Prop :=
  ∃ (acts : List Peer.Act) (f' : Federation ι),
    Run (Step here) f (acts.map fun act => (i, act)) f' ∧ acts.length ≤ 2 ∧
      (∀ act ∈ acts, act.Settles (name i) ∧ act.At now) ∧
        ((f'.peers i).AtRest ∨ f'.work < f.work)

omit [DecidableEq ι] in
/-- The cache is not the peer's own. -/
private theorem atRest_of_seen {i : ι} (h : (f.seen i).AtRest) : (f.peers i).AtRest :=
  ⟨h.connected, h.owed, h.heard, h.phase, h.due, h.updates⟩

/-- A peer that goes on by itself goes on among the others. -/
private theorem goesOn_of_peer [Fintype ι] {i : ι} {now : UInt64}
    (h : (f.seen i).GoesOn here (name i) now) : f.GoesOn here name i now := by
  obtain ⟨acts, p', hrun, hlen, hacts, hend⟩ := h
  obtain ⟨f', hrun', hseen, hothers⟩ := run_of_peer hrun rfl
  refine ⟨acts, f', hrun', hlen, hacts, ?_⟩
  rw [← hseen] at hend
  obtain hrest | hlt := hend
  · exact .inl (atRest_of_seen hrest)
  · -- the work of the others is what it was
    refine .inr (Finset.sum_lt_sum (fun j _ => ?_) ⟨i, Finset.mem_univ i, hlt⟩)
    by_cases hj : j = i
    · subst hj
      exact Nat.le_of_lt hlt
    · rw [hothers j hj]

/-- All come to rest. From any state of a run in which every stream is up, once the clusters change
    no more, no stream breaks, nothing is told but what is still to be announced and every request
    is answered, a status with a name that is not blank, there is only so much left to do: whatever
    the order of the steps, those that do not wait are no more than the work that was left. And
    under these conditions no peer gets stuck on the way: one that is not at rest can go on by
    itself, at any moment from one on. -/
theorem settles [Fintype ι] (hname : Function.Injective name) {f₀ : Federation ι}
    {acts later : List (ι × Peer.Act)} (h₀ : f₀.Initial) (hrun : Run (Step here) f₀ acts f)
    (hcalls : ∀ act ∈ acts, act.2.Calls (name act.1))
    (hconnected : ∀ i, (f.peers i).connected = true)
    (hgives : ∀ i, ∃ given, Gives given (name i)) (hlater : Run (Step here) f later f')
    (hsettles : ∀ act ∈ later, act.2.Settles (name act.1)) :
    later.countP (fun act => act.2.works) + f'.work ≤ f.work ∧
      (∀ i, (f'.peers i).hop = (f.peers i).hop) ∧
        ∀ i, (f'.peers i).AtRest ∨ ∃ wake, ∀ now, wake ≤ now → f'.GoesOn here name i now := by
  -- no driver starts with a job refresh under way
  have hasking : ∀ i, Peer.Asking (f.peers i).driver := by
    refine hrun.keeps (I := fun f => ∀ i, Peer.Asking (f.peers i).driver)
      (fun _ _ _ h hstep => hstep.asking h) fun i => ?_
    obtain ⟨-, -, -, -, -, hphase, -⟩ := h₀.1 i
    intro all rest h
    rw [hphase] at h
    cases h
  -- every call of the run is legitimate, so the peers stay sound
  have hsound : f.Sound name here :=
    hrun.keepsWhile (A := fun act => act.2.Calls (name act.1))
      (fun _ _ _ h hA hs => h.step hname hA hs) hcalls (h₀.sound name here)
  have hsteady : f.Steady name here := ⟨hsound, hasking, hconnected⟩
  -- what settles keeps the peers steady and their Hop as it is
  have hkeeps : f'.Steady name here ∧ ∀ i, (f'.peers i).hop = (f.peers i).hop := by
    refine hlater.keepsWhile (I := fun f' => f'.Steady name here ∧
      ∀ i, (f'.peers i).hop = (f.peers i).hop) (A := fun act => act.2.Settles (name act.1))
      (fun g _ g' hg hA hs => ?_) hsettles ⟨hsteady, fun _ => rfl⟩
    obtain ⟨hsteady', hhop⟩ := hg.1.step hname hs hA
    exact ⟨hsteady', fun i => (hhop i).trans (hg.2 i)⟩
  refine ⟨?_, hkeeps.2, fun i => ?_⟩
  -- every step that works makes the work less
  · exact hlater.countP_le_while (I := fun f' => f'.Steady name here)
      (A := fun act => act.2.Settles (name act.1)) (W := fun act => act.2.works)
      (fun _ _ _ h hA hs => (h.step hname hs hA).1) (fun _ _ _ h hA hs => hs.work_le h hA)
      hsettles hsteady
  -- from a steady state each peer is at rest or goes on
  · obtain ⟨given, hgiven⟩ := hgives i
    obtain hrest | ⟨wake, hwake⟩ := (hkeeps.1.peer i).goesOn hgiven
    · exact .inl (atRest_of_seen hrest)
    · exact .inr ⟨wake, fun now hnow => goesOn_of_peer (hwake now hnow)⟩

end

/-- The one peer, from the ping on. -/
theorem settles_alone :
    (filling.map fun act => ((), act)).countP (fun act => act.2.works) +
        (alone Peer.filled).work ≤ (alone Peer.seeded).work ∧
      (∀ i, ((alone Peer.filled).peers i).hop = ((alone Peer.seeded).peers i).hop) ∧
        ∀ i, ((alone Peer.filled).peers i).AtRest ∨ ∃ wake, ∀ now, wake ≤ now →
          (alone Peer.filled).GoesOn none (fun _ => str "prod") i now := by
  have hname : trim (str "prod") ≠ [] := by decide +kernel
  exact settles (Function.injective_of_subsingleton _) initial_alone (run_alone run_seeding)
    (by simp [seeding, Peer.Act.Calls, prod_name]) (fun _ => rfl)
    (fun _ => ⟨str "prod", hname, prod_name⟩) (run_alone run_filling)
    (by simp [filling, Peer.Act.Settles])

end Federation

end HopDns

import Mathlib.Data.List.Chain
import HopDns.Spec.CacheMap
import HopDns.Spec.DaemonCorrect

/-!
# The log of HopOS

On HopOS the numbers of jobs and clusters are logged when they change. The log can be
read as it stands: whenever `serve` waits, its last line is what the cache holds, and no
line says what the one before it said.

## Key results

- `Daemon.Marked.step`: a step keeps the log and the cache together
- `Daemon.markers_current`: the last line of the log
-/

namespace HopDns

open ForStd

namespace Daemon

variable {ι α : Type}

/-- The line that is logged. -/
def Act.marker : Act ι α → Option (Nat × Nat)
  | .empty marker => marker
  | _ => none

/-- A message is laid in the cache. -/
def Act.IsTake : Act ι α → Prop
  | .take _ => True
  | _ => False

/-- The numbers that stand for a log in which nothing is yet, and those of the log. -/
def marks (acts : List (Act ι α)) : List (Nat × Nat) :=
  (USIZE_MAX, USIZE_MAX) :: acts.filterMap Act.marker

/-- A step that logs nothing leaves the lines as they are. -/
private theorem marks_concat_none {acts : List (Act ι α)} {act : Act ι α} (h : act.marker = none) :
    marks (acts ++ [act]) = marks acts := by
  rw [marks, List.filterMap_append, List.filterMap_cons_none h, List.filterMap_nil,
    List.append_nil, marks]

/-- A step that logs adds its line. -/
private theorem marks_concat_some {acts : List (Act ι α)} {act : Act ι α} {m : Nat × Nat}
    (h : act.marker = some m) : marks (acts ++ [act]) = marks acts ++ [m] := by
  rw [marks, List.filterMap_append, List.filterMap_cons_some h, List.filterMap_nil, marks,
    List.cons_append]

/-- The log goes with the cache. -/
structure Marked (acts : List (Act ι α)) (d : Daemon ι) : Prop where
  shown : (marks acts).getLast? = some d.owner.shown
  changes : (marks acts).IsChain (· ≠ ·)
  current : d.stand = .receiving → (∃ act ∈ acts, act.IsTake) →
    d.owner.shown = (d.owner.cache.jobs, d.owner.cache.clustersLen)
  /-- `serve` turns to the mailbox for a message, and not before there is one -/
  untaken : (∀ act ∈ acts, ¬act.IsTake) → d.stand = .receiving ∧ acts.filterMap Act.marker = []

/-- A daemon that starts has logged nothing. -/
private theorem Initial.marked {d : Daemon ι} (h : d.Initial .hopos) : Marked
    ([] : List (Act ι α)) d where
  shown := by rw [h.shown]; rfl
  changes := .singleton _
  current := fun _ hex => by
    obtain ⟨act, hact, -⟩ := hex
    cases hact
  untaken := fun _ => ⟨h.stand, rfl⟩

/-- A step that logs nothing keeps the log, if it leaves the cache alone where the log says what
    it holds. -/
private theorem Marked.silent {acts : List (Act ι α)} {act : Act ι α} {d d' : Daemon ι}
    (h : Marked acts d) (hmarker : act.marker = none) (hshown : d'.owner.shown = d.owner.shown)
    (hcurrent : d'.stand = .receiving →
      d.stand = .receiving ∧ ¬act.IsTake ∧ d'.owner.cache = d.owner.cache)
    (huntaken : ¬act.IsTake → d.stand = .receiving → d'.stand = .receiving) :
    Marked (acts ++ [act]) d' where
  shown := by rw [marks_concat_none hmarker, hshown]; exact h.shown
  changes := by rw [marks_concat_none hmarker]; exact h.changes
  -- while messages were taken the numbers stay those of the last line
  current := fun hstand hex => by
    obtain ⟨hbefore, hnot, hcache⟩ := hcurrent hstand
    obtain ⟨act', hact', htake⟩ := hex
    obtain hact' | hact' := List.mem_append.mp hact'
    · rw [hshown, hcache]
      exact h.current hbefore ⟨act', hact', htake⟩
    · exact absurd (List.mem_singleton.mp hact' ▸ htake) hnot
  -- without a message taken there was no line
  untaken := fun hnone => by
    obtain ⟨hbefore, hempty⟩ := h.untaken fun act' hact' =>
      hnone act' (List.mem_append_left _ hact')
    refine ⟨huntaken (hnone act (List.mem_append_right _ List.mem_cons_self)) hbefore, ?_⟩
    rw [List.filterMap_append, hempty, List.filterMap_cons_none hmarker]
    rfl

/-- The end of a batch brings the log up to date. -/
theorem Marked.empty {acts : List (Act ι α)} {d : Daemon ι} (h : Marked acts d)
    (hstand : d.stand = .draining) :
    Marked (acts ++ [.empty d.owner.mark.1])
      { d with owner := d.owner.mark.2, stand := .receiving } := by
  -- the channel is being emptied, so a message was taken
  have htaken : ∃ act ∈ acts, act.IsTake := by
    apply Classical.byContradiction
    intro hnone
    have hreceiving := (h.untaken fun act hact htake => hnone ⟨act, hact, htake⟩).1
    rw [hstand] at hreceiving
    cases hreceiving
  have hstill : ∃ act ∈ acts ++ [.empty d.owner.mark.1], Act.IsTake act := by
    obtain ⟨act, hact, htake⟩ := htaken
    exact ⟨act, List.mem_append_left _ hact, htake⟩
  -- the case without a message is not this one
  have huntaken : ¬∀ act ∈ acts ++ [.empty d.owner.mark.1], ¬Act.IsTake act := by
    intro hnone
    obtain ⟨act, hact, htake⟩ := hstill
    exact hnone act hact htake
  unfold Owner.mark at huntaken ⊢
  simp only at huntaken ⊢
  split at huntaken
  · -- other numbers than those of the last line
    rename_i hne
    rw [if_pos hne]
    refine ⟨?_, ?_, fun _ _ => rfl, fun hnone => absurd hnone huntaken⟩
    · rw [marks_concat_some rfl, List.getLast?_concat]
    · rw [marks_concat_some rfl]
      refine h.changes.append (.singleton _) fun m hm m' hm' => ?_
      rw [h.shown] at hm
      obtain rfl := Option.some.inj hm
      obtain rfl := Option.some.inj hm'
      exact fun heq => hne heq.symm
  · -- the last line holds still
    rename_i heq
    rw [if_neg heq]
    refine ⟨?_, ?_, fun _ _ => ?_, fun hnone => absurd hnone huntaken⟩
    · rw [marks_concat_none rfl]
      exact h.shown
    · rw [marks_concat_none rfl]
      exact h.changes
    · exact (Classical.not_not.mp heq).symm

variable [DecidableEq ι]

/-- Every step keeps the last line current. -/
theorem Marked.step {acts : List (Act ι α)} {d d' : Daemon ι} {act : Act ι α} (h : Marked acts d)
    (hstep : Step .hopos d act d') : Marked (acts ++ [act]) d' := by
  -- only the end of a batch can log, and only a message taken leads there
  cases hstep with
  | peer i act hheld hstep =>
    exact h.silent rfl rfl (fun hs => ⟨hs, id, rfl⟩) fun _ hs => hs
  | post i u hheld hroom =>
    exact h.silent rfl rfl (fun hs => ⟨hs, id, rfl⟩) fun _ hs => hs
  | take u rest hbus hstand =>
    exact h.silent rfl rfl (fun hs => by cases hs) fun hnot => absurd trivial hnot
  | empty hbus hstand => exact h.empty hstand
  | question asker datagram hstand =>
    exact h.silent rfl rfl (fun _ => ⟨hstand, id, rfl⟩) fun _ _ => rfl
  | quiet hstand =>
    exact h.silent rfl rfl (fun _ => ⟨hstand, id, rfl⟩) fun _ _ => rfl
  | failed hp hstand => cases hp

/-- The log is current. In every run of HopOS, no line of the log says what the line before it
    said, nothing is logged before a message is in the cache, and from then on, whenever `serve`
    waits, the last line holds the number of different jobs and the number of clusters that the
    cache has. -/
theorem markers_current {d₀ d : Daemon ι} {acts : List (Act ι α)} (h₀ : d₀.Initial .hopos)
    (hrun : Run (Step .hopos) d₀ acts d) :
    (acts.filterMap Act.marker).IsChain (· ≠ ·) ∧
      ((∀ act ∈ acts, ¬act.IsTake) → acts.filterMap Act.marker = []) ∧
      (d.stand = .receiving → (∃ act ∈ acts, act.IsTake) →
        ∀ names : List Str, names.Nodup → (∀ job, job ∈ names ↔ d.owner.cache.hasJob job = true) →
          (marks acts).getLast? = some (names.length, d.owner.cache.clusterNames.length)) := by
  -- the invariant of the whole run
  have h : Marked acts d :=
    hrun.history (I := Marked) h₀.marked fun _ _ _ _ h hstep => h.step hstep
  refine ⟨h.changes.tail, fun hnone => (h.untaken hnone).2,
    fun hstand htaken names hnodup hnames => ?_⟩
  -- the numbers of the line are those of the cache
  rw [h.shown, h.current hstand htaken, d.owner.cache.jobs_eq hnodup hnames]
  simp only [Cache.clustersLen, Cache.clusterNames, Table.len, Table.iter, List.length_map]

/-- The one message that is taken is logged. -/
theorem markers_current_stocks :
    (marks (stocks .hopos)).getLast? = some ([str "web"].length,
      (stocked .hopos).owner.cache.clusterNames.length) := by
  have htaken : ∃ act ∈ stocks .hopos, act.IsTake :=
    ⟨.take webUpdate, by simp [stocks], trivial⟩
  have hjobs : (stocked .hopos).owner.cache.clusters.values.flatMap Cache.jobNames =
      [str "web"] := by
    decide +kernel
  refine (markers_current (alone_initial .hopos) (stocks_run .hopos)).2.2 rfl htaken [str "web"]
    (by decide) fun job => ?_
  rw [← Cache.mem_flatMap_jobNames, hjobs]

end Daemon

end HopDns

import HopDns.Spec.DriverCorrect
import HopDns.Spec.Peer

/-!
# Consistency at rest

Whatever the order of the steps of a peer, once nothing is on its way the cache holds
what its cluster holds.

The invariant goes job by job: what the cache holds of a job, after the messages on
their way, is what the cluster holds, or the job is `Covered`. A covered job is one that
something still on its way makes the driver read again: a missing stream, whose next
connection starts with a ping; a change still to be announced; an event not yet heard; a
refresh that is pending, or one whose answers are still to come.

## Key results

- `Peer.Reachable.sound`: the invariant holds in every reachable state
- `Peer.atRest_consistent`: at rest, the cache and the cluster agree
-/

namespace HopDns

open ForStd

/-- What is asked for includes the job. -/
def Wanted.Includes : Wanted → Str → Prop
  | .all, _ => True
  | .job name, name' => name = name'

/-- The event makes the driver read the job again. -/
def Event.Asks (ev : Event) (job : Str) : Prop :=
  ∃ k, (classify ev).wanted = some k ∧ k.Includes job

/-- The change is one to the job. -/
def Notice.Includes : Notice → Str → Prop
  | .job name, name' => lowercase name = name'
  | .agents, _ => True

/-- An event to come asks for the job, and the stream does not break before the driver has
    acted on it. -/
def Brings : List Heard → Str → Prop
  | [], _ => False
  | .event ev :: rest, job => Brings rest job ∨ (.lost ∉ rest ∧ ev.Asks job)
  | .lost :: rest, job => Brings rest job

/-! ## Events to come -/

/-- What is brought is still brought when another event is told behind it. -/
theorem Brings.append {heard : List Heard} {job : Str} (h : Brings heard job) (ev : Event) :
    Brings (heard ++ [.event ev]) job := by
  induction heard with
  | nil => exact h.elim
  | cons first rest ih =>
    cases first with
    | event e =>
      obtain h | ⟨hlost, hasks⟩ := h
      · exact .inl (ih h)
      · exact .inr ⟨by simp [hlost], hasks⟩
    | lost => exact ih h

/-- An event that asks for a job brings it, whatever was told before. -/
private theorem Event.Asks.brings {ev : Event} {job : Str} (h : ev.Asks job) (heard : List Heard) :
    Brings (heard ++ [.event ev]) job := by
  induction heard with
  | nil => exact .inr ⟨List.not_mem_nil, h⟩
  | cons first rest ih =>
    cases first with
    | event e => exact .inl ih
    | lost => exact ih

private theorem ping_asks (job : Str) : (⟨some .ping⟩ : Event).Asks job := ⟨.all, rfl, trivial⟩

/-- An event that announces a change makes the driver read what changed. -/
theorem Notice.Announced.asks {n : Notice} {ev : Event} (h : n.Announced ev) {job : Str}
    (hjob : n.Includes job) (hne : job ≠ []) : ev.Asks job := by
  cases n with
  | job name =>
    have hname : name ≠ [] := by
      intro hnil
      exact hne (hjob.symm.trans (by rw [hnil, lowercase_nil]))
    exact ⟨.job (lowercase name), by rw [classify_eq_job h hname]; rfl, hjob⟩
  | agents =>
    have hkind : classify ev = .full := by
      obtain h | ⟨id, h⟩ := h <;> simp only [classify, h]
    exact ⟨.all, by rw [hkind]; rfl, trivial⟩

/-- After an event that asks for a job, the job is pending. -/
theorem Event.Asks.pending {ev : Event} {job : Str} (h : ev.Asks job) {w : Watcher}
    (hw : w.Consistent) (now : UInt64) : (w.hears now ev).Pending (.job job) := by
  obtain ⟨k, hk, hincludes⟩ := h
  have hpending := Watcher.pending_hears hw now hk
  cases k with
  | job name =>
    obtain rfl : name = job := hincludes
    exact hpending
  | all =>
    -- everything is pending, and so is the job
    obtain ⟨hdue, hfull | ⟨name, hname, -⟩⟩ := hpending
    · exact ⟨hdue, .inl hfull⟩
    · cases hname

/-- Where names are in lower case, the tasks of a job are those with its exact name. -/
theorem Hop.Folded.filter_eq {h : Hop} (hfolded : h.Folded) (job : Str) :
    h.named job = (entries h.tasks).filter fun e => jobOf e = job :=
  List.filter_congr fun e he => by rw [jobOf, hfolded e he]

namespace Peer

/-! ## The invariant -/

/-- The answers to come of a refresh under way tell of the job. -/
def Fetching (p : Peer) (job : Str) : Prop :=
  match p.driver.phase with
  | .agents => True
  | .tasks agents => agents = p.hop.agents
  | .jobs _ rest => job ∈ rest
  | _ => False

/-- Something still on its way makes the driver read the job again, the answers of a refresh
    under way aside. -/
def Announced (p : Peer) (job : Str) : Prop :=
  p.connected = false ∨ Brings p.heard job ∨ (∃ n ∈ p.owed, n.Includes job) ∨
    (.lost ∉ p.heard ∧ p.driver.watcher.Pending (.job job))

/-- Something still on its way makes the driver read the job again. -/
def Covered (p : Peer) (job : Str) : Prop :=
  p.Announced job ∨ (.lost ∉ p.heard ∧ p.Fetching job)

/-- The cache once the messages on their way are laid in it. -/
def settled (p : Peer) : Cache := p.updates.foldl Update.applied p.cache

/-- What the cluster holds of a job. -/
def current (p : Peer) (here : Option Local) (job : Str) : List Ipv4Addr :=
  addresses p.hop.agents p.hop.tasks here job

/-- What the cache will hold of the job is what the cluster holds. -/
def Agrees (p : Peer) (here : Option Local) (job : Str) : Prop :=
  ∃ c, p.driver.watcher.cluster = some c ∧
    (p.settled.getCluster c job).getD [] = p.current here job

/-- The phase of the loop fits the watcher. -/
def Fits (d : Driver) : Prop :=
  match d.phase with
  | .status => d.watcher.cluster = none
  | .agents => d.watcher.cluster.isSome
  | .tasks _ => d.watcher.cluster.isSome
  | .jobs _ rest => d.watcher.cluster.isSome ∧ ∀ job ∈ rest, lowercase job = job
  | _ => True

/-- While a refresh is under way the cluster is known. -/
theorem Fits.cluster {d : Driver} (h : Fits d) (hphase : d.phase.refresh? ≠ none) :
    ∃ c, d.watcher.cluster = some c := by
  unfold Fits at h
  cases hd : d.phase with
  | agents => exact Option.isSome_iff_exists.mp (by rwa [hd] at h)
  | tasks agents => exact Option.isSome_iff_exists.mp (by rwa [hd] at h)
  | jobs all rest =>
    rw [hd] at h
    exact Option.isSome_iff_exists.mp h.1
  | loop => exact absurd (by rw [hd]; rfl) hphase
  | waiting => exact absurd (by rw [hd]; rfl) hphase
  | status => exact absurd (by rw [hd]; rfl) hphase

/-- Where no refresh is under way there are no answers of one to come. -/
private theorem not_fetching {p : Peer} (hphase : p.driver.phase.refresh? = none) (job : Str) :
    ¬p.Fetching job := by
  intro h
  unfold Fetching at h
  cases hp : p.driver.phase with
  | agents => rw [hp] at hphase; cases hphase
  | tasks agents => rw [hp] at hphase; cases hphase
  | jobs all rest => rw [hp] at hphase; cases hphase
  | loop => rwa [hp] at h
  | waiting => rwa [hp] at h
  | status => rwa [hp] at h

/-- The invariant of a peer. -/
structure Sound (here : Option Local) (p : Peer) : Prop where
  folded : p.hop.Folded
  watcher : p.driver.watcher.Consistent
  mem : p.driver.mem = []
  fits : Fits p.driver
  /-- a stream that broke and is there again has brought a ping -/
  pinged : p.connected = true → .lost ∈ p.heard → ∀ job, Brings p.heard job
  /-- agents that have changed since they were fetched are announced again -/
  stale : ∀ agents, p.driver.phase = .tasks agents → agents ≠ p.hop.agents →
    ∀ job, job ≠ [] → p.Announced job
  /-- what does not agree is covered -/
  covered : ∀ job, job ≠ [] → p.Agrees here job ∨ p.Covered job

/-- A peer that starts is sound: its watcher has everything still to ask for. -/
theorem Initial.sound {p : Peer} (h : p.Initial) (here : Option Local) : p.Sound here := by
  obtain ⟨hfolded, hconnected, hheard, hupdates, hfresh, hphase, hmem⟩ := h
  refine ⟨hfolded, hfresh.consistent, hmem, ?_, ?_, ?_, fun job _ => .inr (.inl (.inl hconnected))⟩
  · unfold Fits
    rw [hphase]
    trivial
  · intro h
    rw [hconnected] at h
    cases h
  · intro agents h
    rw [hphase] at h
    cases h

/-! ## Steps of the cluster and the stream -/

section

variable {here : Option Local} {p p' : Peer}

/-- A step of the cluster or the stream keeps the invariant when it announces again what it
    changes. -/
private theorem Sound.outside (h : p.Sound here) (hdriver : p'.driver = p.driver)
    (hupdates : p'.updates = p.updates) (hcache : p'.cache = p.cache) (hfolded : p'.hop.Folded)
    (hpinged : p'.connected = true → .lost ∈ p'.heard → ∀ job, Brings p'.heard job)
    (hkeep : ∀ job, job ≠ [] → p.Announced job → p'.Announced job)
    (hsame : ∀ job, job ≠ [] → p'.Announced job ∨ p'.hop.agents = p.hop.agents ∧
      p'.current here job = p.current here job ∧ (.lost ∉ p.heard → .lost ∉ p'.heard)) :
    p'.Sound here := by
  have hsettled : p'.settled = p.settled := by rw [settled, settled, hupdates, hcache]
  -- the driver, the messages and the cache have not moved
  refine ⟨hfolded, hdriver ▸ h.watcher, hdriver ▸ h.mem, hdriver ▸ h.fits, hpinged, ?_, ?_⟩
  -- what the agents say may be stale only as it was
  · intro agents hphase hne job hjob
    obtain hann | ⟨hagents, -, -⟩ := hsame job hjob
    · exact hann
    · rw [hdriver] at hphase
      rw [hagents] at hne
      exact hkeep job hjob (h.stale agents hphase hne job hjob)
  -- a job is as the leader says, or it was announced, or a fetch is on its way
  · intro job hjob
    obtain hann | ⟨hagents, hcurrent, hlost⟩ := hsame job hjob
    · exact .inr (.inl hann)
    · obtain ⟨c, hc, hrow⟩ | hann | ⟨hnot, hfetch⟩ := h.covered job hjob
      · exact .inl ⟨c, by rw [hdriver]; exact hc, by rw [hsettled, hcurrent]; exact hrow⟩
      · exact .inr (.inl (hkeep job hjob hann))
      · refine .inr (.inr ⟨hlost hnot, ?_⟩)
        unfold Fetching at hfetch ⊢
        rw [hdriver, hagents]
        exact hfetch

/-- What is announced stays announced when an event is told. -/
theorem Announced.tell {job : Str} (h : p.Announced job) (ev : Event) :
    (p.tell ev).Announced job := by
  unfold Peer.tell
  by_cases hconnected : p.connected = true
  · rw [if_pos hconnected]
    obtain h | h | h | ⟨hlost, h⟩ := h
    · exact .inl h
    · exact .inr (.inl (h.append ev))
    · exact .inr (.inr (.inl h))
    · exact .inr (.inr (.inr ⟨by simp [hlost], h⟩))
  · rw [if_neg hconnected]
    exact h

/-- What is told changes nothing but what is to be heard. -/
theorem tell_frame (p : Peer) (ev : Event) :
    (p.tell ev).hop = p.hop ∧ (p.tell ev).driver = p.driver ∧ (p.tell ev).updates = p.updates ∧
      (p.tell ev).cache = p.cache ∧ (.lost ∈ (p.tell ev).heard ↔ .lost ∈ p.heard) := by
  unfold tell
  split <;> simp

/-- An event that is told disturbs nothing. -/
theorem Sound.tell (h : p.Sound here) (ev : Event) : (p.tell ev).Sound here := by
  obtain ⟨hhop, hdriver, hupdates, hcache, hlost⟩ := p.tell_frame ev
  refine h.outside hdriver hupdates hcache (by rw [hhop]; exact h.folded) ?_
    (fun job _ hann => hann.tell ev)
    (fun job _ => .inr ⟨by rw [hhop], by rw [current, current, hhop], fun h => by rwa [hlost]⟩)
  -- a stream that is there has brought the ping before anything was told on it
  intro hconnected hmem job
  rw [hlost] at hmem
  unfold Peer.tell at hconnected ⊢
  split at hconnected
  · rename_i htrue
    rw [if_pos htrue]
    exact (h.pinged htrue hmem job).append ev
  · rename_i hfalse
    exact absurd hconnected hfalse

/-- An announcement that is made moves from the owed ones to the stream. -/
theorem Announced.announce {job : Str} (h : p.Announced job) (hjob : job ≠ []) {n : Notice}
    {ev : Event} (hev : n.Announced ev) :
    ({ p with owed := p.owed.erase n }.tell ev).Announced job := by
  -- with a stream, the job was in the debts, in the stream or with the watcher
  by_cases hconnected : p.connected = true
  -- one case for each way to be announced
  · obtain h | h | ⟨n', hn', hincludes⟩ | h := h
    · rw [hconnected] at h
      cases h
    · exact Announced.tell (p := { p with owed := p.owed.erase n }) (.inr (.inl h)) ev
    · by_cases hsame : n' = n
      · -- it is this one, and the event asks for what it announces
        subst hsame
        have hbrings := (hev.asks hincludes hjob).brings p.heard
        simp only [Peer.tell, hconnected, if_true]
        exact .inr (.inl hbrings)
      · have hmem : n' ∈ p.owed.erase n := (List.mem_erase_of_ne hsame).mpr hn'
        exact Announced.tell (p := { p with owed := p.owed.erase n })
          (.inr (.inr (.inl ⟨n', hmem, hincludes⟩))) ev
    · exact Announced.tell (p := { p with owed := p.owed.erase n }) (.inr (.inr (.inr h))) ev
  -- without a stream everything counts as announced
  · have hfalse : p.connected = false := by simpa using hconnected
    exact Announced.tell (p := { p with owed := p.owed.erase n }) (.inl hfalse) ev

/-- A change that was owed and is announced is brought from now on. -/
theorem Sound.announce (h : p.Sound here) {n : Notice} {ev : Event} (hev : n.Announced ev) :
    ({ p with owed := p.owed.erase n }.tell ev).Sound here := by
  have htold := h.tell ev
  obtain ⟨hhop, hdriver, hupdates, hcache, hlost⟩ :=
    tell_frame { p with owed := p.owed.erase n } ev
  refine h.outside hdriver hupdates hcache (by rw [hhop]; exact h.folded) ?_
    (fun job hjob hann => hann.announce hjob hev)
    (fun job _ => .inr ⟨by rw [hhop], by rw [current, current, hhop], fun h => by rwa [hlost]⟩)
  -- the stream does not depend on what is owed
  have hsame : ({ p with owed := p.owed.erase n }.tell ev).heard = (p.tell ev).heard ∧
      ({ p with owed := p.owed.erase n }.tell ev).connected = (p.tell ev).connected := by
    unfold Peer.tell
    split <;> exact ⟨rfl, rfl⟩
  rw [hsame.1, hsame.2]
  exact htold.pinged

/-- A change of a job is owed, and no other job is touched. -/
theorem Sound.changeJob (h : p.Sound here) {job : Str} {tasks : List AgentTasks}
    (hjob : lowercase job = job) (hfolded : Hop.Folded { p.hop with tasks })
    (hothers : ∀ other, other ≠ job → { p.hop with tasks }.named other = p.hop.named other) :
    ({ p with hop := { p.hop with tasks }, owed := p.owed ++ [.job job] } : Peer).Sound here := by
  refine h.outside rfl rfl rfl hfolded h.pinged ?_ ?_
  -- what was announced stays so, with the new notice behind the others
  · intro job' _ hann
    obtain hann | hann | ⟨n, hn, hincludes⟩ | hann := hann
    · exact .inl hann
    · exact .inr (.inl hann)
    · exact .inr (.inr (.inl ⟨n, List.mem_append_left _ hn, hincludes⟩))
    · exact .inr (.inr (.inr hann))
  · intro job' _
    -- the job that changed is announced, and the rest of the Hop is the same to the others
    by_cases hsame : job' = job
    · subst hsame
      exact .inl (.inr (.inr (.inl ⟨.job job', by simp, hjob⟩)))
    · refine .inr ⟨rfl, ?_, id⟩
      have hnamed := hothers job' hsame
      unfold current addresses
      rw [← h.folded.filter_eq, ← hfolded.filter_eq, hnamed]

/-- A change of the agents is owed, and it is one to every job. -/
theorem Sound.changeAgents (h : p.Sound here) (agents : List AgentInfo) :
    ({ p with hop := { p.hop with agents }, owed := p.owed ++ [.agents] } : Peer).Sound here := by
  have hann : ∀ job, Announced
      { p with hop := { p.hop with agents }, owed := p.owed ++ [Notice.agents] } job := fun job =>
    .inr (.inr (.inl ⟨.agents, by simp, trivial⟩))
  exact h.outside rfl rfl rfl h.folded h.pinged (fun job _ _ => hann job)
    (fun job _ => .inl (hann job))

/-- A break of the stream is itself to be heard, and brings every job when it is. -/
theorem Sound.breakOff (h : p.Sound here) (delivered : Nat) :
    ({ p with connected := false, heard := p.heard.take delivered ++ [.lost] } : Peer).Sound here :=
  h.outside rfl rfl rfl h.folded (fun h => by cases h) (fun _ _ _ => .inl rfl)
    (fun _ _ => .inl (.inl rfl))

/-- The stream that is there again asks for everything. -/
theorem Sound.connect (h : p.Sound here) :
    ({ p with
      connected := true
      heard := p.heard ++ [.event ⟨some .ping⟩] } : Peer).Sound here := by
  have hbrings : ∀ job, Brings (p.heard ++ [.event ⟨some .ping⟩]) job :=
    fun job => (ping_asks job).brings p.heard
  exact h.outside rfl rfl rfl h.folded (fun _ _ => hbrings)
    (fun job _ _ => .inr (.inl (hbrings job)))
    (fun job _ => .inl (.inr (.inl (hbrings job))))

/-! ## Steps of the driver -/

/-- A step of the driver alone keeps the invariant when what was pending or under way still is
    one or the other. -/
private theorem Sound.inside (h : p.Sound here) {d : Driver} (hw : d.watcher.Consistent)
    (hmem : d.mem = []) (hfits : Fits d)
    (hcluster : ∀ c, p.driver.watcher.cluster = some c → d.watcher.cluster = some c)
    (hphase : ∀ agents, d.phase = .tasks agents → agents = p.hop.agents)
    (hkeep : ∀ job, p.driver.watcher.Pending (.job job) ∨ p.Fetching job →
      d.watcher.Pending (.job job) ∨ Fetching { p with driver := d } job) :
    Sound here { p with driver := d } := by
  refine ⟨h.folded, hw, hmem, hfits, h.pinged, ?_, ?_⟩
  · intro agents htasks hne
    exact absurd (hphase agents htasks) hne
  · intro job hjob
    -- what the watcher had to do it still has to do, or a fetch is doing it
    have hmove : .lost ∉ p.heard → p.driver.watcher.Pending (.job job) ∨ p.Fetching job →
        Covered { p with driver := d } job := by
      intro hlost hp
      obtain hp | hp := hkeep job hp
      · exact .inl (.inr (.inr (.inr ⟨hlost, hp⟩)))
      · exact .inr ⟨hlost, hp⟩
    -- one case for each way in which the job was covered
    obtain ⟨c, hc, hrow⟩ | (hann | hann | hann | ⟨hlost, hp⟩) | ⟨hlost, hf⟩ := h.covered job hjob
    · exact .inl ⟨c, hcluster c hc, hrow⟩
    · exact .inr (.inl (.inl hann))
    · exact .inr (.inl (.inr (.inl hann)))
    · exact .inr (.inl (.inr (.inr (.inl hann))))
    · exact .inr (hmove hlost (.inl hp))
    · exact .inr (hmove hlost (.inr hf))

/-- The jobs that are asked for are known to be in lower case. -/
private theorem fits_askJobs {d : Driver} {all rest : List Str} (hc : d.watcher.cluster.isSome)
    (hrest : ∀ job ∈ rest, lowercase job = job) : Fits (d.askJobs all rest) := by
  cases rest with
  | nil => trivial
  | cons job rest => exact ⟨hc, hrest⟩

/-- A job that is asked for is on its way. -/
private theorem fetching_askJobs {d : Driver} {all rest : List Str} {job : Str} (h : job ∈ rest) :
    Fetching { p with driver := d.askJobs all rest } job := by
  cases rest with
  | nil => cases h
  | cons first rest => exact h

/-- A turn of the loop takes what is pending on its way, or asks for the name first. -/
theorem Sound.turn (h : p.Sound here) (now : UInt64) (hphase : p.driver.phase = .loop) :
    Sound here { p with driver := p.driver.turn now } := by
  -- what `next` does to the watcher, and what it hands out
  have hw := h.watcher.next now
  obtain ⟨hcluster, hdiscover, hrefresh, hjobs⟩ := p.driver.watcher.next_frame now
  have hnext := fun job (hp : p.driver.watcher.Pending (.job job)) => hp.next now
  unfold Driver.turn
  rcases hact : p.driver.watcher.next now with ⟨a, w⟩
  rw [hact] at hw hcluster hdiscover hrefresh hjobs hnext
  simp only at hw hcluster hdiscover hrefresh hjobs hnext
  -- `next` does not forget the name
  have hsame : ∀ c, p.driver.watcher.cluster = some c → w.cluster = some c :=
    fun c hc => hcluster.trans hc
  -- nothing was under way, so only what was pending has to be kept
  have hkeep : ∀ d : Driver, d.watcher = w →
      (∀ what, a = .refresh what → ∀ job, what.Covers (.job job) →
        Fetching { p with driver := d } job) →
      ∀ job, p.driver.watcher.Pending (.job job) ∨ p.Fetching job →
        d.watcher.Pending (.job job) ∨ Fetching { p with driver := d } job := by
    intro d hd hcovers job hp
    obtain hp | hf := hp
    · obtain ⟨what, hwhat, hc⟩ | hp := hnext job hp
      · exact .inr (hcovers what hwhat job hc)
      · exact .inl (hd ▸ hp)
    · exact absurd hf (not_fetching (by rw [hphase]; rfl) job)
  -- the driver goes to the status, to the wait or to a fetch
  cases a with
  | discover =>
    refine h.inside hw h.mem (hcluster.trans (hdiscover rfl)) hsame (fun _ hp => by cases hp) ?_
    exact hkeep _ rfl (fun what hwhat => by cases hwhat)
  | wait until' =>
    refine h.inside hw h.mem trivial hsame (fun _ hp => by cases hp) ?_
    exact hkeep _ rfl (fun what hwhat => by cases hwhat)
  | refresh what =>
    have hsome : w.cluster.isSome := by
      rw [hcluster]
      exact hrefresh what rfl
    -- a full refresh fetches every job, and a job refresh the jobs that were pending
    cases what with
    | full =>
      refine h.inside hw h.mem hsome hsame (fun _ hp => by cases hp) ?_
      exact hkeep _ rfl (fun _ _ _ _ => trivial)
    | jobs names =>
      obtain ⟨hwatcher, hmem, htasks⟩ :=
        Driver.askJobs_frame { p.driver with watcher := w } names names
      have hnames : ∀ job ∈ names, lowercase job = job := by
        rw [hjobs names rfl]
        exact h.watcher.folded
      refine h.inside (hwatcher ▸ hw) (hmem.trans h.mem) (fits_askJobs hsome hnames)
        (by rw [hwatcher]; exact hsame) (fun agents hp => absurd hp (htasks agents)) ?_
      -- the names to be asked are those that were pending
      refine hkeep _ hwatcher (fun what hwhat job hcovers => fetching_askJobs ?_)
      cases hwhat
      exact hcovers

/-- The answer to the question for the name leaves what is pending as it was. -/
theorem Sound.status (h : p.Sound here) (now : UInt64) (name : Option Str)
    (hphase : p.driver.phase = .status) :
    Sound here { p with driver := p.driver.gotStatus now name } := by
  -- the status is asked only while the cluster is unknown
  have hnone : p.driver.watcher.cluster = none := by
    have hfits := h.fits
    unfold Fits at hfits
    rw [hphase] at hfits
    exact hfits
  have hsame : ∀ (w : Watcher) c, p.driver.watcher.cluster = some c → w.cluster = some c := by
    intro w c hc
    rw [hnone] at hc
    cases hc
  -- the driver was not fetching anything
  have hidle : ∀ job, ¬p.Fetching job := not_fetching (by rw [hphase]; rfl)
  -- without a name it tries again later, and with one everything is pending
  cases name with
  | none =>
    refine h.inside (h.watcher.after (.discoverFailed now)) h.mem trivial (hsame _)
      (fun _ hp => by cases hp) (fun job hp => ?_)
    exact .inl (hp.resolve_right (hidle job))
  | some name =>
    have hrun := (Watcher.discovered_commits p.driver.watcher now name).ample
    simp only [Driver.gotStatus, h.mem, hrun]
    refine h.inside (h.watcher.learns now name) rfl trivial (hsame _)
      (fun _ hp => by cases hp) (fun job hp => ?_)
    exact .inl ((hp.resolve_right (hidle job)).learns now name)

/-- The agents are the first half of a full refresh, which is still on its way. -/
theorem Sound.fetchAgents (h : p.Sound here) (hphase : p.driver.phase = .agents) :
    Sound here { p with driver := p.driver.gotAgents p.hop.agents } := by
  have hfits := h.fits
  unfold Fits at hfits
  rw [hphase] at hfits
  refine h.inside h.watcher h.mem hfits (fun _ hc => hc) ?_ (fun job hp => ?_)
  · intro agents hp
    cases hp
    rfl
  · -- the agents are those of the cluster, so the answer to come tells of every job
    exact .inr rfl

/-- A refresh that failed leaves every job pending. -/
theorem Sound.fetchFailed (h : p.Sound here) (now : UInt64) (what : Refresh) :
    Sound here { p with driver := p.driver.fetchFailed now what } :=
  h.inside (h.watcher.after (.refreshFailed now what)) h.mem trivial (fun _ hc => hc)
    (fun _ hp => by cases hp)
    (fun job _ => .inl (Watcher.pending_refreshFailed p.driver.watcher now what (.job job)))

/-- The end of a wait loses nothing. -/
theorem Sound.timeout (h : p.Sound here) (hphase : p.driver.phase = .waiting) :
    Sound here { p with driver := p.driver.timeout } := by
  refine h.inside h.watcher h.mem trivial (fun _ hc => hc) (fun _ hp => by cases hp) ?_
  intro job hp
  obtain hp | hf := hp
  · exact .inl hp
  · exact absurd hf (not_fetching (by rw [hphase]; rfl) job)

/-- The driver hears the first of what it was told: what was announced stays covered. -/
theorem Sound.heard (h : p.Sound here) {first : Heard} {rest : List Heard}
    (hphase : p.driver.phase = .waiting) (hheard : p.heard = first :: rest) {d : Driver}
    (hw : d.watcher.Consistent) (hmem : d.mem = []) (hloop : d.phase = .loop)
    (hcluster : d.watcher.cluster = p.driver.watcher.cluster)
    (hbrings : ∀ job, Brings (first :: rest) job →
      Brings rest job ∨ (.lost ∉ rest ∧ d.watcher.Pending (.job job)))
    (hpending : ∀ job, .lost ∉ first :: rest → p.driver.watcher.Pending (.job job) →
      d.watcher.Pending (.job job)) :
    Sound here { p with heard := rest, driver := d } := by
  -- the driver is at the head of its loop, so no fetch is under way
  refine ⟨h.folded, hw, hmem, ?_, ?_, ?_, ?_⟩
  · unfold Fits
    rw [hloop]
    trivial
  -- a ping that the stream had for each job is still in it, unless it was the first
  · intro hconnected hlost job
    have hmem : .lost ∈ p.heard := by
      rw [hheard]
      exact List.mem_cons_of_mem _ hlost
    have hbr := h.pinged hconnected hmem job
    rw [hheard] at hbr
    obtain hbr | ⟨hnot, -⟩ := hbrings job hbr
    · exact hbr
    · exact absurd hlost hnot
  · intro agents htasks
    rw [hloop] at htasks
    cases htasks
  -- one case for each way in which the job was covered
  · intro job hjob
    obtain ⟨c, hc, hrow⟩ | (hann | hann | hann | ⟨hlost, hp⟩) | ⟨-, hf⟩ := h.covered job hjob
    · exact .inl ⟨c, hcluster.trans hc, hrow⟩
    · exact .inr (.inl (.inl hann))
    -- what the stream brings, it brings still, or the watcher has it now
    · rw [hheard] at hann
      obtain hbr | hp := hbrings job hann
      · exact .inr (.inl (.inr (.inl hbr)))
      · exact .inr (.inl (.inr (.inr (.inr hp))))
    · exact .inr (.inl (.inr (.inr (.inl hann))))
    -- what was pending stays so, as nothing was lost
    · rw [hheard] at hlost
      have hrest : .lost ∉ rest := fun hmem => hlost (List.mem_cons_of_mem _ hmem)
      exact .inr (.inl (.inr (.inr (.inr ⟨hrest, hpending job hlost hp⟩))))
    · exact absurd hf (not_fetching (by rw [hphase]; rfl) job)

/-- What is heard becomes pending, and what a break lost is asked for by the ping behind it. -/
theorem Sound.hear (h : p.Sound here) (now : UInt64) {first : Heard} {rest : List Heard}
    (hphase : p.driver.phase = .waiting) (hheard : p.heard = first :: rest) :
    Sound here { p with heard := rest, driver := p.driver.hear now first } := by
  cases first with
  | lost =>
    -- what was pending lapses, but a stream that broke brings a ping, or is not there
    refine h.heard hphase hheard (h.watcher.after .lost) h.mem rfl rfl (fun _ hbr => .inl hbr) ?_
    intro job hnot
    exact absurd List.mem_cons_self hnot
  | event ev =>
    have hrun := (Watcher.event_commits p.driver.watcher now ev).ample
    simp only [Driver.hear, h.mem, hrun]
    refine h.heard hphase hheard (h.watcher.hears now ev) rfl rfl
      (p.driver.watcher.cluster_hears now ev) ?_ ?_
    -- the job of this event is pending now
    · intro job hbr
      obtain hbr | ⟨hnot, hasks⟩ := hbr
      · exact .inl hbr
      · exact .inr ⟨hnot, hasks.pending h.watcher now⟩
    -- and what was pending before still is
    · intro job _ hp
      exact (h.watcher.hears now ev).pending (hp.2.hears now ev)

/-! ## Steps that send a message -/

/-- A message that the driver sends is in the cache once all are laid there. -/
private theorem settled_drive (p : Peer) (d : Driver) (u : Update) :
    (p.drive (d, some u)).settled = Update.applied p.settled u := by
  simp only [settled, drive, Option.toList_some, List.foldl_append, List.foldl_cons, List.foldl_nil]

/-- The answer of `/v1/tasks`: where the agents are still those of the cluster the view agrees,
    and where they are not every job is announced. -/
theorem Sound.fetchTasks (h : p.Sound here) {agents : List AgentInfo}
    (hphase : p.driver.phase = .tasks agents) :
    (p.drive (p.driver.gotTasks agents p.hop.tasks here)).Sound here := by
  -- the cluster is known, as a fetch is under way
  obtain ⟨c, hc⟩ := h.fits.cluster (by rw [hphase]; simp [Phase.refresh?])
  have hrun := (Watcher.refreshedFull_yields hc agents p.hop.tasks here).ample
  rw [← h.mem] at hrun
  rw [p.driver.gotTasks_eq hrun]
  -- the phase is over, and the message is on its way
  refine ⟨h.folded, h.watcher, h.mem, trivial, h.pinged, (fun _ hp => by cases hp), ?_⟩
  intro job hjob
  -- the tasks are those of the cluster now; the agents came in before
  by_cases hagents : agents = p.hop.agents
  · refine .inl ⟨c, hc, ?_⟩
    rw [Except.toOption, settled_drive, Update.getCluster_replace, getD_viewOf, hagents]
    rfl
  · exact .inr (.inl (h.stale agents hphase hagents job hjob))

/-- The status of a job: its row agrees, and no other row changes. -/
theorem Sound.fetchJob (h : p.Sound here) (now : UInt64) {status : JobStatus} {all : List Str}
    {job : Str} {rest : List Str} (hphase : p.driver.phase = .jobs all (job :: rest))
    (hstatus : p.hop.StatusOf job status) :
    (p.drive (p.driver.gotJob now all job rest status here)).Sound here := by
  -- the job that is asked for is in lower case, and the cluster is known
  have hfits := h.fits
  unfold Fits at hfits
  rw [hphase] at hfits
  obtain ⟨c, hc⟩ := Option.isSome_iff_exists.mp hfits.1
  have hjob : lowercase job = job := hfits.2 job List.mem_cons_self
  have hrest : ∀ job' ∈ rest, lowercase job' = job' :=
    fun job' hmem => hfits.2 job' (List.mem_cons_of_mem _ hmem)
  -- names are in lower case, so the status of the job holds every task of its row
  have hrow : addresses status.agents status.tasks here job = p.current here job := by
    unfold addresses current addresses
    rw [hstatus.agents, hstatus.tasks, h.folded.filter_eq, List.filter_filter]
    simp only [Bool.and_self]
  -- memory in plenty: the message goes out
  have hrun := (Watcher.refreshedJob_yields hc job status here).ample
  rw [hjob, hrow, ← h.mem] at hrun
  rw [p.driver.gotJob_ok now all rest hrun, h.mem]
  obtain ⟨hwatcher, hmem, htasks⟩ := Driver.askJobs_frame { p.driver with mem := [] } all rest
  refine ⟨h.folded, by rw [drive, hwatcher]; exact h.watcher, hmem, fits_askJobs hfits.1 hrest,
    h.pinged, (fun agents hp => absurd hp (htasks agents)), ?_⟩
  -- this job is now as the leader told it, and the others are where they were
  intro job' hjob'
  -- the message is the row of this job
  have hcluster : (p.drive ({ p.driver with mem := [] }.askJobs all rest,
      some (.set c job (p.current here job)))).driver.watcher.cluster = some c := by
    rw [drive, hwatcher]
    exact hc
  by_cases hsame : job' = job
  · subst hsame
    refine .inl ⟨c, hcluster, ?_⟩
    rw [settled_drive, Update.getCluster_set, if_pos rfl]
    rfl
  -- another job is covered as before
  · obtain ⟨c', hc', hagree⟩ | (hann | hann | hann | ⟨hlost, hp⟩) | ⟨hlost, hf⟩ :=
      h.covered job' hjob'
    · obtain rfl := Option.some.inj (hc.symm.trans hc')
      refine .inl ⟨c, hcluster, ?_⟩
      rw [settled_drive, Update.getCluster_set, if_neg hsame]
      exact hagree
    · exact .inr (.inl (.inl hann))
    · exact .inr (.inl (.inr (.inl hann)))
    · exact .inr (.inl (.inr (.inr (.inl hann))))
    · exact .inr (.inl (.inr (.inr (.inr ⟨hlost, by rw [drive, hwatcher]; exact hp⟩))))
    · -- the job is one of those still to be asked
      refine .inr (.inr ⟨hlost, ?_⟩)
      unfold Fetching at hf
      rw [hphase] at hf
      exact fetching_askJobs ((List.mem_cons.mp hf).resolve_left hsame)

/-- The owner of the cache takes a message, which was on its way. -/
theorem Sound.apply (h : p.Sound here) {u : Update} {rest : List Update}
    (hupdates : p.updates = u :: rest) :
    Sound here { p with updates := rest, cache := (drain [u] (p.cache, [])).1 } := by
  have hsettled : settled { p with updates := rest, cache := (drain [u] (p.cache, [])).1 } =
      p.settled := by
    unfold settled
    rw [hupdates, drain_eq]
    rfl
  refine ⟨h.folded, h.watcher, h.mem, h.fits, h.pinged, h.stale, fun job hjob => ?_⟩
  obtain ⟨c, hc, hrow⟩ | hcovered := h.covered job hjob
  · exact .inl ⟨c, hc, by rw [hsettled]; exact hrow⟩
  · exact .inr hcovered

end

/-! ## Runs -/

/-- Every step keeps the peer sound. -/
theorem Sound.step {here : Option Local} {p p' : Peer} {act : Act} (h : p.Sound here)
    (hstep : Step here p act p') : p'.Sound here := by
  -- one lemma for each step
  cases hstep with
  | changeJob job tasks hjob hfolded hothers => exact h.changeJob hjob hfolded hothers
  | changeAgents agents => exact h.changeAgents agents
  | announce n ev hn hev => exact h.announce hev
  | say ev => exact h.tell ev
  | breakOff delivered => exact h.breakOff delivered
  | connect hconnected => exact h.connect
  | turn now hphase => exact h.turn now hphase
  | status now name hphase => exact h.status now name hphase
  | fetchAgents hphase => exact h.fetchAgents hphase
  | fetchTasks agents hphase => exact h.fetchTasks hphase
  | fetchJob now status all job rest hphase hstatus => exact h.fetchJob now hphase hstatus
  | fetchFailed now what _ => exact h.fetchFailed now what
  | hear now first rest hphase hheard => exact h.hear now hphase hheard
  | timeout hphase => exact h.timeout hphase
  | apply u rest hupdates => exact h.apply hupdates

/-- A state of the peer that some order of steps leads to. -/
abbrev Reachable (here : Option Local) (p : Peer) : Prop :=
  ForStd.Reachable Initial (Step here) p

/-- So every peer that a run leads to is sound. -/
theorem Reachable.sound {here : Option Local} {p : Peer} (h : p.Reachable here) :
    p.Sound here := by
  have hinit : ∀ p : Peer, p.Initial → p.Sound here := fun _ h => h.sound here
  have hstep : ∀ p act p', p.Sound here → Step here p act p' → p'.Sound here :=
    fun _ _ _ h hstep => h.step hstep
  exact ForStd.Reachable.invariant hinit hstep h

/-- At rest nothing covers a job. -/
theorem AtRest.not_covered {p : Peer} (h : p.AtRest) (job : Str) : ¬p.Covered job := by
  intro h'
  obtain (hc | hb | ⟨n, hn, -⟩ | ⟨-, hdue, -⟩) | ⟨-, hf⟩ := h'
  · rw [h.connected] at hc
    cases hc
  · rw [h.heard] at hb
    exact hb
  · rw [h.owed] at hn
    cases hn
  · rw [h.due] at hdue
    cases hdue
  · exact not_fetching (by rw [h.phase]; rfl) job hf

/-- Consistency at rest: in every reachable state in which nothing is on its way, the cache
    holds of every job of the cluster what `build_jobs` makes of the agents and tasks the
    cluster has now. The job of the empty name is left out: `classify` ignores an event that names
    it, and no question can ask for it. -/
theorem atRest_consistent {here : Option Local} {p : Peer} (hp : p.Reachable here)
    (hrest : p.AtRest) :
    ∃ c view, p.driver.watcher.cluster = some c ∧
      (buildJobs p.hop.agents p.hop.tasks here).run [] = (.ok view, []) ∧
        ∀ job, job ≠ [] →
          (p.cache.getCluster c job).getD [] = (Table.get view job).getD [] := by
  -- at rest nothing is on its way, so every job agrees
  have hagrees : ∀ job, job ≠ [] → p.Agrees here job :=
    fun job hjob => (hp.sound.covered job hjob).resolve_right (hrest.not_covered job)
  have hsettled : p.settled = p.cache := by rw [settled, hrest.updates, List.foldl_nil]
  -- any job tells that the cluster is known
  obtain ⟨c, hc, -⟩ := hagrees (str "a") (by decide)
  refine ⟨c, viewOf p.hop.agents p.hop.tasks here, hc,
    (buildJobs_yields p.hop.agents p.hop.tasks here).ample, fun job hjob => ?_⟩
  obtain ⟨c', hc', hrow⟩ := hagrees job hjob
  obtain rfl := Option.some.inj (hc.symm.trans hc')
  rw [getD_viewOf, ← hsettled]
  exact hrow

/-- A cluster with one running task. -/
def oneTask : Hop where
  agents := [⟨str "node1", str "http://10.0.0.1:8080"⟩]
  tasks := [⟨str "node1", some [⟨str "web", .running, str "docker", 0⟩]⟩]

/-- A peer of that cluster before its first step. -/
def started : Peer where
  hop := oneTask
  owed := []
  connected := false
  heard := []
  driver := ⟨Watcher.peer, .loop, []⟩
  updates := []
  cache := Cache.new

/-- The peer with a stream, its cluster discovered, and its ping heard. -/
def seeded : Peer where
  hop := oneTask
  owed := []
  connected := true
  heard := []
  driver := (((started.driver.turn 0).gotStatus 1 (some (str "prod"))).turn 2).hear 3
    (.event ⟨some .ping⟩)
  updates := []
  cache := Cache.new

/-- The peer after its first full refresh. -/
def refreshed : Peer :=
  { seeded with driver := (seeded.driver.turn 4).gotAgents oneTask.agents }.drive
    (((seeded.driver.turn 4).gotAgents oneTask.agents).gotTasks oneTask.agents oneTask.tasks none)

/-- The peer once its cache is filled. -/
def filled : Peer :=
  { refreshed with
    driver := refreshed.driver.turn 5
    updates := []
    cache := (drain [.replace (str "prod") (viewOf oneTask.agents oneTask.tasks none)]
      (Cache.new, [])).1 }

private theorem filled_reachable : filled.Reachable none := by
  -- the Hop of the example has its names in lower case, and nothing has happened yet
  have hinit : started.Initial := by
    refine ⟨by unfold Hop.Folded; decide +kernel, rfl, rfl, rfl, ?_, rfl, rfl⟩
    exact ⟨Watcher.peer.endpoint, RECONNECT, [], [], Watcher.peer, rfl, rfl⟩
  -- the stream, the cluster and the ping
  have hseed : Run (Step none) started
      [.connect, .turn 0, .status 1 (some (str "prod")), .turn 2, .hear 3] seeded :=
    .cons (.connect rfl) (.cons (.turn 0 (by decide +kernel))
      (.cons (.status 1 (some (str "prod")) (by decide +kernel))
        (.cons (.turn 2 (by decide +kernel))
          (.single (.hear 3 (.event ⟨some .ping⟩) [] (by decide +kernel) rfl)))))
  -- the full refresh
  have hrefresh : Run (Step none) seeded [.turn 4, .fetchAgents, .fetchTasks] refreshed :=
    .cons (.turn 4 (by decide +kernel)) (.cons (.fetchAgents (by decide +kernel))
      (.single (.fetchTasks oneTask.agents (by decide +kernel))))
  -- its message is applied, and the next turn finds nothing to do
  have hfill : Run (Step none) refreshed [.apply, .turn 5] filled :=
    .cons (.apply (.replace (str "prod") (viewOf oneTask.agents oneTask.tasks none)) []
      (by decide +kernel)) (.single (.turn 5 (by decide +kernel)))
  exact ⟨started, _, hinit, (hseed.append hrefresh).append hfill⟩

/-- The cluster with the one task, at rest. -/
theorem atRest_consistent_filled :
    ∃ c view, filled.driver.watcher.cluster = some c ∧
      (buildJobs oneTask.agents oneTask.tasks none).run [] = (.ok view, []) ∧
        ∀ job, job ≠ [] →
          (filled.cache.getCluster c job).getD [] = (Table.get view job).getD [] :=
  atRest_consistent filled_reachable
    ⟨rfl, rfl, rfl, by decide +kernel, by decide +kernel, rfl⟩

end Peer

end HopDns

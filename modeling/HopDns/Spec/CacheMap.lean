import Mathlib.Data.List.Basic
import HopDns.ForStd.Distinct
import HopDns.Spec.PlainAnswer
import HopDns.Spec.TableMap

/-!
# The cache as a map of maps

What the cache answers after any calls that change it, each of which may run out of
memory: a row is what the last call that concerned it put there.

## Key results

- `CacheCall.commits`: a call changes the view of its cluster, or leaves the cache as it was
- `Cache.jobs_eq`: the count of the names is one of different names
- `cache_run`: a cache after any calls
-/

namespace HopDns

open ForStd

/-! ## Calls -/

/-- A call that changes the cache. -/
inductive CacheCall where
  | set (cluster job : Str) (ips : List Ipv4Addr)
  | update (cluster : Str) (jobs : Jobs)
  | replace (cluster : Str) (jobs : Jobs)
  | clear (cluster : Str)

namespace CacheCall

/-- The cluster the call is about. -/
def cluster : CacheCall → Str
  | set cluster _ _ => cluster
  | update cluster _ => cluster
  | replace cluster _ => cluster
  | clear cluster => cluster

/-- The call made; what `replace` gives back comes back. -/
def perform : CacheCall → Method Error (Cache × Mem) (Option Jobs)
  | set cluster job ips => do
    Cache.set cluster job ips
    return none
  | update cluster jobs => do
    Cache.update cluster jobs
    return none
  | replace cluster jobs => Cache.replace cluster jobs
  | clear cluster => do
    let c ← Method.self
    Method.put (c.clear cluster)
    return none

/-- What the call puts at a job of its cluster: `none` when it leaves that as it was. -/
def putsJob (job : Str) : CacheCall → Option (Option (List Ipv4Addr))
  | set _ job' ips => if job' = job then some (some ips) else none
  | update _ jobs => some (jobs.get job)
  | replace _ jobs => some (jobs.get job)
  | clear _ => some none

/-- What the call puts at a job of a cluster: `none` when it does not concern it. -/
def puts (cluster job : Str) (call : CacheCall) : Option (Option (List Ipv4Addr)) :=
  if call.cluster = cluster then call.putsJob job else none

/-- Whether the call leaves its cluster in the cache. -/
def keepsOwn : CacheCall → Bool
  | clear _ => false
  | _ => true

/-- Whether the call leaves the cluster in the cache: `none` when it is about another. -/
def keeps (cluster : Str) (call : CacheCall) : Option Bool :=
  if call.cluster = cluster then some call.keepsOwn else none

/-- What the call makes of the view of its cluster. -/
def change (before : Option Jobs) : CacheCall → Option Jobs
  | set _ job ips => some ((before.getD Table.new).put job ips)
  | update _ jobs => some jobs
  | replace _ jobs => some jobs
  | clear _ => none

/-- What the call gives back. -/
def previous (c : Cache) : CacheCall → Option Jobs
  | replace cluster _ => c.view cluster
  | _ => none

/-- The cache after the call, with memory in plenty. -/
def applied (c : Cache) (call : CacheCall) : Cache :=
  match call.change (c.view call.cluster) with
  | some jobs => c.put call.cluster jobs
  | none => c.clear call.cluster

/-- A call changes the view of its cluster, or leaves the cache as it was. -/
theorem commits (c : Cache) (call : CacheCall) :
    Commits call.perform c (.ok (call.previous c)) (call.applied c) := by
  cases call with
  | set cluster job ips => exact (c.set_commits cluster job ips).bind_pure fun _ => none
  | update cluster jobs => exact (c.update_commits cluster jobs).bind_pure fun _ => none
  | replace cluster jobs => exact c.replace_commits cluster jobs
  | clear cluster => exact Atomic.self_bind (Atomic.put_pure c (c.clear cluster) none)

/-- A call changes the view of its own cluster alone. -/
theorem view_applied (c : Cache) (call : CacheCall) (cluster : Str) :
    (call.applied c).view cluster =
      if call.cluster = cluster then call.change (c.view cluster) else c.view cluster := by
  -- a cluster taken away has no view, and the others keep theirs
  have hclear : ∀ k, (c.clear k).view cluster = if cluster = k then none else c.view cluster :=
    fun k => c.clusters.get_remove k cluster
  unfold applied
  -- the call leaves a view, or it takes the view away
  split
  · rename_i jobs hjobs
    rw [Cache.view_put]
    by_cases h : call.cluster = cluster
    · rw [if_pos h, if_pos h.symm, ← h, hjobs]
    · rw [if_neg h, if_neg (Ne.symm h)]
  · rename_i hnone
    rw [hclear]
    by_cases h : call.cluster = cluster
    · rw [if_pos h, if_pos h.symm, ← h, hnone]
    · rw [if_neg h, if_neg (Ne.symm h)]

/-- A call puts its addresses where it concerns a row, and leaves the other rows. -/
theorem getCluster_applied (c : Cache) (call : CacheCall) (cluster job : Str) :
    (call.applied c).getCluster cluster job =
      (call.puts cluster job).getD (c.getCluster cluster job) := by
  rw [Cache.getCluster_eq, Cache.getCluster_eq, view_applied, puts]
  -- another cluster's view is as it was
  by_cases h : call.cluster = cluster
  · rw [if_pos h, if_pos h]
    -- only `set` looks into the view that is there
    cases call with
    | set cluster' job' ips =>
      rw [change, Option.bind_some, Table.get_put, putsJob]
      by_cases hjob : job' = job
      · rw [if_pos hjob, if_pos hjob.symm, Option.getD_some]
      · rw [if_neg hjob, if_neg (Ne.symm hjob), Option.getD_none]
        cases c.view cluster <;> rfl
    | update | replace | clear => rfl
  · rw [if_neg h, if_neg h, Option.getD_none]

/-- A cluster is there when the last call for it keeps it. -/
theorem hasCluster_applied (c : Cache) (call : CacheCall) (cluster : Str) :
    (call.applied c).hasCluster cluster = (call.keeps cluster).getD (c.hasCluster cluster) := by
  have hview : ∀ c : Cache, c.hasCluster cluster = (c.view cluster).isSome :=
    fun c => c.clusters.containsKey_eq cluster
  rw [hview, hview, view_applied, keeps]
  by_cases h : call.cluster = cluster
  · rw [if_pos h, if_pos h]
    cases call <;> rfl
  · rw [if_neg h, if_neg h, Option.getD_none]

end CacheCall

/-! ## What is read -/

namespace Cache

variable (c : Cache)

/-- The names of the jobs of a view, in order. -/
def jobNames (jobs : Jobs) : List Str := jobs.iter.map Prod.fst

/-- The names of the clusters, in order. -/
def clusterNames : List Str := c.clusters.iter.map Prod.fst

/-- The names of the clusters are in order, each one once. -/
theorem clusterNames_ascending : c.clusterNames.Pairwise (· < ·) :=
  List.pairwise_map.mpr c.clusters.sorted

/-- They are those of the clusters that are there. -/
theorem mem_clusterNames {cluster : Str} :
    cluster ∈ c.clusterNames ↔ c.hasCluster cluster = true := by
  rw [hasCluster, Table.containsKey_eq, Option.isSome_iff_ne_none]
  exact c.clusters.mem_keys

/-- The views, in the order of the clusters. -/
theorem merged_eq (job : Str) :
    c.merged job = c.clusterNames.filterMap fun cluster => c.getCluster cluster job := by
  rw [merged, Table.values, clusterNames, Table.iter, List.filterMap_map, List.filterMap_map]
  refine List.filterMap_congr fun row hrow => ?_
  -- each row is what is found at its key
  have hget : c.clusters.get row.1 = some row.2 := c.clusters.mem_iter.mp hrow
  rw [Function.comp_apply, Function.comp_apply, getCluster, hget]
  rfl

private theorem hasJob_iff_exists (job : Str) :
    c.hasJob job = true ↔ ∃ cluster ips, c.getCluster cluster job = some ips :=
  (c.hasJob_iff job).trans (exists_congr fun _ => Option.isSome_iff_exists)

/-- The names of all views are those of the jobs that are known. -/
theorem mem_flatMap_jobNames (job : Str) :
    job ∈ c.clusters.values.flatMap jobNames ↔ c.hasJob job = true := by
  rw [hasJob_iff_exists, List.mem_flatMap]
  constructor
  · rintro ⟨jobs, hjobs, hjob⟩
    obtain ⟨cluster, hview⟩ := (c.clusters.mem_values jobs).mp hjobs
    obtain ⟨ips, hget⟩ := Option.ne_none_iff_exists'.mp (jobs.mem_keys.mp hjob)
    exact ⟨cluster, ips, by rw [getCluster, hview]; exact hget⟩
  · rintro ⟨cluster, ips, hget⟩
    obtain ⟨jobs, hview, hget⟩ := Option.bind_eq_some_iff.mp hget
    exact ⟨jobs, (c.clusters.mem_values jobs).mpr ⟨cluster, hview⟩,
      jobs.mem_keys.mpr fun hnone => by rw [hnone] at hget; cases hget⟩

/-- A name is in some of the views when it is among their names. -/
private theorem any_containsKey (views : List Jobs) (job : Str) :
    (views.any fun jobs => jobs.containsKey job) = (views.flatMap jobNames).contains job := by
  rw [Bool.eq_iff_iff, List.contains_iff_mem, List.mem_flatMap, List.any_eq_true]
  refine exists_congr fun jobs => and_congr_right fun _ => ?_
  rw [Table.containsKey_eq, Option.isSome_iff_ne_none]
  exact jobs.mem_keys.symm

/-- The names of a view that are in none of the views before it. -/
private theorem length_filter_jobs (jobs : Jobs) (earlier : List Jobs) :
    (jobs.iter.filter fun row => !earlier.any fun jobs => jobs.containsKey row.1).length =
      (List.newTo (earlier.flatMap jobNames) (jobNames jobs)).length := by
  have hnodup : (jobNames jobs).Nodup := jobs.nodup_keys
  rw [List.newTo_of_nodup hnodup, jobNames, List.filter_map, List.length_map]
  simp only [Function.comp_def, any_containsKey]

/-- The count over the views to come: a name counts where it was in no view before. -/
private theorem foldl_jobs {all earlier rest : List Jobs} (hall : all = earlier ++ rest) (n : Nat) :
    (rest.zipIdx earlier.length).foldl (fun n (jobs, i) =>
      n + (jobs.iter.filter fun row =>
        !(all.take i).any fun earlier => earlier.containsKey row.1).length) n =
      n + (List.newTo (earlier.flatMap jobNames) (rest.flatMap jobNames)).length := by
  -- the induction is on the views to come; those before them are what a name may not stand in
  induction rest generalizing earlier n with
  | nil => rfl
  | cons jobs rest ih =>
    have hall' : all = earlier ++ [jobs] ++ rest := by
      rw [hall, List.append_assoc, List.singleton_append]
    have hnames : (earlier ++ [jobs]).flatMap jobNames =
        earlier.flatMap jobNames ++ jobNames jobs := by
      rw [List.flatMap_append, List.flatMap_singleton]
    have hrest := ih hall' (n + (List.newTo (earlier.flatMap jobNames) (jobNames jobs)).length)
    rw [List.length_append, List.length_singleton, hnames] at hrest
    -- each view adds the names that none before it has
    rw [List.zipIdx_cons, List.foldl_cons, List.flatMap_cons, List.newTo_append,
      List.length_append, ← Nat.add_assoc, ← hrest]
    simp only [hall, List.take_left' rfl, length_filter_jobs]

/-- The count of the names is the number of different ones. -/
theorem jobs_eq {names : List Str} (hnodup : names.Nodup)
    (hnames : ∀ job, job ∈ names ↔ c.hasJob job = true) : c.jobs = names.length := by
  have hcount : c.jobs = (List.newTo [] (c.clusters.values.flatMap jobNames)).length := by
    have hfold := @foldl_jobs c.clusters.values [] c.clusters.values rfl 0
    rw [Nat.zero_add] at hfold
    exact hfold
  rw [hcount]
  refine ((List.perm_ext_iff_of_nodup (List.nodup_newTo _ _) hnodup).mpr fun job => ?_).length_eq
  rw [List.mem_newTo, c.mem_flatMap_jobNames, hnames]
  exact and_iff_left List.not_mem_nil

end Cache

/-! ## Runs -/

/-- A call to the cache, with what it returned; memory may run out in any of them. -/
def CacheStep (c : Cache) (l : CacheCall × Except Error (Option Jobs)) (c' : Cache) : Prop :=
  ∃ mem mem', l.1.perform.run (c, mem) = (l.2, c', mem')

/-- The calls that did not run out of memory. -/
def returned (ls : List (CacheCall × Except Error (Option Jobs))) : List CacheCall :=
  ls.filterMap fun l => match l.2 with
    | .ok _ => some l.1
    | .error _ => none

/-- A call was made, or ran out of memory and left the cache as it was. -/
theorem CacheStep.outcome {c c' : Cache} {call : CacheCall} {r : Except Error (Option Jobs)}
    (h : CacheStep c (call, r) c') :
    r = .ok (call.previous c) ∧ c' = call.applied c ∨ r = .error .outOfMemory ∧ c' = c := by
  obtain ⟨mem, mem', hrun⟩ := h
  have hlean := (call.commits c).lean mem
  rw [hrun] at hlean
  exact hlean

/-- What the last call that returned and concerned it put there is what is found. -/
private theorem last_puts {ls : List (CacheCall × Except Error (Option Jobs))} {c : Cache}
    (h : Run CacheStep Cache.new ls c) {α : Type} (read : Cache → α) (puts : CacheCall → Option α)
    (happlied : ∀ c call, read (call.applied c) = (puts call).getD (read c)) :
    read c = ((returned ls).filterMap puts).getLast?.getD (read Cache.new) := by
  refine h.history (I := fun ls c => read c =
    ((returned ls).filterMap puts).getLast?.getD (read Cache.new)) rfl ?_
  rintro ls c ⟨call, r⟩ c' hread hstep
  rw [returned, List.filterMap_append, ← returned, List.filterMap_append]
  obtain ⟨rfl, rfl⟩ | ⟨rfl, rfl⟩ := hstep.outcome
  · rw [happlied]
    cases hputs : puts call with
    | none => simp [hputs, hread]
    | some a => simp [hputs]
  · simpa using hread

/-- A cache after any calls that change it. A row is what the last call that concerned it put
    there, and a cluster is there when the last call about it was not `clear`; a call leaves the
    other clusters alone, and the whole cache when memory runs out, and `replace` gives back
    what was there; and what else is read agrees with the rows. -/
theorem cache_run {c : Cache} {ls : List (CacheCall × Except Error (Option Jobs))}
    (h : Run CacheStep Cache.new ls c) :
    (∀ cluster job, c.getCluster cluster job =
      ((returned ls).filterMap (·.puts cluster job)).getLast?.getD none) ∧
    (∀ cluster, c.hasCluster cluster =
      ((returned ls).filterMap (·.keeps cluster)).getLast?.getD false) ∧
    (∀ call r c', CacheStep c (call, r) c' →
      (∀ cluster, cluster ≠ call.cluster →
        (∀ job, c'.getCluster cluster job = c.getCluster cluster job) ∧
          c'.hasCluster cluster = c.hasCluster cluster) ∧
      (∀ e, r = .error e → c' = c) ∧
      ∀ cluster jobs before, call = .replace cluster jobs → r = .ok before →
        before.isSome = c.hasCluster cluster ∧
          ∀ job, before.bind (·.get job) = c.getCluster cluster job) ∧
    (∀ job, c.hasJob job = true ↔ ∃ cluster ips, c.getCluster cluster job = some ips) ∧
    (∃ names : List Str, names.Pairwise (· < ·) ∧
      (∀ cluster, cluster ∈ names ↔ c.hasCluster cluster = true) ∧
      c.clustersLen = names.length ∧
      ∀ job, c.merged job = names.filterMap (c.getCluster · job) ∧
        Yields (c.getMerged job) (.ok (names.filterMap (c.getCluster · job)).flatten.eraseDups)) ∧
    ∀ names : List Str, names.Nodup → (∀ job, job ∈ names ↔ c.hasJob job = true) →
      c.jobs = names.length := by
  -- the first two parts say that the last call that says something is the one that holds
  refine ⟨fun cluster job => ?_, fun cluster => ?_, ?_, c.hasJob_iff_exists, ?_,
    fun names hnodup hnames => c.jobs_eq hnodup hnames⟩
  · exact last_puts h (·.getCluster cluster job) _
      fun c call => call.getCluster_applied c cluster job
  · exact last_puts h (·.hasCluster cluster) _ fun c call => call.hasCluster_applied c cluster
  -- a call goes through or fails, and a failed one changes nothing
  · intro call r c' hstep
    obtain ⟨rfl, rfl⟩ | ⟨rfl, rfl⟩ := hstep.outcome
    · refine ⟨fun cluster hne => ⟨fun job => ?_, ?_⟩, nofun, ?_⟩
      · rw [call.getCluster_applied, CacheCall.puts, if_neg (Ne.symm hne), Option.getD_none]
      · rw [call.hasCluster_applied, CacheCall.keeps, if_neg (Ne.symm hne), Option.getD_none]
      · rintro cluster jobs before rfl hbefore
        obtain rfl := Except.ok.inj hbefore
        exact ⟨(c.clusters.containsKey_eq cluster).symm, fun job => rfl⟩
    · exact ⟨fun cluster _ => ⟨fun job => rfl, rfl⟩, fun _ _ => rfl, nofun⟩
  -- the clusters of the table are in ascending order and are the ones with a view
  · refine ⟨c.clusterNames, c.clusterNames_ascending, fun cluster => c.mem_clusterNames, ?_,
      fun job => ⟨c.merged_eq job, ?_⟩⟩
    · exact (List.length_map Prod.fst).symm
    · rw [← c.merged_eq job]
      exact c.getMerged_yields job

/-- Two clusters with a job in common, of which the second call for one runs out of memory. -/
def twoClusters : List (CacheCall × Except Error (Option Jobs)) :=
  [(.set (str "prod") (str "web") [⟨10, 0, 0, 1⟩], .ok none),
    (.set (str "test") (str "web") [⟨10, 0, 0, 2⟩], .ok none),
    (.set (str "test") (str "db") [], .error .outOfMemory)]

/-- The views after these calls. -/
def twoViews : Cache :=
  ⟨⟨[(str "prod", ⟨[(str "web", [⟨10, 0, 0, 1⟩])], by decide⟩),
    (str "test", ⟨[(str "web", [⟨10, 0, 0, 2⟩])], by decide⟩)], by decide⟩⟩

/-- The calls that fill two views. -/
theorem twoClusters_run : Run CacheStep Cache.new twoClusters twoViews := by
  let c₁ : Cache := ⟨⟨[(str "prod", ⟨[(str "web", [⟨10, 0, 0, 1⟩])], by decide⟩)], by decide⟩⟩
  have h₁ : CacheStep Cache.new (.set (str "prod") (str "web") [⟨10, 0, 0, 1⟩], .ok none) c₁ :=
    ⟨[], [], rfl⟩
  have h₂ : CacheStep c₁ (.set (str "test") (str "web") [⟨10, 0, 0, 2⟩], .ok none) twoViews :=
    ⟨[], [], rfl⟩
  have h₃ : CacheStep twoViews (.set (str "test") (str "db") [], .error .outOfMemory) twoViews :=
    ⟨[false], [], rfl⟩
  exact .cons h₁ (.cons h₂ (.cons h₃ (.nil _)))

/-- What is said of a cache after any calls holds of that one. -/
theorem cache_run_twoClusters :
    (∀ cluster job, twoViews.getCluster cluster job =
      ((returned twoClusters).filterMap (·.puts cluster job)).getLast?.getD none) ∧
    (∀ cluster, twoViews.hasCluster cluster =
      ((returned twoClusters).filterMap (·.keeps cluster)).getLast?.getD false) ∧
    (∀ call r c', CacheStep twoViews (call, r) c' →
      (∀ cluster, cluster ≠ call.cluster →
        (∀ job, c'.getCluster cluster job = twoViews.getCluster cluster job) ∧
          c'.hasCluster cluster = twoViews.hasCluster cluster) ∧
      (∀ e, r = .error e → c' = twoViews) ∧
      ∀ cluster jobs before, call = .replace cluster jobs → r = .ok before →
        before.isSome = twoViews.hasCluster cluster ∧
          ∀ job, before.bind (·.get job) = twoViews.getCluster cluster job) ∧
    (∀ job, twoViews.hasJob job = true ↔
      ∃ cluster ips, twoViews.getCluster cluster job = some ips) ∧
    (∃ names : List Str, names.Pairwise (· < ·) ∧
      (∀ cluster, cluster ∈ names ↔ twoViews.hasCluster cluster = true) ∧
      twoViews.clustersLen = names.length ∧
      ∀ job, twoViews.merged job = names.filterMap (twoViews.getCluster · job) ∧
        Yields (twoViews.getMerged job)
          (.ok (names.filterMap (twoViews.getCluster · job)).flatten.eraseDups)) ∧
    ∀ names : List Str, names.Nodup → (∀ job, job ∈ names ↔ twoViews.hasJob job = true) →
      twoViews.jobs = names.length :=
  cache_run twoClusters_run

end HopDns

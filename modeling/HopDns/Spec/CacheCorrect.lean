import HopDns.ForStd.Interleaving
import HopDns.Native.Host

/-!
# The cache as a map of maps

What the messages to the cache do to the views of the clusters.

## Key results

- `Update.apply_commits`: a message writes its own cluster, or leaves the cache as it was
- `get_drain`: the view of a cluster comes from its own messages
-/

namespace HopDns

open ForStd

namespace Table

variable {V : Type}

/-- Putting back what is there changes nothing. -/
theorem put_get {t : Table V} {key : Str} {v : V} (h : t.get key = some v) :
    t.put key v = t := by
  apply ext_get
  intro key'
  rw [get_put]
  split
  · rename_i hkey
    rw [hkey, h]
  · rfl

/-- Putting another value at a key that is there changes its row in place. -/
theorem exists_rows_put {t : Table V} {key : Str} {v : V} (h : t.get key = some v) (value : V) :
    ∃ before after, t.rows = before ++ (key, v) :: after ∧
      (t.put key value).rows = before ++ (key, value) :: after :=
  SortedRows.exists_of_upsert t.sorted ((t.get_eq_lookup key).symm.trans h) value

/-- Every row of the table has the property. -/
def Every (P : Str → V → Prop) (t : Table V) : Prop := ∀ row ∈ t.rows, P row.1 row.2

/-- A property of all rows is one of all keys. -/
theorem every_iff {P : Str → V → Prop} {t : Table V} :
    t.Every P ↔ ∀ key v, t.get key = some v → P key v := by
  simp only [get_eq_lookup]
  constructor
  · intro h key v hget
    exact h (key, v) (SortedRows.mem_of_lookup hget)
  · intro h row hrow
    exact h row.1 row.2 (t.sorted.lookup_of_mem hrow)

theorem Every.new (P : Str → V → Prop) : (new : Table V).Every P :=
  fun _ hrow => absurd hrow List.not_mem_nil

/-- It holds with a row of which it holds. -/
theorem Every.put {P : Str → V → Prop} {t : Table V} (h : t.Every P) {key : Str} {value : V}
    (hvalue : P key value) : (t.put key value).Every P := by
  refine every_iff.mpr fun key' v hget => ?_
  rw [get_put] at hget
  split at hget
  · rename_i hkey
    rw [hkey, ← Option.some.inj hget]
    exact hvalue
  · exact every_iff.mp h key' v hget

end Table

namespace Cache

/-- The cache with the view `jobs` of one cluster. -/
def put (c : Cache) (cluster : Str) (jobs : Jobs) : Cache := ⟨c.clusters.put cluster jobs⟩

/-- The view of a cluster (`none`: the cluster is not in the cache). -/
def view (c : Cache) (cluster : Str) : Option Jobs := c.clusters.get cluster

/-- A cluster that is put is there, and the others are as they were. -/
theorem view_put (c : Cache) (cluster cluster' : Str) (jobs : Jobs) :
    (c.put cluster jobs).view cluster' =
      if cluster' = cluster then some jobs else c.view cluster' :=
  Table.get_put _ _ _ _

/-- Caches with the same views are the same, row by row. -/
theorem ext_view {c c' : Cache} (h : ∀ cluster, c.view cluster = c'.view cluster) : c = c' :=
  congrArg Cache.mk (Table.ext_get h)

theorem getCluster_eq (c : Cache) (cluster job : Str) :
    c.getCluster cluster job = (c.view cluster).bind (·.get job) := rfl

/-- `set` changes the one job, or finds no memory and changes nothing. -/
theorem set_commits (c : Cache) (cluster job : Str) (ips : List Ipv4Addr) :
    Commits (set cluster job ips) c (.ok ())
      (c.put cluster (((c.view cluster).getD Table.new).put job ips)) := by
  -- the row that is sought decides between the two branches
  refine Atomic.self_bind ?_
  rw [Table.getMut_eq]
  unfold view
  cases hget : c.clusters.get cluster with
  | some jobs =>
    -- the row of the cluster is changed in place
    have hback : Cache.mk (c.clusters.put cluster jobs) = c := by
      rw [Table.put_get hget]
    exact ((jobs.insert_commits job ips).focus hback).bind_pure _
  | none =>
    -- the cluster gets a row of its own
    exact Atomic.alloc_bind (Table.new.insert_commits job ips).onLocal
      (((c.clusters.insert_commits cluster _).focus rfl).bind_pure _)

/-- `replace` changes the one cluster, or finds no memory and changes nothing. -/
theorem replace_commits (c : Cache) (cluster : Str) (jobs : Jobs) :
    Commits (replace cluster jobs) c (.ok (c.view cluster)) (c.put cluster jobs) :=
  Atomic.self_bind ((c.clusters.insert_commits cluster jobs).focus rfl)

theorem update_commits (c : Cache) (cluster : Str) (jobs : Jobs) :
    Commits (update cluster jobs) c (.ok ()) (c.put cluster jobs) :=
  (c.replace_commits cluster jobs).bind_pure _

/-- A job is known when some cluster knows it. -/
theorem hasJob_iff (cache : Cache) (job : Str) :
    cache.hasJob job = true ↔ ∃ c, (cache.getCluster c job).isSome := by
  -- the merged list has one entry for each cluster that runs the job
  have hmem : cache.merged job ≠ [] ↔ ∃ c, (cache.getCluster c job).isSome := by
    constructor
    · intro hne
      obtain ⟨ips, hips⟩ := List.exists_mem_of_ne_nil _ hne
      obtain ⟨jobs, hjobs, hget⟩ := List.mem_filterMap.mp hips
      obtain ⟨c, hc⟩ := (Table.mem_values _ _).mp hjobs
      exact ⟨c, Option.isSome_iff_exists.mpr ⟨ips, Option.bind_eq_some_iff.mpr ⟨jobs, hc, hget⟩⟩⟩
    · intro h
      obtain ⟨c, hc⟩ := h
      obtain ⟨ips, hips⟩ := Option.isSome_iff_exists.mp hc
      obtain ⟨jobs, hjobs, hget⟩ := Option.bind_eq_some_iff.mp hips
      exact List.ne_nil_of_mem
        (List.mem_filterMap.mpr ⟨jobs, (Table.mem_values _ _).mpr ⟨c, hjobs⟩, hget⟩)
  rw [← hmem, hasJob]
  cases cache.merged job <;> simp

end Cache

/-! ## The messages -/

namespace Update

/-- What a message makes of the view of its cluster. -/
def change (before : Option Jobs) : Update → Jobs
  | replace _ jobs => jobs
  | set _ job ips => (before.getD Table.new).put job ips

/-- The cache after a message, with memory in plenty. -/
def applied (c : Cache) (u : Update) : Cache := c.put u.cluster (u.change (c.view u.cluster))

/-- A message writes the view of its own cluster, or leaves the cache as it was. -/
theorem apply_commits (c : Cache) (u : Update) : Commits u.apply c (.ok ()) (applied c u) := by
  cases u with
  | replace cluster jobs => exact c.update_commits cluster jobs
  | set cluster job ips => exact c.set_commits cluster job ips

/-- A message changes the view of its own cluster alone. -/
theorem view_applied (c : Cache) (u : Update) (cluster : Str) :
    (applied c u).view cluster =
      if u.cluster = cluster then some (u.change (c.view cluster)) else c.view cluster := by
  rw [applied, Cache.view_put]
  by_cases h : u.cluster = cluster
  · rw [if_pos h, if_pos h.symm, h]
  · rw [if_neg h, if_neg (fun h' => h h'.symm)]

/-- A view replaces all rows of its cluster. -/
theorem getCluster_replace (c : Cache) (cluster : Str) (jobs : Jobs) (job : Str) :
    (applied c (.replace cluster jobs)).getCluster cluster job = jobs.get job := by
  rw [Cache.getCluster_eq, view_applied]
  simp only [Update.cluster, if_true, change, Option.bind_some]

/-- A job replaces its own row of its cluster. -/
theorem getCluster_set (c : Cache) (cluster job : Str) (ips : List Ipv4Addr) (job' : Str) :
    (applied c (.set cluster job ips)).getCluster cluster job' =
      if job' = job then some ips else c.getCluster cluster job' := by
  rw [Cache.getCluster_eq, view_applied]
  simp only [Update.cluster, if_true, change, Option.bind_some, Table.get_put]
  split
  · rfl
  · rw [Cache.getCluster_eq]
    cases c.view cluster <;> rfl

end Update

/-- With memory in plenty, no message is dropped. -/
theorem drain_eq (us : List Update) (c : Cache) :
    drain us (c, []) = (us.foldl Update.applied c, []) := by
  induction us generalizing c with
  | nil => rfl
  | cons u us ih =>
    have hu : ((Update.apply u).run (c, [])).2 = (Update.applied c u, []) := by
      rw [(Update.apply_commits c u).ample]
    unfold drain at ih ⊢
    rw [List.foldl_cons, hu, ih, List.foldl_cons]

/-- The view of a cluster after all messages comes from its own. -/
theorem get_drain (us : List Update) (c : Cache) (cluster : Str) :
    (drain us (c, [])).1.view cluster =
      (us.filter fun u => u.cluster = cluster).foldl (fun before u => some (u.change before))
        (c.view cluster) := by
  rw [drain_eq]
  exact @get_foldl _ _ _ _ _ Cache.view Update.applied Update.cluster
    (fun before u => some (u.change before)) Update.view_applied us c cluster

end HopDns

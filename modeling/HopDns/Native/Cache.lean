import HopDns.Native.Table

/-!
# The cache

`cache::Cache`: per cluster, per job name, the addresses of the running tasks.
-/

namespace HopDns

open ForStd

/-- `core::net::Ipv4Addr` -/
structure Ipv4Addr where
  a : UInt8
  b : UInt8
  c : UInt8
  d : UInt8
deriving DecidableEq, Repr

/-- The four bytes of the address, as they go on the wire. -/
def Ipv4Addr.octets (ip : Ipv4Addr) : List UInt8 := [ip.a, ip.b, ip.c, ip.d]

/-- `watcher::push_unique`, which `Cache::get_merged` has written out: `ip` at the end of
    `list`, unless it is there already. -/
def pushUnique (list : List Ipv4Addr) (ip : Ipv4Addr) : Fallible (List Ipv4Addr) := do
  if list.contains ip then
    return list
  else
    tryReserve
    return list ++ [ip]

/-- The jobs of one cluster, each with its addresses. -/
abbrev Jobs := Table (List Ipv4Addr)

/-- The cache: per cluster its jobs. -/
structure Cache where
  clusters : Table Jobs
deriving DecidableEq

namespace Cache

/-- An empty cache. -/
def new : Cache := ⟨Table.new⟩

/-- The addresses of a job in one cluster (`none`: the cluster does not know the job). -/
def getCluster (c : Cache) (cluster job : Str) : Option (List Ipv4Addr) := do
  let jobs ← c.clusters.get cluster
  jobs.get job

/-- The addresses of a job, one list for each cluster that knows it. -/
def merged (c : Cache) (job : Str) : List (List Ipv4Addr) :=
  c.clusters.values.filterMap fun jobs => jobs.get job

/-- The addresses of a job in all clusters together, without doubles. -/
def getMerged (c : Cache) (job : Str) : Fallible (List Ipv4Addr) :=
  (c.merged job).foldlM (fun out ips => ips.foldlM pushUnique out) []

/-- Whether some cluster knows the job. -/
def hasJob (c : Cache) (job : Str) : Bool := (c.merged job).head?.isSome

/-- Whether the cluster is in the cache. -/
def hasCluster (c : Cache) (cluster : Str) : Bool := c.clusters.containsKey cluster

/-- Put the addresses of one job of one cluster. -/
def set (cluster job : Str) (ips : List Ipv4Addr) : Method Error (Cache × Mem) Unit := do
  let c ← Method.self
  -- the cluster is known: its table is changed where it lies
  match c.clusters.getMut cluster with
  | some (jobs, back) =>
    let _ ← Method.focus jobs (fun jobs => ⟨back jobs⟩) (Table.insert job ips)
    return ()
  | none =>
    -- it is new: a table of one row, which is lost when the cluster gets no row
    let jobs ← Method.alloc ((Table.insert job ips).onLocal Table.new)
    let _ ← Method.focus c.clusters Cache.mk (Table.insert cluster jobs)
    return ()

/-- Put the whole view of a cluster; the view before comes back. -/
def replace (cluster : Str) (jobs : Jobs) : Method Error (Cache × Mem) (Option Jobs) := do
  let c ← Method.self
  Method.focus c.clusters Cache.mk (Table.insert cluster jobs)

/-- `replace`, letting go of the view before. -/
def update (cluster : Str) (jobs : Jobs) : Method Error (Cache × Mem) Unit := do
  let _ ← replace cluster jobs
  return ()

/-- Take a cluster out. -/
def clear (c : Cache) (cluster : Str) : Cache := ⟨(c.clusters.remove cluster).2⟩

/-- The number of clusters. -/
def clustersLen (c : Cache) : Nat := c.clusters.len

/-- The number of different job names. -/
def jobs (c : Cache) : Nat :=
  c.clusters.values.zipIdx.foldl (fun n (jobs, i) =>
    -- a name counts at the first cluster that has it
    n + (jobs.iter.filter fun row =>
      !(c.clusters.values.take i).any fun earlier => earlier.containsKey row.1).length) 0

end Cache

end HopDns

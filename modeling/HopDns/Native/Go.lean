import Mathlib.Logic.Function.Basic
import HopDns.ForStd.Distinct
import HopDns.Native.Config
import HopDns.Native.Server

/-!
# The Go generation

`OLD/internal/dns`: the server that the crate is a port of, and the specification that the port
was tested against. A question is what `miekg/dns` has parsed, and an answer what it will write:
names are texts that end in a dot. What this library makes of a name and of a text, and
`strings.ToLower` beyond ASCII, is left open, and so are the locks and the socket. `range` goes
through a map in any order, which is an argument here.
-/

namespace HopDns.Go

/-- What is used of libraries on names and texts. -/
structure Lib where
  /-- `Name` of a `dns.Question`, by the labels on the wire -/
  name : List Str → Str
  /-- `dns.Fqdn` -/
  fqdn : Str → Str
  /-- `strings.ToLower` -/
  toLower : Str → Str

/-- `map[string]α` -/
abbrev Map (α : Type) : Type := Str → Option α

/-- `make(map[string]α)` -/
def Map.make {α : Type} : Map α := fun _ => none

/-! ## config.go -/

/-- `CNAMEs` -/
structure CNAMEs where
  exact : Map Str
  wildcard : Map Str

namespace CNAMEs

/-- The body of the loop of `NewCNAMEs`. -/
def add (lib : Lib) (c : CNAMEs) (pair : Str × Str) : CNAMEs :=
  let k := lib.toLower (trim pair.1)
  let v := trim pair.2
  -- an empty name or target is passed over
  if k = [] ∨ v = [] then c
  else
    let target := lib.fqdn v
    match stripStar k with
    | some parent =>
      -- a later row of the same name takes the place of an earlier one
      { c with wildcard := Function.update c.wildcard (lib.fqdn parent) (some target) }
    | none => { c with exact := Function.update c.exact (lib.fqdn k) (some target) }

/-- `NewCNAMEs`, over the rows of the map in the order of `range`. -/
def new (lib : Lib) (m : List (Str × Str)) : CNAMEs := m.foldl (add lib) ⟨Map.make, Map.make⟩

/-- The loop of `Lookup` over the parents. -/
def lookupParent (c : CNAMEs) (parent : Str) : Option Str :=
  match _h : parent.splitOnce dot with
  | none => none
  | some (_, rest) =>
    -- the dot is the last byte
    if rest = [] then none
    else
      match c.wildcard rest with
      | some v => some v
      | none => lookupParent c rest
termination_by parent.length
decreasing_by
  obtain ⟨rfl, -⟩ := List.splitOnce_eq_some _h
  simp only [List.length_append, List.length_cons]
  omega

/-- `Lookup`; `none` is the nil receiver. -/
def lookup (lib : Lib) (c : Option CNAMEs) (name : Str) : Option Str :=
  match c with
  | none => none
  | some c =>
    let name := lib.toLower (lib.fqdn name)
    match c.exact name with
    | some v => some v
    | none => c.lookupParent name

end CNAMEs

/-! ## cache.go -/

/-- `Cache`: cluster, job name and addresses; an address is one of IPv4. -/
structure Cache where
  clusters : Map (Map (List Ipv4Addr))

namespace Cache

/-- `NewCache` -/
def new : Cache := ⟨Map.make⟩

/-- `GetCluster`; no list is an empty one. -/
def getCluster (c : Cache) (cluster jobName : Str) : List Ipv4Addr :=
  match c.clusters cluster with
  | some p => (p jobName).getD []
  | none => []

/-- `GetMerged`; `range` goes through the clusters in the order `order`. -/
def getMerged (c : Cache) (order : List Str) (jobName : Str) : List Ipv4Addr :=
  (order.flatMap fun cluster => c.getCluster cluster jobName).foldl
    (fun out ip => if out.contains ip then out else out ++ [ip]) []

/-- `Set` -/
def set (c : Cache) (cluster jobName : Str) (ips : List Ipv4Addr) : Cache :=
  let jobs := (c.clusters cluster).getD Map.make
  ⟨Function.update c.clusters cluster (some (Function.update jobs jobName (some ips)))⟩

/-- `Update` -/
def update (c : Cache) (cluster : Str) (data : Map (List Ipv4Addr)) : Cache :=
  ⟨Function.update c.clusters cluster (some data)⟩

/-- `Clear` -/
def clear (c : Cache) (cluster : Str) : Cache := ⟨Function.update c.clusters cluster none⟩

end Cache

/-! ## server.go -/

/-- A record, as it is handed to `miekg/dns`. -/
inductive RR where
  | A (name : Str) (ttl : UInt32) (ip : Ipv4Addr)
  | CNAME (name : Str) (ttl : UInt32) (target : Str)
  | SOA (name : Str) (ttl : UInt32) (ns mbox : Str) (serial refresh retry expire minttl : UInt32)
deriving DecidableEq, Repr

/-- A reply: what `handleQuery` sets of it. `SetReply` has set the code to NOERROR. -/
structure Msg where
  authoritative : Bool
  rcode : Rcode
  answer : List RR
  ns : List RR

/-- `Server` -/
structure Server where
  cache : Cache
  cnames : Option CNAMEs
  domain : Str

namespace Server

/-- `NewServer` -/
def new (cache : Cache) (domain : Str) : Server :=
  let domain := if domain = [] then str "internal." else domain
  let domain := if domain.getLast? = some dot then domain else domain ++ [dot]
  { cache, cnames := none, domain }

/-- `SetCNAMEs` -/
def setCNAMEs (s : Server) (c : Option CNAMEs) : Server := { s with cnames := c }

/-- `var ips` of `handleQuery`: the addresses of what stands before the domain. -/
def ips (order : List Str) (s : Server) (pre : Str) : List Ipv4Addr :=
  match pre.splitOnce dot with
  | some (service, cluster) => s.cache.getCluster cluster service
  | none => s.cache.getMerged order pre

/-- The body of the loop of `handleQuery` over the questions, each of a name and a type. -/
def handleQuestion (lib : Lib) (order : List Str) (s : Server) (answer : List RR)
    (q : Str × UInt16) : List RR :=
  match CNAMEs.lookup lib s.cnames q.1 with
  | some target => answer ++ [.CNAME q.1 5 target]
  | none =>
    if q.2 ≠ rtype.A then answer
    else
      match stripSuffix (dot :: s.domain) q.1 with
      | none => answer
      | some pre => answer ++ (s.ips order pre).map (RR.A q.1 5)

/-- `handleQuery` -/
def handleQuery (lib : Lib) (order : List Str) (s : Server) (questions : List (Str × UInt16)) :
    Msg :=
  let answer := questions.foldl (s.handleQuestion lib order) []
  let ns :=
    if answer = [] then
      [RR.SOA s.domain 5 (str "ns." ++ s.domain) (str "hostmaster." ++ s.domain) 1 5 5 5 5]
    else []
  { authoritative := true, rcode := .noError, answer, ns }

end Server

end HopDns.Go

import HopDns.Native.CNAMEs
import HopDns.Native.Reply

/-!
# The server

`server::Server`: one question in, one answer out, without a socket.
-/

namespace HopDns

open ForStd

/-- `crate::TTL` -/
def TTL : UInt32 := 5

/-- `crate::DEFAULT_DOMAIN` -/
def DEFAULT_DOMAIN : Str := str "hop.local"

/-- The largest number of A records in one answer. -/
def MAX_ANSWERS : Nat := (EDNS_MAX - HEADER_LEN - 5) / 16

/-- The domain and the table of CNAMEs. -/
structure Server where
  domain : Str
  cnames : CNAMEs
deriving DecidableEq

/-- What a name in the domain is. -/
inductive Lookup where
  /-- the addresses in one cluster -/
  | cluster (ips : Option (List Ipv4Addr))
  /-- the addresses over all clusters -/
  | merged (job : Str)
  /-- the zone itself -/
  | apex

/-- The loop of `service` over the addresses of one cluster: it stops at the first one that
    does not fit. -/
def writeCluster (reply : Reply) : List Ipv4Addr → Reply
  | [] => reply
  | ip :: rest =>
    match (Reply.answerA ip TTL).run reply with
    | (.ok (), reply) => writeCluster reply rest
    -- what fitted stays, without the TC bit
    | (.error _, reply) => reply

/-- The two loops of `write_merged`, over the lists of addresses one after the other; `seen`
    are the addresses written, in a row of `MAX_ANSWERS`. -/
def writeMergedFrom (reply : Reply) (seen : List Ipv4Addr) : List Ipv4Addr → Reply
  | [] => reply
  | ip :: rest =>
    if seen.contains ip then writeMergedFrom reply seen rest
    -- no answer holds more than these
    else if seen.length ≥ MAX_ANSWERS then reply
    else
      match (Reply.answerA ip TTL).run reply with
      | (.ok (), reply) => writeMergedFrom reply (seen ++ [ip]) rest
      | (.error _, reply) => reply

/-- The addresses of `job` in every cluster, each one once, until the answer is full. -/
def writeMerged (cache : Cache) (job : Str) (reply : Reply) : Reply :=
  writeMergedFrom reply [] (cache.merged job).flatten

/-- `let exists` of `service` -/
def Lookup.known (cache : Cache) : Lookup → Bool
  | .apex => true
  | .cluster ips => ips.isSome
  | .merged job => cache.hasJob job || cache.hasCluster job

/-- The addresses the lookup has, written into the reply. -/
def Lookup.write (cache : Cache) (reply : Reply) : Lookup → Reply
  | .apex => reply
  | .cluster ips => writeCluster reply (ips.getD [])
  | .merged job => writeMerged cache job reply

namespace Server

/-- A server for `domain`, in any case and with or without a dot at its end; an empty one
    is `DEFAULT_DOMAIN`. -/
def new (domain : Str) : Fallible Server := do
  let d := stripDot (trim domain)
  -- white space and a dot only: the domain that is built in
  let d := if d.isEmpty then DEFAULT_DOMAIN else d
  tryReserve
  return { domain := lowercase d, cnames := CNAMEs.default }

/-- Set the static CNAMEs. -/
def setCnames (s : Server) (c : CNAMEs) : Server := { s with cnames := c }

/-- Which lookup the name is, by what stands before the domain. -/
def lookup (s : Server) (cache : Cache) (name : Str) : Lookup :=
  -- the name is the domain itself: nothing stands before it
  if name.length < s.domain.length + 1 then .apex
  else
    let pre := name.take (name.length - (s.domain.length + 1))
    -- at the first dot: the rest is the name of a cluster, dots and all
    match pre.splitOnce dot with
    | some (service, cluster) => .cluster (cache.getCluster cluster service)
    | none => .merged pre

/-- The end of `service`: a reply without answers gets the SOA record. -/
def serviceEnd (s : Server) (known : Bool) : Method Error Reply Unit := do
  let reply ← Method.get
  -- a name that is there without an address is an empty answer, not a denial
  if reply.answers = 0 then
    if !known then
      Method.modify fun reply => reply.setRcode .nxDomain
    Reply.authoritySoa s.domain TTL

/-- A name in our domain. -/
def service (s : Server) (cache : Cache) (name : Str) (qtype : UInt16) :
    Method Error Reply Unit := do
  let lookup := s.lookup cache name
  let known := lookup.known cache
  if qtype = rtype.A ∨ qtype = rtype.ANY then
    Method.modify fun reply => lookup.write cache reply
  s.serviceEnd known

/-- Fill the reply for the question `q`. -/
def answer (s : Server) (cache : Cache) (q : Query) : Method Error Reply Unit :=
  match nameText q.qname with
  | none => Method.modify fun reply => reply.setRcode .refused
  | some name =>
    if q.qclass ≠ CLASS_IN ∧ q.qclass ≠ CLASS_ANY then
      Method.modify fun reply => reply.setRcode .refused
    else
      match s.cnames.lookup name with
      | some target => Reply.answerCname target TTL
      | none =>
        if inZone name s.domain then s.service cache name q.qtype
        else
          match s.cnames.zoneOf name with
          | some zone => do
            Method.modify fun reply => reply.setRcode .nxDomain
            Reply.authoritySoa zone TTL
          | none => Method.modify fun reply => reply.setRcode .refused

/-- `usize::clamp` of the offered size; 512 without EDNS. -/
def limitFor (edns : Option UInt16) : Nat :=
  match edns with
  | none => UDP_MAX
  | some size => max UDP_MAX (min size.toNat EDNS_MAX)

/-- The answer to the datagram `msg`, written in `out`: its length, or `none` when nothing
    goes back, and the buffer as it then is. -/
def handle (s : Server) (cache : Cache) (msg out : List UInt8) : Option Nat × List UInt8 :=
  match parseQuery msg with
  | .error .drop => (none, out)
  | .error (.reply id flags rcode) =>
    match (Reply.bare id flags rcode UDP_MAX).run out with
    | (.ok reply, _) => let (len, out) := reply.finish; (some len, out)
    | (.error _, out) => (none, out)
  | .ok q =>
    match (Reply.start q (limitFor q.edns)).run out with
    | (.error _, out) => (none, out)
    | (.ok reply, _) =>
      let reply := match (s.answer cache q).run reply with
        | (.ok (), reply) => reply
        | (.error _, reply) => reply.setRcode .servFail
      let (len, out) := reply.finish
      (some len, out)

end Server

end HopDns

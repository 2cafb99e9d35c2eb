import HopDns.Native.Config
import HopDns.Native.Daemon

/-!
# How the two programs start

`main` of `bin/hopdns.rs` and `Daemon::start` of `host.rs`: from the arguments to a socket, a
server and a thread for each peer. And `resident` of `bin/hopdns-hopos.rs`: from the environment
to the same, with tasks. What `std`, `hoplib` and the executor answer is left open, and the lines
that are logged on the way are left out.
-/

namespace HopDns

open ForStd

/-! ## Errors as they are shown -/

/-- A `usize` in `write!`. -/
def decimalNat (n : Nat) : Str := (Nat.toDigits 10 n).map fun c => UInt8.ofNat c.toNat

/-- `impl Display for Error` -/
def Error.text : Error → Str
  | .outOfMemory => str "out of memory"
  | .help => str "help requested"
  | .unknownFlag pos => str "argument " ++ decimalNat pos ++ str ": unknown flag"
  | .missingValue pos => str "argument " ++ decimalNat pos ++ str ": flag needs a value"
  | .unexpectedArgument pos => str "argument " ++ decimalNat pos ++ str ": not a flag"
  | .noPeer => str "at least one -peer required (e.g., -peer http://127.0.0.1:8080)"
  | .badListen => str "listen address is not host:port"
  | .badPeer => str "peer is not an http:// or https:// URL"
  | .yaml line => str "config: cannot read line " ++ decimalNat line
  | .noClusterName => str "remote cluster did not report cluster_name (upgrade hop?)"
  | .badName => str "name does not fit DNS"
  | .noRoom => str "message does not fit the buffer"
  | .malformed => str "malformed DNS message"

/-- `HostError`; an error of the system or of `hoplib` by its text. -/
inductive HostError where
  | core (e : Error)
  | io (what err : Str)
  | hop (err : Str)
deriving DecidableEq, Repr

/-- `impl Display for HostError` -/
def HostError.text : HostError → Str
  | core e => e.text
  | io what err => what ++ str ": " ++ err
  | hop err => err

/-! ## The listen address -/

/-- `str::parse::<u16>`: a sign may stand before the digits, and any number of zeros. -/
def parseU16 (s : Str) : Option UInt16 :=
  let digits := match s with
    | sign :: first :: rest => if sign = 0x2B then first :: rest else s
    | _ => s
  if digits.isEmpty ∨ ¬digits.all (fun b => 0x30 ≤ b ∧ b ≤ 0x39) then none
  else
    let n := digits.foldl (fun n b => 10 * n + (b.toNat - 0x30)) 0
    if n < 65536 then some (UInt16.ofNat n) else none

/-- `config::parse_listen`: `:5353` is any address. -/
def parseListen (s : Str) : Option (Ipv4Addr × UInt16) := do
  let (host, port) ← s.rsplitOnce colon
  let port ← parseU16 port
  let ip ←
    if host = [] then some ⟨0, 0, 0, 0⟩
    else if host = str "localhost" then some ⟨127, 0, 0, 1⟩
    else parseIpv4 host
  return (ip, port)

/-! ## The daemon of a host -/

namespace Config

/-- The table of the static CNAMEs of the file. -/
def cnameTable (c : Config) : Fallible CNAMEs := CNAMEs.new c.cnames

end Config

/-- What a host answers: the file system, the socket, `Client::new` and `thread::Builder::spawn`;
    an error by its text. The last two are called once for each peer, and what they answer goes by
    its place as well, for two calls with the same arguments need not end alike. -/
structure Host where
  readToString : Str → Except Str Str
  bind : Ipv4Addr × UInt16 → Except Str Unit
  setReadTimeout : Except Str Unit
  client : Nat → Str → Option Str → Except Str Unit
  spawn : Nat → Str → Except Str Unit

/-- What a start has brought about. -/
structure Begun where
  bound : Option (Ipv4Addr × UInt16)
  /-- the peers whose threads run -/
  watchers : List Config.Peer
deriving DecidableEq, Repr

namespace Host

variable {α : Type}

/-- `?` on a result of the core. -/
def core (x : Fallible α) : Method HostError (Begun × Mem) α :=
  Method.mapError .core (Method.alloc x)

/-- `?` on a result of the host. -/
def check (r : Except Str α) (error : Str → HostError) : Method HostError (Begun × Mem) α :=
  Method.mapError error (Method.ofExcept r)

/-- `load_config` -/
def loadConfig (host : Host) (path : Str) : Method HostError (Begun × Mem) Config := do
  let text ← check (host.readToString path) (.io (str "read config"))
  core (Config.parse text)

/-- The loop of `start` over the peers, each with its place. -/
def startWatchers (host : Host) (apiKey : Str) :
    List (Str × Nat) → Method HostError (Begun × Mem) Unit
  | [] => return ()
  | (raw, i) :: rest => do
    let peer ← core (Config.Peer.parse raw apiKey)
    check (host.client i peer.endpoint peer.apiKey) .hop
    check (host.spawn i (str "watch " ++ peer.endpoint)) (.io (str "spawn watcher"))
    let b ← Method.self
    Method.put { b with watchers := b.watchers ++ [peer] }
    startWatchers host apiKey rest

/-- `Daemon::start`: the server, once the socket is bound and every watcher runs. -/
def start (host : Host) (flags : Flags) : Method HostError (Begun × Mem) Server := do
  let cnames ← match flags.config with
    | some path => do
      let config ← host.loadConfig path
      core config.cnameTable
    -- without a file there are no CNAMEs
    | none => pure CNAMEs.default
  let server ← core (Server.new flags.domain)
  let server := server.setCnames cnames
  let address ← core (Method.okOr (parseListen flags.listen) .badListen)
  check (host.bind address) (.io (str "bind udp"))
  let b ← Method.self
  -- from here on the socket is bound, whatever happens to the peers
  Method.put { b with bound := some address }
  check host.setReadTimeout (.io (str "udp read timeout"))
  host.startWatchers flags.apiKey flags.peers.zipIdx
  return server

end Host

/-! ## The program -/

/-- `config::USAGE` -/
def USAGE : Str :=
  str "usage: hopdns -peer URL [-peer URL ...] [-listen ADDR] [-domain NAME] [-api-key KEY] " ++
  str "[-config FILE]\n\n" ++
  str "  -listen ADDR    DNS address to listen on (default :5353, use :53 for standard DNS)\n" ++
  str "  -peer URL       cluster agent endpoint, repeatable " ++
  str "(e.g. -peer http://host:8080 -peer http://key@host:8080)\n" ++
  str "  -domain NAME    DNS domain suffix (default hop.local)\n" ++
  str "  -api-key KEY    default API key (overridden by key@ in a peer URL)\n" ++
  str "  -config FILE    optional YAML config (static CNAMEs)"

/-- What `main` prints on its own, and the exit code. -/
structure Exit where
  out : Str
  err : Str
  code : UInt8
deriving DecidableEq, Repr

/-- The argument that an error of the flags is about. -/
def argumentAt (args : List Str) : Error → Option Str
  | .unknownFlag pos => args[pos]?
  | .missingValue pos => args[pos]?
  | .unexpectedArgument pos => args[pos]?
  | _ => none

/-- What is printed of an error of the flags. -/
def refusal (args : List Str) (e : Error) : Str :=
  match argumentAt args e with
  | some arg => str "hopdns: " ++ arg ++ str ": " ++ e.text ++ newline :: (USAGE ++ [newline])
  | none => str "hopdns: " ++ e.text ++ newline :: (USAGE ++ [newline])

/-- `main`: `daemon` is what becomes of the daemon for the flags, if it ends. -/
def main (args : List Str) (daemon : Flags → Except HostError Unit) (mem : Mem) : Exit :=
  match ((Flags.parse args).run mem).1 with
  | .error .help => ⟨USAGE ++ [newline], [], 0⟩
  | .error e => ⟨[], refusal args e, 2⟩
  | .ok flags =>
    match daemon flags with
    | .error e => ⟨[], str "hopdns: DNS server error: " ++ e.text ++ str " HOPDNS_FATAL\n", 1⟩
    | .ok () => ⟨[], [], 0⟩

/-! ## The resident of HopOS -/

/-- `DEFAULT_PORT` -/
def DEFAULT_PORT : UInt16 := 5353

/-- `DEFAULT_PEER`: the leader of the own Hop. -/
def DEFAULT_PEER : Str := str "http://HOP:9080"

/-- `HOP_ALIAS` -/
def HOP_ALIAS : Str := str "HOP"

/-- `HOP_SLOT` -/
def HOP_SLOT : UInt64 := 1

/-- `MAX_PEERS`: as many peers have a mailbox. -/
def MAX_PEERS : Nat := 4

/-- `port_of`: the default port when there is none, or nonsense, or 0. -/
def portOf (env : Option Str) : UInt16 :=
  match env.map parseU16 with
  | none => DEFAULT_PORT
  | some (some port) => if port ≠ 0 then port else DEFAULT_PORT
  | some none => DEFAULT_PORT

/-- `config::peer_list` -/
def peerList (s : Str) : List Str := ((s.splitOn 0x2C).map trim).filter fun peer => !peer.isEmpty

/-- What HopOS answers: the environment, the network, the addresses of the slots and
    `Client::new`, the last by the place of the peer as well. -/
structure Os where
  env : Str → Option Str
  up : Except Str Unit
  slotIp : UInt64 → Ipv4Addr
  udpBind : UInt16 → Except Str Unit
  client : Nat → Str → Option Str → Except Str Unit

/-- What `start_peers` has brought about. A mailbox of `HEARD` goes by its number. -/
structure Peers where
  /-- the mailboxes that a reader posts to -/
  readers : List Nat
  /-- the watchers, each with the mailbox it takes from -/
  watchers : List (Nat × Config.Peer)
  /-- `n` -/
  started : Nat
  /-- what the executor answers to the next calls of `spawn`; past the end it takes any task -/
  slots : List Bool
deriving DecidableEq, Repr

namespace Peers

/-- `exec.spawn` -/
def spawn : List Bool → Bool × List Bool
  | [] => (true, [])
  | took :: slots => (took, slots)

/-- The reader and the watcher of a peer; a reader stays when there is no room for the watcher. -/
def add (p : Peers) (inbox : Nat) (peer : Config.Peer) : Peers :=
  match spawn p.slots with
  | (false, slots) => { p with slots }
  | (true, slots) =>
    match spawn slots with
    | (false, slots) => { p with readers := p.readers ++ [inbox], slots }
    | (true, slots) =>
      { readers := p.readers ++ [inbox], watchers := p.watchers ++ [(inbox, peer)],
        started := p.started + 1, slots }

end Peers

/-- A peer of the list: the alias in its URL stands for the address of Hop. -/
def peerOf (hop : Ipv4Addr) (key raw : Str) : Fallible Config.Peer := do
  let url ← Config.withHostAlias raw HOP_ALIAS hop
  Config.Peer.parse url key

namespace Os

/-- The loop of `start_peers`: a peer that fails is passed over, with its mailbox. -/
def startPeersFrom (os : Os) (key : Str) : List (Str × Nat) → Peers × Mem → Peers × Mem
  | [], s => s
  | (raw, inbox) :: rest, (p, mem) =>
    match (peerOf (os.slotIp HOP_SLOT) key raw).run mem with
    | (.error _, mem) => startPeersFrom os key rest (p, mem)
    | (.ok peer, mem) =>
      match os.client inbox peer.endpoint peer.apiKey with
      | .error _ => startPeersFrom os key rest (p, mem)
      | .ok () => startPeersFrom os key rest (p.add inbox peer, mem)

/-- `start_peers` -/
def startPeers (os : Os) (list key : Str) (slots : List Bool) (mem : Mem) : Peers × Mem :=
  os.startPeersFrom key ((peerList list).zip (List.range MAX_PEERS)) (⟨[], [], 0, slots⟩, mem)

/-- What the resident runs on. -/
structure Resident where
  server : Server
  port : UInt16
  peers : Peers
  /-- the id of the own node -/
  node : Option Str
  /-- the name that the self test asks for, where its task runs -/
  selftest : Option Str
deriving DecidableEq

/-- The domain, as the environment gives it. -/
def domain (os : Os) : Str := (os.env (str "HOPDNS_DOMAIN")).getD DEFAULT_DOMAIN

/-- The key of the peers without one of their own. -/
def apiKey (os : Os) : Str :=
  ((os.env (str "HOPDNS_API_KEY")).or (os.env (str "HOP_API_KEY"))).getD []

/-- The list of the peers. -/
def peers (os : Os) : Str :=
  ((os.env (str "HOPDNS_PEER")).or (os.env (str "HOPDNS_PEERS"))).getD DEFAULT_PEER

/-- `resident`, up to `serve`; `none` when it exits. -/
def resident (os : Os) (slots : List Bool) (mem : Mem) : Option Resident :=
  match os.up with
  | .error _ => none
  | .ok () =>
    let port := portOf (os.env (str "ER_PORT_DNS"))
    match (Server.new os.domain).run mem with
    | (.error _, _) => none
    | (.ok server, mem) =>
      match os.udpBind port with
      | .error _ => none
      | .ok () =>
        let peers := (os.startPeers os.peers os.apiKey slots mem).1
        let selftest := (os.env (str "HOPDNS_SELFTEST")).map fun job => job ++ dot :: server.domain
        some {
          server, port, peers
          node := os.env (str "ER_ATTR_NODE_ID")
          -- the task of the self test is the last; without room for it the resident goes on
          selftest := selftest.filter fun _ => (Peers.spawn peers.slots).1 }

end Os

end HopDns

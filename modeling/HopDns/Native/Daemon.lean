import Mathlib.Logic.Function.Basic
import HopDns.Native.Loop
import HopDns.Native.Server

/-!
# The daemon

The two programs as a whole: the loop of a watcher for each peer, the channel of their
messages, and `serve`, which owns the cache and answers the questions. On the host these
are threads, an `mpsc::channel` takes any number of messages, and `serve` takes what is
there between two questions; on HopOS they are tasks, the `Mailbox` holds 16 messages and
makes a sender wait (`post`), and `serve` waits for a question or a message, whichever
comes first.

The stream and the answers of Hop are left open, as in the loop of a peer, and so is the
clock of the socket. The channel and the mailbox are not part of the crate; what is taken for
granted about them is in the steps:

- each keeps the messages in the order in which they came, loses none and delivers each once;
- `send` of the channel of the host always takes a message;
- the `Mailbox` of `UPDATES` takes one while there are less than 16 in it, and the sender that
  waits for room is one that has not posted yet.
-/

namespace HopDns

open ForStd

/-- `usize::MAX` -/
def USIZE_MAX : Nat := 18446744073709551615

/-- `QUERY_MAX`: the largest question that is read. -/
def Platform.QUERY_MAX : Platform → Nat
  | .host => 4096
  | .hopos => 1500

/-- The channel takes one message more: `send` always does, `try_send` of the mailbox `UPDATES`
    while there are less than 16 in it. -/
def Platform.HasRoom : Platform → List Update → Prop
  | .host, _ => True
  | .hopos, bus => bus.length < 16

instance : (p : Platform) → (bus : List Update) → Decidable (p.HasRoom bus)
  | .host, _ => inferInstanceAs (Decidable True)
  | .hopos, bus => inferInstanceAs (Decidable (bus.length < 16))

/-- What `serve` has in its hands. -/
structure Owner where
  server : Server
  cache : Cache
  mem : Mem
  /-- the buffer for the answers, which is used again and again -/
  answer : List UInt8
  /-- the numbers of jobs and clusters that were logged last -/
  shown : Nat × Nat

namespace Owner

/-- The body of `drain` in `host.rs`, and `apply` in `bin/hopdns-hopos.rs`: lay one message in
    the cache; one that fails is dropped. -/
def apply (o : Owner) (u : Update) : Owner :=
  { o with cache := (u.apply.run (o.cache, o.mem)).2.1, mem := (u.apply.run (o.cache, o.mem)).2.2 }

/-- The answer to a datagram, if one goes back. -/
def reply (o : Owner) (msg : List UInt8) : Option (List UInt8) × Owner :=
  let (len, answer) := o.server.handle o.cache msg o.answer
  (len.bind fun n => answer.getRange? 0 n, { o with answer })

/-- The end of a batch on HopOS: the numbers are logged when they are others than those logged
    last. -/
def mark (o : Owner) : Option (Nat × Nat) × Owner :=
  let now := (o.cache.jobs, o.cache.clustersLen)
  if now ≠ o.shown then (some now, { o with shown := now }) else (none, o)

end Owner

/-- Where `serve` stands. -/
inductive Stand where
  /-- in the loop that takes the messages that are there -/
  | draining
  /-- at the socket; on HopOS, at the socket and the mailbox -/
  | receiving
  /-- the socket failed, and the program ends -/
  | ended
deriving DecidableEq

namespace Platform

/-- Where `serve` begins, and where it goes after a question: the host looks at the channel
    first. -/
def front : Platform → Stand
  | .host => .draining
  | .hopos => .receiving

/-- Where `serve` can take a message: `recv` of the mailbox stands beside the socket. -/
def Takes : Platform → Stand → Prop
  | _, .draining => True
  | .host, .receiving => False
  | .hopos, .receiving => True
  | _, .ended => False

instance : (p : Platform) → (stand : Stand) → Decidable (p.Takes stand)
  | .host, .draining => inferInstanceAs (Decidable True)
  | .hopos, .draining => inferInstanceAs (Decidable True)
  | .host, .receiving => inferInstanceAs (Decidable False)
  | .hopos, .receiving => inferInstanceAs (Decidable True)
  | .host, .ended => inferInstanceAs (Decidable False)
  | .hopos, .ended => inferInstanceAs (Decidable False)

/-- What happens at the end of a batch: only HopOS logs. -/
def endBatch : Platform → Owner → Option (Nat × Nat) × Owner
  | .host, o => (none, o)
  | .hopos, o => o.mark

end Platform

/-- The daemon, with the peers `ι`. -/
structure Daemon (ι : Type) where
  loops : ι → Loop
  /-- the number of messages of a peer that went into the channel -/
  posted : ι → Nat
  /-- the messages in the channel -/
  bus : List Update
  owner : Owner
  stand : Stand

namespace Daemon

variable {ι α : Type}

/-- What happens; `α` are the addresses of the askers. -/
inductive Act (ι α : Type) where
  | peer (i : ι) (act : Loop.Act)
  /-- a message of the peer goes into the channel -/
  | post (i : ι) (u : Update)
  | take (u : Update)
  /-- the channel is empty, and the batch ends; what is logged -/
  | empty (marker : Option (Nat × Nat))
  /-- a datagram came, and what is sent back -/
  | question (asker : α) (datagram : List UInt8) (reply : Option (List UInt8))
  /-- nothing was received: the host waits no longer than `DRAIN_EVERY`, and a refusal or, on
      HopOS, any error is passed over -/
  | quiet
  | failed

/-- The steps of the daemon. -/
inductive Step [DecidableEq ι] (p : Platform) : Daemon ι → Act ι α → Daemon ι → Prop where
  -- a watcher goes on when the message it made last is in the channel
  | peer {d : Daemon ι} {l : Loop} (i : ι) (act : Loop.Act)
      (hheld : d.posted i = (d.loops i).sent.length) (hstep : Loop.Step p (d.loops i) act l) :
      Step p d (.peer i act) { d with loops := Function.update d.loops i l }
  -- a full channel holds the watcher up, and drops nothing
  | post {d : Daemon ι} (i : ι) (u : Update) (hheld : (d.loops i).sent[d.posted i]? = some u)
      (hroom : p.HasRoom d.bus) :
      Step p d (.post i u)
        { d with bus := d.bus ++ [u], posted := Function.update d.posted i (d.posted i + 1) }
  -- what is taken goes into the cache before the next message is looked at
  | take {d : Daemon ι} (u : Update) (rest : List Update) (hbus : d.bus = u :: rest)
      (hstand : p.Takes d.stand) :
      Step p d (.take u) { d with bus := rest, owner := d.owner.apply u, stand := .draining }
  | empty {d : Daemon ι} (hbus : d.bus = []) (hstand : d.stand = .draining) :
      Step p d (.empty (p.endBatch d.owner).1)
        { d with owner := (p.endBatch d.owner).2, stand := .receiving }
  -- a datagram longer than the buffer is cut off, and the reply is drawn up at once
  | question {d : Daemon ι} (asker : α) (datagram : List UInt8) (hstand : d.stand = .receiving) :
      Step p d (.question asker datagram (d.owner.reply (datagram.take p.QUERY_MAX)).1)
        { d with owner := (d.owner.reply (datagram.take p.QUERY_MAX)).2, stand := p.front }
  | quiet {d : Daemon ι} (hstand : d.stand = .receiving) :
      Step p d .quiet { d with stand := p.front }
  -- on the host any other error of the socket ends the daemon
  | failed {d : Daemon ι} (hp : p = .host) (hstand : d.stand = .receiving) :
      Step p d .failed { d with stand := .ended }

/-- The daemon when it starts: new watchers, an empty channel and an empty cache. -/
structure Initial (p : Platform) (d : Daemon ι) : Prop where
  loops : ∀ i, (d.loops i).Initial
  posted : ∀ i, d.posted i = 0
  bus : d.bus = []
  cache : d.owner.cache = Cache.new
  answer : d.owner.answer = List.replicate EDNS_MAX 0
  shown : d.owner.shown = (USIZE_MAX, USIZE_MAX)
  stand : d.stand = p.front

end Daemon

end HopDns

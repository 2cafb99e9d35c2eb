import HopDns.ForStd.Simulation
import HopDns.Native.Daemon
import HopDns.Spec.CacheCorrect
import HopDns.Spec.Decision

/-!
# What the daemon is for

The messages of all peers in one order, a first part of which is in the cache, and
answers that come from the cache as it is then. Nothing is said of threads, tasks,
channels and buffers: this is what a user of the daemon may take it for.

## Key results

- `Ledger.Step`: the steps of the abstract daemon
- `Owner.reply_eq`: an answer owes nothing to the buffer it is written in
-/

namespace HopDns

open ForStd

/-- What goes back for a datagram, from a cache: nothing, or the reply. -/
def Server.respond (s : Server) (cache : Cache) (msg : List UInt8) : Option (List UInt8) :=
  let (len, out) := s.handle cache msg (List.replicate EDNS_MAX 0)
  len.map fun n => out.take n

/-- The messages that were sent, in the order in which they were, and how many of them are in
    the cache. -/
structure Ledger where
  log : List Update
  taken : Nat

namespace Ledger

variable {α : Type}

/-- The cache that the messages taken leave, and what the allocator will answer. -/
def store (k : Ledger) (mem : Mem) : Cache × Mem := drain (k.log.take k.taken) (Cache.new, mem)

/-- What shows of a daemon. -/
inductive Entry (α : Type) where
  | send (u : Update)
  | take
  | answer (asker : α) (datagram : List UInt8) (reply : Option (List UInt8))

/-- The steps of the abstract daemon of a server, which reads at most `size` bytes of a
    datagram. -/
inductive Step (s : Server) (mem : Mem) (size : Nat) : Ledger → Entry α → Ledger → Prop where
  | send {k : Ledger} (u : Update) : Step s mem size k (.send u) ⟨k.log ++ [u], k.taken⟩
  | take {k : Ledger} (h : k.taken < k.log.length) :
      Step s mem size k .take ⟨k.log, k.taken + 1⟩
  | answer {k : Ledger} (asker : α) (datagram : List UInt8) :
      Step s mem size k
        (.answer asker datagram (s.respond (k.store mem).1 (datagram.take size))) k

/-- The message that is sent. -/
def Entry.sends : Entry α → Option Update
  | .send u => some u
  | _ => none

/-- A step never takes back what was sent or taken. -/
theorem Step.log {s : Server} {mem : Mem} {size : Nat} {k k' : Ledger} {e : Entry α}
    (h : Step s mem size k e k') :
    k'.log = k.log ++ e.sends.toList ∧ k.taken ≤ k'.taken := by
  cases h with
  | send u => exact ⟨rfl, Nat.le_refl _⟩
  | take h => exact ⟨(List.append_nil _).symm, Nat.le_succ _⟩
  | answer asker datagram => exact ⟨(List.append_nil _).symm, Nat.le_refl _⟩

/-- The log of a run holds what was sent, in order. -/
theorem run_log {s : Server} {mem : Mem} {size : Nat} {k k' : Ledger} {es : List (Entry α)}
    (h : Run (Step s mem size) k es k') : k'.log = k.log ++ es.filterMap Entry.sends := by
  induction h with
  | nil k => exact (List.append_nil _).symm
  | @cons k k₁ k' e es hstep _ ih =>
    rw [ih, hstep.log.1, List.append_assoc]
    cases hsends : e.sends with
    | none => rw [List.filterMap_cons_none hsends]; rfl
    | some u => rw [List.filterMap_cons_some hsends]; rfl

/-- Nothing was sent. -/
def start : Ledger := ⟨[], 0⟩

/-- One message more in the cache. -/
theorem store_take {k : Ledger} {u : Update} (h : k.log[k.taken]? = some u) (mem : Mem) :
    store ⟨k.log, k.taken + 1⟩ mem = (u.apply.run (k.store mem)).2 := by
  unfold store drain
  rw [List.take_add_one, h, Option.toList_some, List.foldl_append]
  rfl

/-- A message that is sent is not yet in the cache. -/
theorem store_send {k : Ledger} (h : k.taken ≤ k.log.length) (u : Update) (mem : Mem) :
    store ⟨k.log ++ [u], k.taken⟩ mem = k.store mem := by
  unfold store
  rw [List.take_append_of_le_length h]

end Ledger

namespace Server

variable {s : Server} {cache : Cache} {msg out : List UInt8}

/-- A datagram is dropped, or the reply that is drawn up to it goes back. -/
theorem dropped_or_drafted (s : Server) (cache : Cache) (msg : List UInt8)
    (hout : UDP_MAX ≤ out.length) :
    parseQuery msg = .error .drop ∨ ∃ d, Drafted s cache msg out d := by
  cases hq : parseQuery msg with
  | ok q =>
    obtain ⟨n, hn⟩ := Query.exists_asks hq
    exact .inr ⟨_, .answer hq hn (fits_of_le hn hout)⟩
  | error bad =>
    cases bad with
    | drop => exact .inl rfl
    | reply id flags rcode =>
      exact .inr ⟨_, .bare hq (Nat.le_trans (by decide) hout)⟩

theorem respond_of_drop (hdrop : parseQuery msg = .error .drop) : s.respond cache msg = none := by
  rw [respond, handle_drop s cache _ hdrop]
  rfl

/-- What is drafted is sent, closed. -/
theorem Drafted.respond_eq {d : Draft}
    (hd : Drafted s cache msg (List.replicate EDNS_MAX 0) d) :
    s.respond cache msg = some d.closed := by
  obtain ⟨buf, hrun, -, htake⟩ := hd.handle_eq
  rw [respond, hrun]
  exact congrArg some htake

/-- The answer to a question is the message that its verdict is drawn up as. -/
theorem respond_replyTo (s : Server) (cache : Cache) {q : Query} (h : parseQuery msg = .ok q)
    {n : Dns.Name} (hn : q.Asks n) :
    ∃ bytes, s.respond cache msg = some bytes ∧
      Dns.Message.read bytes = some (s.replyTo cache q n (limitFor q.edns)) := by
  have hout : EDNS_MAX ≤ (List.replicate EDNS_MAX (0 : UInt8)).length :=
    Nat.le_of_eq List.length_replicate.symm
  have hfits := fits_of_le hn (Nat.le_trans (by decide : UDP_MAX ≤ EDNS_MAX) hout)
  have hlimit : replyLimit q (List.replicate EDNS_MAX 0) = limitFor q.edns :=
    Nat.min_eq_left (Nat.le_trans (limitFor_le q.edns) hout)
  have hdrafted : Drafted s cache msg (List.replicate EDNS_MAX 0)
      (s.replyDraft cache q n (limitFor q.edns)) := hlimit ▸ .answer h hn hfits
  exact ⟨_, hdrafted.respond_eq, hdrafted.sound.read_closed⟩

/-- A question leaves room for one address, even in the smallest reply. -/
private theorem address_fits {q : Query} {n : Dns.Name} (hn : q.Asks n) :
    16 ≤ spare q (limitFor q.edns) := by
  have hwire := n.length_wire_le
  have hmin := le_limitFor q.edns
  have hreserve : Reply.reserve q.edns ≤ 11 := by
    unfold Reply.reserve OPT_LEN
    split <;> omega
  rw [spare, hn.length_question]
  unfold UDP_MAX at hmin
  unfold HEADER_LEN
  omega

/-- What is decided of a question is what its reply says. -/
theorem replyTo_follows (s : Server) (cache : Cache) {q : Query} {n : Dns.Name} (hn : q.Asks n) :
    Decides s cache q (spare q (limitFor q.edns)) (s.replyTo cache q n (limitFor q.edns)) := by
  have hdecides := @replyTo_decides s cache q n (limitFor q.edns) (by
    rw [room_startDraft hn]
    exact address_fits hn)
  rwa [room_startDraft hn] at hdecides

/-- An answer to a question follows the decision table. -/
theorem respond_decides (s : Server) (cache : Cache) {q : Query} (h : parseQuery msg = .ok q) :
    ∃ bytes m, s.respond cache msg = some bytes ∧ Dns.Message.read bytes = some m ∧
      Decides s cache q (spare q (limitFor q.edns)) m := by
  obtain ⟨n, hn⟩ := Query.exists_asks h
  obtain ⟨bytes, hbytes, hread⟩ := s.respond_replyTo cache h hn
  exact ⟨bytes, _, hbytes, hread, s.replyTo_follows cache hn⟩

end Server

namespace Owner

/-- An answer is what the server makes of the cache, whatever the buffer held before; and the
    buffer keeps its size. -/
theorem reply_eq {o : Owner} (h : o.answer.length = EDNS_MAX) (msg : List UInt8) :
    (o.reply msg).1 = o.server.respond o.cache msg ∧
      (o.reply msg).2.answer.length = EDNS_MAX := by
  -- the datagram is dropped, or a draft of the reply is drawn up
  obtain hdrop | ⟨d, hd⟩ := Server.dropped_or_drafted o.server o.cache msg
    (show UDP_MAX ≤ o.answer.length by rw [h]; decide)
  · rw [reply, Server.handle_drop o.server o.cache _ hdrop, Server.respond_of_drop hdrop]
    exact ⟨rfl, h⟩
  · -- what is drawn up owes the buffer its length only
    have hfresh : Server.Drafted o.server o.cache msg (List.replicate EDNS_MAX 0) d :=
      hd.of_length_eq (by rw [h, List.length_replicate])
    obtain ⟨buf, hrun, hsize, htake⟩ := hd.handle_eq
    -- the closed draft is what was written, so it lies in the buffer
    have hle : d.closed.length ≤ buf.length := by
      rw [← htake, List.length_take]
      exact Nat.min_le_right _ _
    -- both sides are the bytes of the same draft
    rw [reply, hrun, hfresh.respond_eq]
    refine ⟨?_, hsize.trans h⟩
    simp only [Option.bind_some, List.getRange?, Nat.zero_le, hle, and_self, if_true,
      List.drop_zero, htake]

end Owner

end HopDns

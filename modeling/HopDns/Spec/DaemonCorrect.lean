import HopDns.Spec.AnswerCorrect
import HopDns.Spec.Ledger
import HopDns.Spec.LoopCorrect

/-!
# The daemon does what it is for

Whatever the interleaving of the watchers, of the channel and of the questions, and on
either platform, the daemon shows the steps of a `Ledger`.

## Key results

- `Daemon.Follows.step`: a step of the daemon is one of the ledger
- `Daemon.serves_ledger`: so is every run
- `Daemon.host_catches_up`: on the host, a message that was sent is missed by one answer at most
-/

namespace HopDns

open ForStd

/-- A step of a loop sends at most one message, behind those it has sent. -/
theorem Loop.Step.sent {p : Platform} {l l' : Loop} {act : Loop.Act} (h : Loop.Step p l act l') :
    ∃ u : Option Update, l'.sent = l.sent ++ u.toList := by
  cases h with
  | turn now began => exact ⟨none, (List.append_nil _).symm⟩
  | status now name => exact ⟨_, rfl⟩
  | agents now agents => exact ⟨_, rfl⟩
  | tasks now agents tasks here => exact ⟨_, rfl⟩
  | job now all job rest status here => exact ⟨_, rfl⟩
  | failed now what => exact ⟨_, rfl⟩
  | hear now h => exact ⟨_, rfl⟩
  | timeout now => exact ⟨_, rfl⟩

namespace Daemon

variable {ι α : Type} [DecidableEq ι] {p : Platform} {s : Server} {mem : Mem}

/-- What shows of a step. -/
def Act.shows : Act ι α → Option (Ledger.Entry α)
  | .post _ u => some (.send u)
  | .take _ => some .take
  | .question asker datagram reply => some (.answer asker datagram reply)
  | _ => none

/-- The daemon stands where the ledger does. -/
structure Follows (s : Server) (mem : Mem) (d : Daemon ι) (k : Ledger) : Prop where
  server : d.owner.server = s
  answer : d.owner.answer.length = EDNS_MAX
  /-- the cache is the one that the messages taken leave -/
  store : (d.owner.cache, d.owner.mem) = k.store mem
  taken : k.taken ≤ k.log.length
  /-- the channel holds the others -/
  bus : d.bus = k.log.drop k.taken
  posted : ∀ i, d.posted i ≤ (d.loops i).sent.length
  /-- the log holds what each peer has sent, in its order -/
  arrived : Interleaving (fun i => (d.loops i).sent.take (d.posted i)) k.log

/-- The end of a batch changes no more than what was logged. -/
theorem endBatch_frame (p : Platform) (o : Owner) :
    (p.endBatch o).2.server = o.server ∧ (p.endBatch o).2.answer = o.answer ∧
      (p.endBatch o).2.cache = o.cache ∧ (p.endBatch o).2.mem = o.mem := by
  cases p with
  | host => exact ⟨rfl, rfl, rfl, rfl⟩
  | hopos =>
    unfold Platform.endBatch Owner.mark
    simp only
    split <;> exact ⟨rfl, rfl, rfl, rfl⟩

omit [DecidableEq ι] in
/-- A daemon that starts follows the empty ledger. -/
private theorem Initial.follows {d : Daemon ι} (h : d.Initial p) :
    Follows d.owner.server d.owner.mem d Ledger.start where
  server := rfl
  answer := by rw [h.answer, List.length_replicate]
  store := by rw [h.cache]; rfl
  taken := Nat.le_refl 0
  bus := h.bus
  posted := fun i => by rw [h.posted i]; exact Nat.zero_le _
  arrived := .nil fun i => by rw [h.posted i]; rfl

section

variable {d : Daemon ι} {k : Ledger}

/-- A loop that goes on has nothing in the channel that it had not before. -/
theorem Follows.peer (h : Follows s mem d k) {i : ι} {act : Loop.Act} {l : Loop}
    (hheld : d.posted i = (d.loops i).sent.length) (hstep : Loop.Step p (d.loops i) act l) :
    Follows s mem { d with loops := Function.update d.loops i l } k := by
  -- what a peer has sent only grows, so what was taken over from it stands
  obtain ⟨us, hus⟩ := hstep.sent
  have hsent : ∀ j, d.posted j ≤ (Function.update d.loops i l j).sent.length ∧
      (Function.update d.loops i l j).sent.take (d.posted j) =
        (d.loops j).sent.take (d.posted j) := by
    intro j
    -- the loops of the other peers are as they were
    by_cases hj : j = i
    · subst hj
      rw [Function.update_self, hus, List.take_append_of_le_length (h.posted j)]
      exact ⟨by rw [List.length_append]; omega, rfl⟩
    · rw [Function.update_of_ne hj]
      exact ⟨h.posted j, rfl⟩
  -- only the part about what was posted speaks of the loops
  refine ⟨h.server, h.answer, h.store, h.taken, h.bus, fun j => (hsent j).1, ?_⟩
  simp only [(hsent _).2]
  exact h.arrived

/-- The message that goes into the channel is the next one of its peer, and the last one of the
    log. -/
theorem Follows.post (h : Follows s mem d k) {i : ι} {u : Update}
    (hheld : (d.loops i).sent[d.posted i]? = some u) :
    Follows s mem
      { d with bus := d.bus ++ [u], posted := Function.update d.posted i (d.posted i + 1) }
      ⟨k.log ++ [u], k.taken⟩ where
  server := h.server
  answer := h.answer
  -- the log grows behind what was taken, so the cache is the same
  store := by rw [Ledger.store_send h.taken]; exact h.store
  taken := by
    have := h.taken
    simp only [List.length_append]
    omega
  -- the channel is what the log has behind the taken part
  bus := by
    show d.bus ++ [u] = (k.log ++ [u]).drop k.taken
    rw [List.drop_append_of_le_length h.taken, h.bus]
  -- this peer has posted one more, which its loop did send
  posted := fun j => by
    have hlt := (List.getElem?_eq_some_iff.mp hheld).1
    by_cases hj : j = i
    · subst hj
      simp only [Function.update_self]
      omega
    · simp only [Function.update_of_ne hj]
      exact h.posted j
  -- the log stays a merge of the peers' posts with the update put at its end
  arrived := by
    refine h.arrived.concat i u ?_ fun j hj => ?_
    · simp only [Function.update_self]
      rw [List.take_add_one, hheld, Option.toList_some]
    · simp only [Function.update_of_ne hj]

omit [DecidableEq ι] in
/-- The message that is taken is the next one of the log. -/
theorem Follows.take (h : Follows s mem d k) {u : Update} {rest : List Update}
    (hbus : d.bus = u :: rest) :
    k.taken < k.log.length ∧
      Follows s mem { d with bus := rest, owner := d.owner.apply u, stand := .draining }
        ⟨k.log, k.taken + 1⟩ := by
  -- the head of the channel is the first update that was not taken
  have hdrop : k.log.drop k.taken = u :: rest := h.bus.symm.trans hbus
  have hlt : k.taken < k.log.length := by
    rw [← Nat.not_le]
    intro hle
    rw [List.drop_of_length_le hle] at hdrop
    cases hdrop
  have hnext : k.log[k.taken]? = some u := by
    rw [← List.head?_drop, hdrop, List.head?_cons]
  -- the owner applies it, as the ledger's store does
  refine ⟨hlt, h.server, h.answer, ?_, hlt, ?_, h.posted, h.arrived⟩
  · rw [Ledger.store_take hnext, ← h.store]
    rfl
  · show rest = k.log.drop (k.taken + 1)
    rw [← List.drop_drop, hdrop, List.drop_one, List.tail_cons]

/-- The reply that a question gets is what the server makes of the cache as it is. -/
theorem Follows.reply_eq (h : Follows s mem d k) {d' : Daemon ι} {asker : α}
    {datagram : List UInt8} {reply : Option (List UInt8)}
    (hstep : Step p d (.question asker datagram reply) d') :
    reply = s.respond d.owner.cache (datagram.take p.QUERY_MAX) := by
  cases hstep with
  | question asker datagram hstand => rw [(Owner.reply_eq h.answer _).1, h.server]

end

/-- A step of the daemon is a step of the ledger, or shows nothing. -/
theorem Follows.step : Simulates (Step p) (Ledger.Step s mem p.QUERY_MAX)
    (Act.shows (ι := ι) (α := α)) (Follows s mem) := by
  -- one case for each step of the daemon: what it shows, and what the ledger does meanwhile
  intro d act d' k h hstep
  cases hstep with
  | peer i act hheld hstep => exact .inl ⟨rfl, h.peer hheld hstep⟩
  | post i u hheld hroom => exact .inr ⟨_, _, rfl, .send u, h.post hheld⟩
  | take u rest hbus hstand =>
    obtain ⟨hlt, hfollows⟩ := h.take hbus
    exact .inr ⟨_, _, rfl, .take hlt, hfollows⟩
  | empty hbus hstand =>
    obtain ⟨hserver, hanswer, hcache, hmem⟩ := endBatch_frame p d.owner
    refine .inl ⟨rfl, hserver.trans h.server, by rw [hanswer]; exact h.answer, ?_, h.taken, h.bus,
      h.posted, h.arrived⟩
    rw [hcache, hmem]
    exact h.store
  -- an answer is given out of the store, which is the owner's cache
  | question asker datagram hstand =>
    obtain ⟨hreply, hsize⟩ := Owner.reply_eq h.answer (datagram.take p.QUERY_MAX)
    refine .inr ⟨_, k, rfl, ?_, h.server, hsize, h.store, h.taken, h.bus, h.posted, h.arrived⟩
    rw [hreply, h.server, show d.owner.cache = (k.store mem).1 from congrArg Prod.fst h.store]
    exact .answer asker datagram
  -- a quiet wait and a failed receive leave the channel and the cache alone
  | quiet hstand =>
    exact .inl ⟨rfl, h.server, h.answer, h.store, h.taken, h.bus, h.posted, h.arrived⟩
  | failed hp hstand =>
    exact .inl ⟨rfl, h.server, h.answer, h.store, h.taken, h.bus, h.posted, h.arrived⟩

/-! ## A daemon with one peer -/

/-- The message that the loop sends when its first refresh is done. -/
def webUpdate : Update :=
  .replace (str "prod") (viewOf Server.oneReport.agents Server.oneReport.tasks none)

/-- The loop when it has the agents. -/
def listed : Loop :=
  (Loop.fetching []).goOn 5 ((Loop.fetching []).driver.gotAgents Server.oneReport.agents, none)

/-- The loop when it has the tasks. -/
def fetched : Loop :=
  listed.goOn 6 (listed.driver.gotTasks Server.oneReport.agents Server.oneReport.tasks none)

/-- The daemon with that loop alone; it has sent nothing before. -/
def alone (p : Platform) (l : Loop) : Daemon Unit where
  loops := fun _ => l
  posted := fun _ => 0
  bus := []
  owner := ⟨⟨DEFAULT_DOMAIN, CNAMEs.default⟩, Cache.new, [], List.replicate EDNS_MAX 0,
    (USIZE_MAX, USIZE_MAX)⟩
  stand := p.front

/-- The daemon when it has taken the message. -/
def taken (p : Platform) : Daemon Unit :=
  { alone p fetched with
    posted := fun _ => 1
    owner := (alone p fetched).owner.apply webUpdate
    stand := .draining }

/-- The daemon when the message is in the cache, and it waits for a question. -/
def stocked (p : Platform) : Daemon Unit :=
  { taken p with owner := (p.endBatch (taken p).owner).2, stand := .receiving }

/-- What the daemon does until its loop has fetched. -/
def fetches : List (Act Unit Unit) :=
  [.peer () (.turn 0 0), .peer () (.status 1 (some (str "prod"))), .peer () (.turn 2 2),
    .peer () (.hear 3 (.event ⟨some .ping⟩)), .peer () (.turn 4 4),
    .peer () (.agents 5 Server.oneReport.agents),
    .peer () (.tasks 6 Server.oneReport.tasks none (.ok webUpdate))]

/-- What it does until the message is in the cache. -/
def stocks (p : Platform) : List (Act Unit Unit) :=
  fetches ++ ([.post () webUpdate, .take webUpdate] ++ [.empty (p.endBatch (taken p).owner).1])

/-- A daemon with one peer, when it starts. -/
theorem alone_initial (p : Platform) : (alone p (Loop.started [])).Initial p :=
  ⟨fun _ => ⟨Watcher.peer.endpoint, [true], rfl, rfl, rfl⟩, fun _ => rfl, rfl, rfl, rfl, rfl, rfl⟩

/-- What the one peer does is a step of the daemon. -/
private theorem alone_step {l l' : Loop} {act : Loop.Act} (hsent : l.sent = [])
    (hstep : Loop.Step p l act l') :
    Step p (alone p l) (.peer () act : Act Unit Unit) (alone p l') :=
  .peer () act (by rw [alone, hsent]; rfl) hstep

/-- The agents are fetched. -/
private theorem listed_step (p : Platform) :
    Loop.Step p (Loop.fetching []) (.agents 5 Server.oneReport.agents) listed :=
  .agents 5 _ (by decide +kernel) (by decide +kernel)

/-- And then the tasks, of which the message is made. -/
private theorem fetched_step (p : Platform) :
    Loop.Step p listed (.tasks 6 Server.oneReport.tasks none (.ok webUpdate)) fetched := by
  have hcluster : listed.driver.watcher.cluster = some (str "prod") := by decide +kernel
  have hmem : listed.driver.mem = [] := by decide +kernel
  have hresult := (Watcher.refreshedFull_yields hcluster Server.oneReport.agents
    Server.oneReport.tasks none).ample
  have hhere : p.Knows none := by
    cases p with
    | host => rfl
    | hopos => trivial
  exact .tasks 6 Server.oneReport.agents _ none (by decide +kernel) (by decide +kernel) hhere
    (by rw [hmem]; exact hresult)

/-- The run up to the first message. -/
theorem fetches_run (p : Platform) :
    Run (Step p) (alone p (Loop.started [])) fetches (alone p fetched) := by
  -- the watcher asks for its cluster
  have hasking : Loop.Step p (Loop.started []) (.turn 0 0) (Loop.asking []) :=
    .turn 0 0 rfl (UInt64.le_refl 0) (UInt64.le_refl 0)
  -- it learns the name
  have hlearned : Loop.Step p (Loop.asking []) (.status 1 (some (str "prod"))) (Loop.learned []) :=
    .status 1 _ (by decide +kernel) (by decide +kernel)
  -- the stream is opened
  have hlistening : Loop.Step p (Loop.learned []) (.turn 2 2) (Loop.listening []) :=
    .turn 2 2 (by decide +kernel) (by decide +kernel) (UInt64.le_refl 2)
  -- a ping asks for a full refresh
  have hpinged : Loop.Step p (Loop.listening []) (.hear 3 (.event ⟨some .ping⟩)) (Loop.pinged []) :=
    .hear 3 _ (by decide +kernel) (by decide +kernel)
  have hfetching := Loop.fetching_step p (.inl rfl)
  exact .cons (alone_step rfl hasking) (.cons (alone_step rfl hlearned)
    (.cons (alone_step rfl hlistening) (.cons (alone_step rfl hpinged)
    (.cons (alone_step rfl hfetching) (.cons (alone_step rfl (listed_step p))
    (.single (alone_step rfl (fetched_step p))))))))

theorem fetched_sent : fetched.sent = [webUpdate] := by decide +kernel

/-- The message is posted and taken. -/
theorem taken_run (p : Platform) : Run (Step p) (alone p fetched)
    ([.post () webUpdate, .take webUpdate] : List (Act Unit Unit)) (taken p) := by
  have hroom : p.HasRoom [] := by cases p <;> decide
  have htakes : p.Takes p.front := by cases p <;> decide
  have hheld : ((alone p fetched).loops ()).sent[(alone p fetched).posted ()]? =
      some webUpdate := by
    show fetched.sent[0]? = some webUpdate
    rw [fetched_sent]
    rfl
  exact .cons (.post () webUpdate hheld hroom) (.single (.take webUpdate [] rfl htakes))

/-- The run that leads to a stocked cache. -/
theorem stocks_run (p : Platform) :
    Run (Step p) (alone p (Loop.started [])) (stocks p) (stocked p) :=
  (fetches_run p).append ((taken_run p).append (.single (.empty rfl rfl)))

/-! ## The ledger of a daemon -/

/-- The daemon serves a ledger. Whatever the interleaving, what a run shows (the messages that go
    into the channel, those that are taken, and the answers) are the steps of a ledger, in which
    every answer comes from the messages taken so far, in the order in which they were sent; and
    that order keeps the order of each peer. -/
theorem serves_ledger {d₀ d : Daemon ι} {acts : List (Act ι α)} (h₀ : d₀.Initial p)
    (hrun : Run (Step p) d₀ acts d) :
    ∃ k : Ledger, Run (Ledger.Step d₀.owner.server d₀.owner.mem p.QUERY_MAX) Ledger.start
        (acts.filterMap Act.shows) k ∧
      (d.owner.cache, d.owner.mem) = k.store d₀.owner.mem ∧ d.bus = k.log.drop k.taken ∧
        Interleaving (fun i => (d.loops i).sent.take (d.posted i)) k.log := by
  obtain ⟨k, hledger, h⟩ := Follows.step.run h₀.follows hrun
  exact ⟨k, hledger, h.store, h.bus, h.arrived⟩

/-- The message of the one peer is sent and taken. -/
theorem serves_ledger_stocks :
    ∃ k : Ledger, Run (Ledger.Step (α := Unit) ⟨DEFAULT_DOMAIN, CNAMEs.default⟩ [] 1500)
        Ledger.start [.send webUpdate, .take] k ∧
      ((stocked .hopos).owner.cache, (stocked .hopos).owner.mem) = k.store [] ∧
        [] = k.log.drop k.taken ∧ Interleaving (fun _ : Unit => fetched.sent.take 1) k.log :=
  serves_ledger (alone_initial .hopos) (stocks_run .hopos)

/-! ## What an answer of the host misses -/

/-- The messages that go into the channel, in order. -/
def sent (acts : List (Act ι α)) : List Update :=
  acts.filterMap fun act => act.shows.bind Ledger.Entry.sends

/-- On the host, what was sent before is in the cache once `serve` is through with the channel. -/
structure CaughtUp (s : Server) (mem : Mem) (base : List Update) (d : Daemon ι) (k : Ledger) :
    Prop where
  follows : Follows s mem d k
  kept : base <+: k.log
  caught : d.stand ≠ .draining → base.length ≤ k.taken

/-- `serve` of the host leaves the channel when it is empty. -/
private theorem Step.leaves {d d' : Daemon ι} {act : Act ι α} (h : Step .host d act d')
    (hstand : d'.stand ≠ .draining) : d.stand ≠ .draining ∨ d.bus = [] := by
  cases h with
  | peer i act hheld hstep => exact .inl hstand
  | post i u hheld hroom => exact .inl hstand
  | take u rest hbus hstand' => exact absurd rfl hstand
  | empty hbus hstand' => exact .inr hbus
  | question asker datagram hstand' => exact absurd rfl hstand
  | quiet hstand' => exact absurd rfl hstand
  | failed hp hstand' => exact .inl (by rw [hstand']; decide)

/-- A step keeps up: what was sent before the first answer is taken or still in the channel, and
    what is taken is not lost. -/
theorem CaughtUp.step {base : List Update} :
    Simulates (Step .host) (Ledger.Step s mem Platform.host.QUERY_MAX)
      (Act.shows (ι := ι) (α := α)) (CaughtUp s mem base) := by
  intro d act d' k h hstep
  -- `serve` leaves the draining only with the channel empty
  have hcaught : d'.stand ≠ .draining → base.length ≤ k.taken := by
    intro hstand
    obtain hbefore | hempty := hstep.leaves hstand
    · exact h.caught hbefore
    · -- nothing of the log is left in the channel
      have hdrop := List.drop_eq_nil_iff.mp (h.follows.bus.symm.trans hempty)
      exact Nat.le_trans h.kept.length_le hdrop
  -- the rest is the ledger's step, which takes at least what was taken
  obtain ⟨hnone, hfollows⟩ | ⟨e, k', hsome, hledger, hfollows⟩ :=
    Follows.step d act d' k h.follows hstep
  · exact .inl ⟨hnone, hfollows, h.kept, hcaught⟩
  · obtain ⟨hlog, htaken⟩ := hledger.log
    have hkept : base <+: k'.log := by
      rw [hlog]
      exact h.kept.trans (List.prefix_append _ _)
    exact .inr ⟨e, k', hsome, hledger, hfollows, hkept, fun hstand =>
      Nat.le_trans (hcaught hstand) htaken⟩

/-- The log is what went into the channel. -/
theorem Follows.exists_log {d₀ d : Daemon ι} {acts : List (Act ι α)} (h₀ : d₀.Initial p)
    (hrun : Run (Step p) d₀ acts d) :
    ∃ k, Follows d₀.owner.server d₀.owner.mem d k ∧ k.log = sent acts := by
  obtain ⟨k, hledger, h⟩ := Follows.step.run h₀.follows hrun
  refine ⟨k, h, ?_⟩
  rw [Ledger.run_log hledger, List.filterMap_filterMap]
  rfl

/-- The host catches up. A message that is in the channel when a question is answered is among
    those that were drained into the cache that the next answer comes from, with all that were sent
    before it: what was sent is missed by one answer at most. (`drain` drops one that finds no
    memory; with memory in plenty each is in the cache.) -/
theorem host_catches_up {d₀ d₁ d₂ d₃ d₄ : Daemon ι} {before between : List (Act ι α)}
    {asker asker' : α} {datagram datagram' : List UInt8} {reply reply' : Option (List UInt8)}
    (h₀ : d₀.Initial .host) (hbefore : Run (Step .host) d₀ before d₁)
    (hfirst : Step .host d₁ (.question asker datagram reply) d₂)
    (hbetween : Run (Step .host) d₂ between d₃)
    (hsecond : Step .host d₃ (.question asker' datagram' reply') d₄) :
    ∃ taken, sent before <+: taken ∧ taken <+: sent before ++ sent between ∧
      reply' = d₀.owner.server.respond (drain taken (Cache.new, d₀.owner.mem)).1
        (datagram'.take Platform.host.QUERY_MAX) := by
  -- the log at the first question is what was sent before it
  obtain ⟨k₁, h₁, hlog₁⟩ := Follows.exists_log h₀ hbefore
  -- after the first answer `serve` is at the channel
  have h₂ : CaughtUp d₀.owner.server d₀.owner.mem (sent before) d₂ k₁ := by
    cases hfirst with
    | question asker datagram hstand =>
      refine ⟨?_, ⟨[], by rw [hlog₁, List.append_nil]⟩, fun hne => absurd rfl hne⟩
      exact ⟨h₁.server, (Owner.reply_eq h₁.answer _).2, h₁.store, h₁.taken, h₁.bus, h₁.posted,
        h₁.arrived⟩
  obtain ⟨k₃, hledger₃, h₃⟩ := CaughtUp.step.run h₂ hbetween
  -- the log at the second question has what was sent between behind it
  have hlog₃ : k₃.log = sent before ++ sent between := by
    rw [Ledger.run_log hledger₃, List.filterMap_filterMap, hlog₁]
    rfl
  -- before it answers again `serve` has emptied the channel once
  have hcaught : (sent before).length ≤ k₃.taken := by
    cases hsecond with
    | question asker datagram hstand => exact h₃.caught (by rw [hstand]; decide)
  -- what was taken by then lies between the two
  refine ⟨k₃.log.take k₃.taken, ?_, ?_, ?_⟩
  · have hlen := h₃.kept.length_le
    exact List.prefix_of_prefix_length_le h₃.kept (List.take_prefix _ _)
      (by rw [List.length_take]; omega)
  · rw [← hlog₃]
    exact List.take_prefix _ _
  · rw [h₃.follows.reply_eq hsecond]
    exact congrArg (fun c => d₀.owner.server.respond c _) (congrArg Prod.fst h₃.follows.store)

/-- What the daemon with one peer has when it has answered a question. -/
def asked (p : Platform) : Owner :=
  ((stocked p).owner.reply ((queryFor Server.webName rtype.A).take p.QUERY_MAX)).2

/-- The same question twice. -/
theorem host_catches_up_twice :
    ∃ taken, [webUpdate] <+: taken ∧ taken <+: [webUpdate] ∧
      ((asked .host).reply ((queryFor Server.webName rtype.A).take 4096)).1 =
        (⟨DEFAULT_DOMAIN, CNAMEs.default⟩ : Server).respond (drain taken (Cache.new, [])).1
          ((queryFor Server.webName rtype.A).take 4096) :=
  host_catches_up (alone_initial .host) (stocks_run .host)
    (.question () (queryFor Server.webName rtype.A) rfl) (.single (.empty rfl rfl))
    (.question () (queryFor Server.webName rtype.A) rfl)

end Daemon

end HopDns

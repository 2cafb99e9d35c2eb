import Mathlib.Data.List.Forall2
import HopDns.Native.Start
import HopDns.Spec.CNAMEsCorrect
import HopDns.Spec.ZoneCorrect

/-!
# How a start ends

`Daemon::start` reads the file, makes the server, binds the socket and starts the watchers,
and gives up at the first of these that fails. `start_peers` of HopOS passes over a peer that
fails, and starts the others.

## Key results

- `Host.start_exact`: what a start on a host comes to, and what it leaves when it fails
- `Os.startPeers_exact`: which peers of a list are watched on HopOS, each at a mailbox of its own
- `Os.resident_exact`: what the resident runs on, and when it exits
-/

namespace HopDns

open ForStd

/-! ## Reading with little memory -/

namespace Config

/-- A line that is read with little memory is read as it is with plenty. -/
private theorem readLine_firm (i : Nat) (current : Section) (c : Config) (raw : Str) :
    Firm (readLine i current c raw) := by
  unfold readLine
  dsimp only
  split
  -- the branches of `read_line`: skipped, tab, key, indented
  · exact Firm.pure _
  split
  · exact Firm.throw _
  split
  · refine (Firm.okOr _ _).bind fun cut => ?_
    split
    · split
      · exact Firm.throw _
      · exact Firm.pure _
    · exact Firm.pure _
  · cases current with
    | top => exact Firm.throw _
    | other => exact Firm.pure _
    -- the value, the memory for the pair and the name
    | cnames =>
      -- without memory for its quotes a value is no value, and never another one
      have hunquote : ∀ v, Firm (unquote v) := fun v =>
        (Firm.of_computes Computes.request).bind fun _ => Firm.okOr _ _
      exact (Firm.okOr _ _).bind fun cut => ((hunquote _).mapError _).bind fun value =>
        (Firm.of_computes tryReserve_yields).bind fun _ =>
          (Firm.of_computes (owned_yields _)).bind fun key => Firm.pure _

/-- A file that is read with little memory is read as it is with plenty. -/
private theorem parse_firm (text : Str) : Firm (parse text) := by
  unfold parse
  generalize Section.top = current
  generalize (⟨[]⟩ : Config) = c
  generalize (0 : Nat) = i
  induction lines text generalizing i current c with
  | nil => exact Firm.pure _
  | cons line ls ih => exact (readLine_firm i current c line).bind fun next => ih _ _ _

end Config

/-- The domain of a server that is asked to serve `domain`. -/
def servedDomain (domain : Str) : Str :=
  lowercase (if stripDot (trim domain) = [] then DEFAULT_DOMAIN else stripDot (trim domain))

/-- A server is made for the domain, without CNAMEs, or there is no memory for it. -/
theorem server_new_yields (domain : Str) :
    Yields (Server.new domain) (.ok ⟨servedDomain domain, CNAMEs.default⟩) := by
  unfold Server.new servedDomain
  simp only [List.isEmpty_iff]
  exact tryReserve_yields.bind (Computes.pure _)

/-- A URL is that of a peer, or it is none. -/
private theorem exists_peer_yields (raw key : Str) : ∃ r, Yields (Config.Peer.parse raw key) r := by
  unfold Config.Peer.parse
  dsimp only
  cases hcut : (trim raw).splitOnceSeq (str "://") with
  | none => exact ⟨.error .badPeer, Computes.bind_error (Computes.throw _)⟩
  | some cut =>
    rw [Method.okOr_some_bind]
    split
    · exact ⟨_, Computes.throw _⟩
    split
    · exact ⟨_, Computes.throw _⟩
    split
    · exact ⟨_, tryReserve_yields.bind (Computes.pure _)⟩
    · exact ⟨_, tryReserve_yields.bind ((owned_yields _).bind (Computes.pure _))⟩

/-! ## A start on a host -/

namespace Host

variable {α β : Type} {host : Host} {apiKey : Str}

/-- A stage of a start that brings nothing about: it comes to what has the property, with memory
    in plenty, or it fails. -/
structure Stage (x : Method HostError (Begun × Mem) α) (P : α → Prop) : Prop where
  lean : ∀ s, (∃ e mem, x.run s = (.error e, s.1, mem)) ∨ ∃ a mem, x.run s = (.ok a, s.1, mem) ∧ P a
  ample : ∀ b a, P a → x.run (b, []) = (.ok a, b, [])

namespace Stage

theorem pure (a : α) : Stage (Pure.pure a) (· = a) :=
  ⟨fun s => .inr ⟨a, s.2, rfl, rfl⟩, fun b a' h => by rw [h]; rfl⟩

/-- A step of the core brings nothing about, and comes to what it comes to with plenty of memory. -/
theorem core {x : Fallible α} (h : Firm x) :
    Stage (Host.core x) (fun a => x.run [] = (.ok a, [])) where
  lean s := by
    rcases hrun : x.run s.2 with ⟨e | a, mem⟩
    · exact .inl ⟨.core e, mem, by rw [Host.core, Method.run_mapError, Method.run_alloc, hrun]; rfl⟩
    · exact .inr ⟨a, mem, by rw [Host.core, Method.run_mapError, Method.run_alloc, hrun]; rfl,
        h _ _ _ hrun⟩
  ample b a h := by
    rw [Host.core, Method.run_mapError, Method.run_alloc, h]
    rfl

/-- What the host grants brings nothing about by itself. -/
theorem check (r : Except Str α) (error : Str → HostError) :
    Stage (Host.check r error) (fun a => r = .ok a) where
  lean s := by
    cases r with
    | error e => exact .inl ⟨error e, s.2, rfl⟩
    | ok a => exact .inr ⟨a, s.2, rfl, rfl⟩
  ample b a h := by
    rw [h]
    rfl

/-- What follows a stage is run when that comes to something, on what was there before. -/
theorem cases {x : Method HostError (Begun × Mem) α} {P : α → Prop} (h : Stage x P)
    (f : α → Method HostError (Begun × Mem) β) (s : Begun × Mem) :
    (∃ e mem, (x >>= f).run s = (.error e, s.1, mem)) ∨
      ∃ a mem, P a ∧ (x >>= f).run s = (f a).run (s.1, mem) := by
  obtain ⟨e, mem, hrun⟩ | ⟨a, mem, hrun, ha⟩ := h.lean s
  · exact .inl ⟨e, mem, Method.run_bind_error f hrun⟩
  · exact .inr ⟨a, mem, ha, Method.run_bind_ok f hrun⟩

/-- With memory in plenty what follows a stage is run on what was there before. -/
theorem next {x : Method HostError (Begun × Mem) α} {P : α → Prop} (h : Stage x P)
    (f : α → Method HostError (Begun × Mem) β) (b : Begun) {a : α} (ha : P a) :
    (x >>= f).run (b, []) = (f a).run (b, []) := Method.run_bind_ok f (h.ample b a ha)

/-- Two stages one after the other are a stage. -/
theorem bind {x : Method HostError (Begun × Mem) α} {P : α → Prop} (hx : Stage x P)
    {f : α → Method HostError (Begun × Mem) β} {Q : α → β → Prop} (hf : ∀ a, Stage (f a) (Q a)) :
    Stage (x >>= f) (fun b => ∃ a, P a ∧ Q a b) where
  lean s := by
    obtain hfail | ⟨a, mem, ha, hrun⟩ := hx.cases f s
    · exact .inl hfail
    · rw [hrun]
      obtain hfail | ⟨b, mem', hrun', hb⟩ := (hf a).lean (s.1, mem)
      · exact .inl hfail
      · exact .inr ⟨b, mem', hrun', a, ha, hb⟩
  ample begun b h := by
    obtain ⟨a, ha, hb⟩ := h
    rw [hx.next f begun ha, (hf a).ample begun b hb]

/-- A stage says its property in other words. -/
theorem congr {x : Method HostError (Begun × Mem) α} {P Q : α → Prop} (h : Stage x P)
    (hiff : ∀ a, P a ↔ Q a) : Stage x Q where
  lean s := (h.lean s).imp_right fun ⟨a, mem, hrun, ha⟩ => ⟨a, mem, hrun, (hiff a).mp ha⟩
  ample b a ha := h.ample b a ((hiff a).mpr ha)

end Stage

/-! ### The watchers -/

/-- The watcher of a peer runs: what stands at its place in the flags is a URL, and the host grants
    what is asked of it there. -/
structure Watches (host : Host) (apiKey : Str) (arg : Str × Nat) (peer : Config.Peer) : Prop where
  parsed : Yields (Config.Peer.parse arg.1 apiKey) (.ok peer)
  client : host.client arg.2 peer.endpoint peer.apiKey = .ok ()
  spawned : host.spawn arg.2 (str "watch " ++ peer.endpoint) = .ok ()

/-- The start of one watcher. -/
def startWatcher (host : Host) (apiKey : Str) (arg : Str × Nat) :
    Method HostError (Begun × Mem) Config.Peer := do
  let peer ← core (Config.Peer.parse arg.1 apiKey)
  check (host.client arg.2 peer.endpoint peer.apiKey) .hop
  check (host.spawn arg.2 (str "watch " ++ peer.endpoint)) (.io (str "spawn watcher"))
  return peer

/-- The start of a watcher brings nothing about before the thread runs. -/
private theorem startWatcher_stage (host : Host) (apiKey : Str) (arg : Str × Nat) :
    Stage (host.startWatcher apiKey arg) (host.Watches apiKey arg) := by
  obtain ⟨r, hr⟩ := exists_peer_yields arg.1 apiKey
  have hstage := (Stage.core (.of_computes hr)).bind fun peer =>
    (Stage.check (host.client arg.2 peer.endpoint peer.apiKey) .hop).bind fun _ =>
      (Stage.check (host.spawn arg.2 (str "watch " ++ peer.endpoint))
        (.io (str "spawn watcher"))).bind fun _ => Stage.pure peer
  refine hstage.congr fun peer => ⟨?_, fun h => ?_⟩
  · rintro ⟨peer', hparsed, ⟨⟩, hclient, ⟨⟩, hspawned, rfl⟩
    obtain rfl : r = .ok peer := (Prod.mk.inj (hr.ample.symm.trans hparsed)).1
    exact ⟨hr, hclient, hspawned⟩
  · exact ⟨peer, h.parsed.ample, (), h.client, (), h.spawned, rfl⟩

/-- The first watcher is started before the others. -/
private theorem startWatchers_cons (host : Host) (apiKey : Str) (arg : Str × Nat)
    (args : List (Str × Nat)) : host.startWatchers apiKey (arg :: args) = (do
      let peer ← host.startWatcher apiKey arg
      let b ← Method.self
      Method.put { b with watchers := b.watchers ++ [peer] }
      host.startWatchers apiKey args) := by
  rw [startWatchers, startWatcher]
  simp only [bind_assoc, pure_bind]

/-- What has been brought about when the watchers of more peers run. -/
def watching (b : Begun) (peers : List Config.Peer) : Begun :=
  { b with watchers := b.watchers ++ peers }

/-- Watchers are started one after the other, up to the first one that cannot run. -/
private theorem startWatchers_run (host : Host) (apiKey : Str) (args : List (Str × Nat)) (b : Begun)
    (mem : Mem) : (∃ mem' peers,
      (host.startWatchers apiKey args).run (b, mem) = (.ok (), watching b peers, mem') ∧
      List.Forall₂ (host.Watches apiKey) args peers) ∨
    ∃ e mem' tried rest peers, (host.startWatchers apiKey args).run (b, mem) =
        (.error e, watching b peers, mem') ∧ args = tried ++ rest ∧ rest ≠ [] ∧
        List.Forall₂ (host.Watches apiKey) tried peers := by
  -- the induction is on the peers still to be started
  induction args generalizing b mem with
  | nil => exact .inl ⟨mem, [], by rw [watching, List.append_nil]; rfl, .nil⟩
  | cons arg args ih =>
    rw [startWatchers_cons]
    -- this peer fails, or it is started
    obtain ⟨e, mem₁, hrun⟩ | ⟨peer, mem₁, hwatches, hrun⟩ :=
      (startWatcher_stage host apiKey arg).cases _ (b, mem)
    · refine .inr ⟨e, mem₁, [], arg :: args, [], ?_, rfl, List.cons_ne_nil _ _, .nil⟩
      rw [hrun, watching, List.append_nil]
    -- the others are started behind this one
    have hbehind : ∀ peers, watching (watching b [peer]) peers = watching b (peer :: peers) :=
      fun peers => by simp only [watching, List.append_assoc, List.singleton_append]
    rw [hrun]
    -- the others are all started, or one of them fails
    obtain ⟨mem', peers, hrest, hall⟩ | ⟨e, mem', tried, rest, peers, hrest, rfl, hne, htried⟩ :=
      ih (watching b [peer]) mem₁
    · exact .inl ⟨mem', peer :: peers, by rw [← hbehind]; exact hrest, .cons hwatches hall⟩
    · exact .inr ⟨e, mem', arg :: tried, rest, peer :: peers, by rw [← hbehind]; exact hrest, rfl,
        hne, .cons hwatches htried⟩

/-- With memory in plenty all of them are started that can run. -/
private theorem startWatchers_ample {args : List (Str × Nat)} {peers : List Config.Peer}
    (h : List.Forall₂ (host.Watches apiKey) args peers) (b : Begun) :
    (host.startWatchers apiKey args).run (b, []) = (.ok (), watching b peers, []) := by
  induction h generalizing b with
  | nil => rw [watching, List.append_nil]; rfl
  | @cons arg peer args peers hwatches _ ih =>
    rw [startWatchers_cons, (startWatcher_stage host apiKey arg).next _ b hwatches]
    have hrest := ih (watching b [peer])
    rw [watching, watching, List.append_assoc] at hrest
    exact hrest

/-! ### The whole start -/

/-- The static names that a start comes to: none without a file. -/
inductive Names (host : Host) : Option Str → CNAMEs → Prop
  | none : Names host none CNAMEs.default
  | file {path text : Str} {config : Config} (hread : host.readToString path = .ok text)
      (hparse : (Config.parse text).run [] = (.ok config, [])) :
      Names host (some path) (CNAMEs.newOf config.cnames)

/-- All that a start needs is there, and what it brings about. -/
structure Starts (host : Host) (flags : Flags) (server : Server) (b : Begun) : Prop where
  domain : server.domain = servedDomain flags.domain
  names : host.Names flags.config server.cnames
  bound : ∃ address, parseListen flags.listen = some address ∧ host.bind address = .ok () ∧
    b.bound = some address
  timeout : host.setReadTimeout = .ok ()
  watched : List.Forall₂ (host.Watches flags.apiKey) flags.peers.zipIdx b.watchers

/-- What a start that failed has left behind: watchers of the first peers alone, if any are left
    out at all, and none of them before the socket is bound. -/
structure Left (host : Host) (flags : Flags) (b : Begun) : Prop where
  bound : ∀ address, b.bound = some address →
    parseListen flags.listen = some address ∧ host.bind address = .ok ()
  unbound : b.bound = none → b.watchers = []
  watched : ∃ tried rest, flags.peers.zipIdx = tried ++ rest ∧
    List.Forall₂ (host.Watches flags.apiKey) tried b.watchers ∧ (flags.peers ≠ [] → rest ≠ [])

/-- The table of static names that a start makes. -/
def loadNames (host : Host) : Option Str → Method HostError (Begun × Mem) CNAMEs
  | some path => do
    let config ← host.loadConfig path
    core config.cnameTable
  | none => pure CNAMEs.default

/-- The stages of a start before the socket. -/
def prepare (host : Host) (flags : Flags) : Method HostError (Begun × Mem) Server := do
  let cnames ← host.loadNames flags.config
  let server ← core (Server.new flags.domain)
  return server.setCnames cnames

/-- The file is read and parsed, and nothing is brought about by that. -/
private theorem loadConfig_stage (host : Host) (path : Str) : Stage
    (host.loadConfig path) fun config =>
    ∃ text, host.readToString path = .ok text ∧ (Config.parse text).run [] = (.ok config, []) :=
  (Stage.check _ _).bind fun text => Stage.core (Config.parse_firm text)

/-- The static names are made, and nothing is brought about by that. -/
private theorem names_stage (host : Host) (config : Option Str) :
    Stage (host.loadNames config) (host.Names config) := by
  -- without a file there are the default names
  cases config with
  | none =>
    refine (Stage.pure CNAMEs.default).congr fun cnames => ⟨?_, fun h => ?_⟩
    · rintro rfl
      exact .none
    · cases h with
      | none => rfl
  | some path =>
    have htable : ∀ config : Config, Yields config.cnameTable (.ok (CNAMEs.newOf config.cnames)) :=
      fun config => CNAMEs.new_yields config.cnames
    refine ((loadConfig_stage host path).bind fun config =>
      Stage.core (.of_computes (htable config))).congr fun cnames => ⟨?_, fun h => ?_⟩
    · rintro ⟨config, ⟨text, hread, hparse⟩, hnames⟩
      obtain rfl : CNAMEs.newOf config.cnames = cnames :=
        Except.ok.inj (Prod.mk.inj ((htable config).ample.symm.trans hnames)).1
      exact .file hread hparse
    -- the file is read, parsed and made into a table
    · cases h with
      | @file path text config hread hparse =>
        exact ⟨config, ⟨text, hread, hparse⟩, (htable config).ample⟩

/-- The server is made before the socket is bound. -/
private theorem prepare_stage (host : Host) (flags : Flags) : Stage
    (host.prepare flags) fun server =>
    server.domain = servedDomain flags.domain ∧ host.Names flags.config server.cnames := by
  have hnew := server_new_yields flags.domain
  refine ((names_stage host flags.config).bind fun cnames =>
    (Stage.core (.of_computes hnew)).bind fun server => Stage.pure (server.setCnames cnames)).congr
      fun server => ⟨?_, fun h => ?_⟩
  · rintro ⟨cnames, hnames, made, hmade, rfl⟩
    obtain rfl := Except.ok.inj (Prod.mk.inj (hnew.ample.symm.trans hmade)).1
    exact ⟨rfl, hnames⟩
  · obtain ⟨domain, cnames⟩ := server
    obtain ⟨hdomain, hnames⟩ := h
    obtain rfl : domain = servedDomain flags.domain := hdomain
    exact ⟨cnames, hnames, _, hnew.ample, rfl⟩

/-- A start is its stages one after the other. -/
private theorem start_eq (host : Host) (flags : Flags) : host.start flags = (do
    let server ← host.prepare flags
    let address ← core (Method.okOr (parseListen flags.listen) .badListen)
    check (host.bind address) (.io (str "bind udp"))
    let b ← Method.self
    Method.put { b with bound := some address }
    check host.setReadTimeout (.io (str "udp read timeout"))
    host.startWatchers flags.apiKey flags.peers.zipIdx
    return server) := by
  rw [start, prepare]
  cases flags.config with
  | none => simp only [loadNames, bind_assoc, pure_bind]
  | some path => simp only [loadNames, bind_assoc, pure_bind]

/-- What is there when a start begins. -/
def nothing : Begun := ⟨none, []⟩

/-- A start comes to what it needs, or it leaves what it had brought about. -/
theorem start_run (host : Host) (flags : Flags) (mem : Mem) :
    (∃ server b mem', (host.start flags).run (nothing, mem) = (.ok server, b, mem') ∧
      host.Starts flags server b) ∨
    ∃ e b mem', (host.start flags).run (nothing, mem) = (.error e, b, mem') ∧
      host.Left flags b := by
  have hzip : flags.peers ≠ [] → flags.peers.zipIdx ≠ [] :=
    fun hne hnil => hne (List.zipIdx_eq_nil_iff.mp hnil)
  -- a stage that fails before the socket leaves nothing
  have hnothing : host.Left flags nothing :=
    ⟨fun _ h => absurd h.symm (Option.some_ne_none _), fun _ => rfl, [], flags.peers.zipIdx, rfl,
      .nil, hzip⟩
  rw [start_eq]
  -- config and names come first
  obtain ⟨e, mem₁, hrun⟩ | ⟨server, mem₁, ⟨hdomain, hnames⟩, hrun⟩ :=
    (prepare_stage host flags).cases _ (nothing, mem)
  · exact .inr ⟨e, _, _, hrun, hnothing⟩
  rw [hrun]
  -- then the address to listen on
  obtain ⟨e, mem₂, hrun⟩ | ⟨address, mem₂, haddress, hrun⟩ :=
    (Stage.core (Firm.okOr (parseListen flags.listen) .badListen)).cases _ (nothing, mem₁)
  · exact .inr ⟨e, _, _, hrun, hnothing⟩
  have hparse : parseListen flags.listen = some address := (Method.run_okOr_eq_ok.mp haddress).1
  rw [hrun]
  -- then the socket
  obtain ⟨e, mem₃, hrun⟩ | ⟨⟨⟩, mem₃, hbind, hrun⟩ :=
    (Stage.check (host.bind address) (.io (str "bind udp"))).cases _ (nothing, mem₂)
  · exact .inr ⟨e, _, _, hrun, hnothing⟩
  rw [hrun]
  -- from here on the socket is bound
  have hput : ∀ {r} (rest : Method HostError (Begun × Mem) Server),
      rest.run (⟨some address, []⟩, mem₃) = r →
        (Method.self >>= fun b : Begun =>
          Method.put { b with bound := some address } >>= fun _ => rest).run (nothing, mem₃) = r :=
    fun _ h => h
  have hbound : ∀ b : Begun, b.bound = some address → ∀ address', b.bound = some address' →
      parseListen flags.listen = some address' ∧ host.bind address' = .ok () := by
    intro b hb address' hb'
    obtain rfl := Option.some.inj (hb.symm.trans hb')
    exact ⟨hparse, hbind⟩
  obtain ⟨e, mem₄, hrun⟩ | ⟨⟨⟩, mem₄, htimeout, hrun⟩ :=
    (Stage.check host.setReadTimeout (.io (str "udp read timeout"))).cases
      (fun _ => do
        host.startWatchers flags.apiKey flags.peers.zipIdx
        return server) (⟨some address, []⟩, mem₃)
  · exact .inr ⟨e, ⟨some address, []⟩, mem₄, hput _ hrun, hbound _ rfl,
      fun h => absurd h (Option.some_ne_none _), [], flags.peers.zipIdx, rfl, .nil, hzip⟩
  -- then the watchers, one peer after the other
  obtain ⟨mem₅, peers, hwatchers, hall⟩ | ⟨e, mem₅, tried, rest, peers, hwatchers, hpeers, hne,
      htried⟩ := startWatchers_run host flags.apiKey flags.peers.zipIdx ⟨some address, []⟩ mem₄
  · refine .inl ⟨server, ⟨some address, peers⟩, mem₅, hput _ (hrun.trans ?_), hdomain, hnames,
      ⟨address, hparse, hbind, rfl⟩, htimeout, hall⟩
    rw [Method.run_bind_ok _ hwatchers]
    rfl
  -- a watcher that fails leaves the socket and the watchers before it
  · refine .inr ⟨e, ⟨some address, peers⟩, mem₅,
      hput _ (hrun.trans (Method.run_bind_error _ hwatchers)), hbound _ rfl,
      fun h => absurd h (Option.some_ne_none _), tried, rest, hpeers, htried, fun _ => hne⟩

/-- What a start on a host comes to. It brings a server about when the file, the address and the
    peers can be read and the host grants all that is asked of it: with the names of the file, the
    socket at the address, and a watcher for each peer. It fails only without memory or where
    there is no such server, and then it has left the watchers of some of the first peers, and
    none before the socket. -/
theorem start_exact (host : Host) (flags : Flags) :
    (∀ mem server, ((host.start flags).run (nothing, mem)).1 = .ok server →
      host.Starts flags server ((host.start flags).run (nothing, mem)).2.1) ∧
    (∀ mem e, ((host.start flags).run (nothing, mem)).1 = .error e →
      host.Left flags ((host.start flags).run (nothing, mem)).2.1) ∧
    ∀ server b, host.Starts flags server b →
      (host.start flags).run (nothing, []) = (.ok server, b, []) := by
  refine ⟨fun mem server h => ?_, fun mem e h => ?_, fun server b h => ?_⟩
  -- every run is one of the two
  · obtain ⟨server', b, mem', hrun, hstarts⟩ | ⟨e, b, mem', hrun, -⟩ := start_run host flags mem
    · rw [hrun] at h ⊢
      obtain rfl := Except.ok.inj h
      exact hstarts
    · rw [hrun] at h
      cases h
  · obtain ⟨server', b, mem', hrun, -⟩ | ⟨e, b, mem', hrun, hleft⟩ := start_run host flags mem
    · rw [hrun] at h
      cases h
    · rw [hrun]
      exact hleft
  -- with memory in plenty every stage whose condition holds goes through
  · obtain ⟨address, hparse, hbind, hbound⟩ := h.bound
    have haddress : (Method.okOr (parseListen flags.listen) .badListen : Fallible _).run [] =
        (.ok address, []) := by
      rw [hparse]
      rfl
    have hwatchers := startWatchers_ample h.watched ⟨some address, []⟩
    rw [watching, List.nil_append] at hwatchers
    rw [start_eq, (prepare_stage host flags).next _ nothing ⟨h.domain, h.names⟩,
      (Stage.core (Firm.okOr _ _)).next _ nothing haddress,
      (Stage.check _ _).next _ nothing hbind]
    show (check host.setReadTimeout (.io (str "udp read timeout")) >>= fun _ =>
      host.startWatchers flags.apiKey flags.peers.zipIdx >>= fun _ => pure server).run
        (⟨some address, []⟩, []) = _
    rw [(Stage.check _ _).next _ _ h.timeout, Method.run_bind_ok _ hwatchers]
    obtain ⟨bound, watchers⟩ := b
    obtain rfl : bound = some address := hbound
    rfl

end Host

/-! ## The peers of HopOS -/

/-- A URL of the list comes to a peer, or to none. -/
private theorem exists_peerOf_yields (hop : Ipv4Addr) (key raw : Str) :
    ∃ r, Yields (peerOf hop key raw) r := by
  -- the endpoint is taken as it is, or with the host's alias put in
  have hurl : ∃ url, Yields (Config.withHostAlias raw HOP_ALIAS hop) (.ok url) := by
    unfold Config.withHostAlias
    dsimp only
    cases (trim raw).splitOnceSeq (str "://") with
    | none => exact ⟨_, owned_yields _⟩
    | some cut =>
      dsimp only
      split
      · exact ⟨_, owned_yields _⟩
      · exact ⟨_, tryReserve_yields.bind (Computes.pure _)⟩
  obtain ⟨url, hurl⟩ := hurl
  obtain ⟨r, hr⟩ := exists_peer_yields url key
  exact ⟨r, hurl.bind hr⟩

namespace Os

variable {os : Os} {key : Str}

/-- A URL of the list is that of a peer that can be asked at its place. -/
structure Asks (os : Os) (key raw : Str) (inbox : Nat) (peer : Config.Peer) : Prop where
  parsed : Yields (peerOf (os.slotIp HOP_SLOT) key raw) (.ok peer)
  client : os.client inbox peer.endpoint peer.apiKey = .ok ()

/-- What the loop adds: a reader at some of the mailboxes, and a watcher at some of these. -/
structure Adds (os : Os) (key : Str) (pairs : List (Str × Nat)) (p p' : Peers)
    (readers : List Nat) (watchers : List (Nat × Config.Peer)) : Prop where
  readers_eq : p'.readers = p.readers ++ readers
  watchers_eq : p'.watchers = p.watchers ++ watchers
  started : p'.started = p.started + watchers.length
  readers_sub : readers.Sublist (pairs.map (·.2))
  watchers_sub : (watchers.map (·.1)).Sublist readers
  asks : ∀ w ∈ watchers, ∃ raw, (raw, w.1) ∈ pairs ∧ os.Asks key raw w.1 w.2

/-- What one peer adds. -/
private theorem add_adds {raw : Str} {inbox : Nat} {peer : Config.Peer}
    (h : os.Asks key raw inbox peer) (p : Peers) : ∃ readers watchers,
      os.Adds key [(raw, inbox)] p (p.add inbox peer) readers watchers := by
  unfold Peers.add
  -- the reader is not started, or it is and the watcher may not be
  rcases hfirst : Peers.spawn p.slots with ⟨_ | _, slots⟩
  · exact ⟨[], [], (List.append_nil _).symm, (List.append_nil _).symm, rfl, List.nil_sublist _,
      List.nil_sublist _, fun _ hw => absurd hw List.not_mem_nil⟩
  · dsimp only
    rcases hsecond : Peers.spawn slots with ⟨_ | _, slots⟩
    · exact ⟨[inbox], [], rfl, (List.append_nil _).symm, rfl, List.Sublist.refl _,
        List.nil_sublist _, fun _ hw => absurd hw List.not_mem_nil⟩
    -- both are started
    · refine ⟨[inbox], [(inbox, peer)], rfl, rfl, rfl, List.Sublist.refl _, List.Sublist.refl _, ?_⟩
      intro w hw
      obtain rfl := List.mem_singleton.mp hw
      exact ⟨raw, List.mem_singleton_self _, h⟩

/-- The loop over more peers adds what each one adds. -/
theorem Adds.append {pairs pairs' : List (Str × Nat)} {p p' p'' : Peers}
    {readers readers' : List Nat} {watchers watchers' : List (Nat × Config.Peer)}
    (h : os.Adds key pairs p p' readers watchers)
    (h' : os.Adds key pairs' p' p'' readers' watchers') :
    os.Adds key (pairs ++ pairs') p p'' (readers ++ readers') (watchers ++ watchers') where
  readers_eq := by rw [h'.readers_eq, h.readers_eq, List.append_assoc]
  watchers_eq := by rw [h'.watchers_eq, h.watchers_eq, List.append_assoc]
  started := by rw [h'.started, h.started, List.length_append, Nat.add_assoc]
  readers_sub := by
    rw [List.map_append]
    exact h.readers_sub.append h'.readers_sub
  watchers_sub := by
    rw [List.map_append]
    exact h.watchers_sub.append h'.watchers_sub
  asks w hw := by
    obtain hw | hw := List.mem_append.mp hw
    · obtain ⟨raw, hraw, hasks⟩ := h.asks w hw
      exact ⟨raw, List.mem_append_left _ hraw, hasks⟩
    · obtain ⟨raw, hraw, hasks⟩ := h'.asks w hw
      exact ⟨raw, List.mem_append_right _ hraw, hasks⟩

/-- No peer, no task. -/
theorem Adds.none (os : Os) (key : Str) (pairs : List (Str × Nat)) (p : Peers) :
    os.Adds key pairs p p [] [] :=
  ⟨(List.append_nil _).symm, (List.append_nil _).symm, rfl, List.nil_sublist _, List.nil_sublist _,
    fun _ hw => absurd hw List.not_mem_nil⟩

/-- The loop adds what its peers add, for whatever memory and room there is. -/
private theorem startPeersFrom_adds (os : Os) (key : Str) (pairs : List (Str × Nat)) (p : Peers)
    (mem : Mem) : ∃ readers watchers,
      os.Adds key pairs p (os.startPeersFrom key pairs (p, mem)).1 readers watchers := by
  -- the induction is on the peers left, from what was started so far
  induction pairs generalizing p mem with
  | nil => exact ⟨[], [], .none os key [] p⟩
  | cons pair pairs ih =>
    obtain ⟨raw, inbox⟩ := pair
    obtain ⟨r, hr⟩ := exists_peerOf_yields (os.slotIp HOP_SLOT) key raw
    -- a peer that fails adds nothing
    have hskip : ∀ mem, ∃ readers watchers, os.Adds key ((raw, inbox) :: pairs) p
        (os.startPeersFrom key pairs (p, mem)).1 readers watchers := by
      intro mem
      obtain ⟨readers, watchers, h⟩ := ih p mem
      exact ⟨_, _, (Adds.none os key [(raw, inbox)] p).append h⟩
    rw [startPeersFrom]
    -- the peer's URL is no URL, or the client cannot be made
    rcases hrun : (peerOf (os.slotIp HOP_SLOT) key raw).run mem with ⟨e | peer, mem₁⟩
    · exact hskip mem₁
    · dsimp only
      cases hclient : os.client inbox peer.endpoint peer.apiKey with
      | error e => exact hskip mem₁
      | ok =>
        have hasks : os.Asks key raw inbox peer := ⟨hr.eq_of_ok hrun ▸ hr, hclient⟩
        obtain ⟨readers, watchers, h⟩ := @add_adds os key raw inbox peer hasks p
        obtain ⟨readers', watchers', h'⟩ := ih (p.add inbox peer) mem₁
        exact ⟨_, _, h.append h'⟩

/-- With room for every task and memory in plenty, each peer that can be asked is watched. -/
private theorem watched_of_asks {pairs : List (Str × Nat)} {p : Peers} (hslots : p.slots = [])
    {raw : Str} {inbox : Nat} {peer : Config.Peer} (hmem : (raw, inbox) ∈ pairs)
    (h : os.Asks key raw inbox peer) :
    (inbox, peer) ∈ (os.startPeersFrom key pairs (p, [])).1.watchers := by
  -- with every slot free each spawn succeeds
  induction pairs generalizing p with
  | nil => cases hmem
  | cons pair pairs ih =>
    obtain ⟨raw', inbox'⟩ := pair
    obtain ⟨r, hr⟩ := exists_peerOf_yields (os.slotIp HOP_SLOT) key raw'
    rw [startPeersFrom, hr.ample]
    -- the peer is the first of the list, or one behind it
    obtain heq | hmem := List.mem_cons.mp hmem
    · obtain ⟨rfl, rfl⟩ := Prod.mk.inj heq
      obtain rfl := hr.unique h.parsed
      dsimp only
      rw [h.client]
      -- the others are started behind it
      obtain ⟨readers, watchers, hadds⟩ := startPeersFrom_adds os key pairs (p.add inbox peer) []
      rw [hadds.watchers_eq, List.mem_append]
      left
      simp [Peers.add, Peers.spawn, hslots]
    -- whatever becomes of the first peer, the slots stay free
    · cases r with
      | error e => exact ih hslots hmem
      | ok peer' =>
        dsimp only
        cases os.client inbox' peer'.endpoint peer'.apiKey with
        | error e => exact ih hslots hmem
        | ok => exact ih (by simp [Peers.add, Peers.spawn, hslots]) hmem

/-- What holds of the tasks that are started for a list of peers. -/
structure Manned (os : Os) (list key : Str) (p : Peers) : Prop where
  started : p.started = p.watchers.length
  /-- no two readers post to the same mailbox -/
  readers : p.readers.Pairwise (· < ·)
  mailboxes : ∀ i ∈ p.readers, i < MAX_PEERS
  /-- each watcher takes from a mailbox of its own, which has a reader -/
  watchers : (p.watchers.map (·.1)).Sublist p.readers
  /-- the mailbox goes by the place of the peer in the list -/
  asks : ∀ i peer, (i, peer) ∈ p.watchers → ∃ raw, (peerList list)[i]? = some raw ∧
    os.Asks key raw i peer

/-- The peers that have a mailbox are the first ones. -/
private theorem mem_zip_range {raws : List Str} {n i : Nat} {raw : Str} :
    (raw, i) ∈ raws.zip (List.range n) ↔ i < n ∧ raws[i]? = some raw := by
  simp only [List.mem_iff_getElem?, List.getElem?_zip_eq_some]
  constructor
  · rintro ⟨k, hraw, hk⟩
    obtain ⟨hlt, rfl⟩ := List.getElem?_eq_some_iff.mp hk
    rw [List.getElem_range]
    exact ⟨by rwa [List.length_range] at hlt, hraw⟩
  · rintro ⟨hlt, hraw⟩
    exact ⟨i, hraw, List.getElem?_range hlt⟩

/-- The mailboxes are taken in their order. -/
private theorem map_snd_zip_sublist {β γ : Type} (l : List β) (l' : List γ) :
    ((l.zip l').map (·.2)).Sublist l' := by
  induction l generalizing l' with
  | nil => exact List.nil_sublist _
  | cons a l ih =>
    cases l' with
    | nil => exact List.nil_sublist _
    | cons b l' => exact (ih l').cons_cons b

/-- Which peers of a list are watched. Whatever memory and room for tasks there is, every watcher
    is that of a peer among the first `MAX_PEERS` of the list and takes from a mailbox that no
    other takes from, and to which one reader posts. And where there is plenty of both, one that
    fails keeps none of the others from being watched. -/
theorem startPeers_exact (os : Os) (list key : Str) :
    (∀ slots mem, os.Manned list key (os.startPeers list key slots mem).1) ∧
    ∀ i peer, (i, peer) ∈ (os.startPeers list key [] []).1.watchers ↔
      i < MAX_PEERS ∧ ∃ raw, (peerList list)[i]? = some raw ∧ os.Asks key raw i peer := by
  have hmanned : ∀ slots mem, os.Manned list key (os.startPeers list key slots mem).1 := by
    intro slots mem
    obtain ⟨readers, watchers, h⟩ := startPeersFrom_adds os key
      ((peerList list).zip (List.range MAX_PEERS)) ⟨[], [], 0, slots⟩ mem
    have hreaders := h.readers_eq
    have hwatchers := h.watchers_eq
    rw [List.nil_append] at hreaders hwatchers
    -- the mailboxes are dealt out in order
    have hsub : readers.Sublist (List.range MAX_PEERS) :=
      h.readers_sub.trans (map_snd_zip_sublist _ _)
    -- the five facts about what is started
    refine ⟨?_, ?_, ?_, ?_, ?_⟩
    · rw [startPeers, hwatchers, h.started, Nat.zero_add]
    · rw [startPeers, hreaders]
      exact List.pairwise_lt_range.sublist hsub
    · intro i hi
      rw [startPeers, hreaders] at hi
      exact List.mem_range.mp (hsub.subset hi)
    · rw [startPeers, hwatchers, hreaders]
      exact h.watchers_sub
    · intro i peer hmem
      rw [startPeers, hwatchers] at hmem
      obtain ⟨raw, hraw, hasks⟩ := h.asks _ hmem
      exact ⟨raw, (mem_zip_range.mp hraw).2, hasks⟩
  refine ⟨hmanned, fun i peer => ⟨fun h => ?_, ?_⟩⟩
  -- a watcher that runs has its place and its peer
  · obtain ⟨raw, hraw, hasks⟩ := (hmanned [] []).asks i peer h
    refine ⟨(hmanned [] []).mailboxes i ?_, raw, hraw, hasks⟩
    exact (hmanned [] []).watchers.subset (List.mem_map.mpr ⟨_, h, rfl⟩)
  -- and a peer that can be asked has a watcher, as no spawn fails
  · rintro ⟨hi, raw, hraw, hasks⟩
    exact watched_of_asks rfl (mem_zip_range.mpr ⟨hi, hraw⟩) hasks

/-! ### The resident -/

/-- The port is the one that the environment names, if that is a number for a port and not 0. -/
private theorem portOf_eq (env : Option Str) :
    portOf env = ((env.bind parseU16).filter (· ≠ 0)).getD DEFAULT_PORT := by
  cases env with
  | none => rfl
  | some s =>
    simp only [portOf, Option.map_some, Option.bind_some]
    cases parseU16 s with
    | none => rfl
    | some port =>
      by_cases hport : port = 0
      · rw [hport]
        rfl
      · simp [Option.filter, hport]

/-- The socket is never bound at port 0. -/
private theorem portOf_ne_zero (env : Option Str) : portOf env ≠ 0 := by
  rw [portOf_eq]
  cases hport : (env.bind parseU16).filter (· ≠ 0) with
  | none => decide
  | some port =>
    rw [Option.filter_eq_some_iff] at hport
    exact of_decide_eq_true hport.2

/-- What the resident runs on. -/
structure Resides (os : Os) (r : Resident) : Prop where
  up : os.up = .ok ()
  port : r.port = portOf (os.env (str "ER_PORT_DNS"))
  bound : os.udpBind r.port = .ok ()
  /-- the domain of the environment, and no CNAMEs -/
  server : r.server = ⟨servedDomain os.domain, CNAMEs.default⟩
  manned : os.Manned os.peers os.apiKey r.peers
  /-- the self test asks for the job of the environment, as a name of the domain -/
  selftest : ∀ name, r.selftest = some name → ∃ job, os.env (str "HOPDNS_SELFTEST") = some job ∧
    name = job ++ dot :: r.server.domain

/-- A resident that does not exit has all that it runs on. -/
private theorem resident_resides {os : Os} {slots : List Bool} {mem : Mem} {r : Resident}
    (h : os.resident slots mem = some r) : os.Resides r := by
  unfold resident at h
  -- the network has to come up before anything else
  cases hup : os.up with
  | error e =>
    rw [hup] at h
    cases h
  | ok =>
    rw [hup] at h
    rcases hnew : (Server.new os.domain).run mem with ⟨e | server, mem'⟩
    · rw [hnew] at h
      cases h
    · rw [hnew] at h
      have hserver := (server_new_yields os.domain).eq_of_ok hnew
      -- the port is bound before the peers are started
      cases hbind : os.udpBind (portOf (os.env (str "ER_PORT_DNS"))) with
      | error e =>
        simp only [hbind] at h
        cases h
      | ok =>
        simp only [hbind, Option.some.injEq] at h
        subst h
        refine ⟨hup, rfl, hbind, (Except.ok.inj hserver).symm, (startPeers_exact os _ _).1 _ _,
          fun name hname => ?_⟩
        -- the self test that runs is the one of the environment
        obtain ⟨hname, -⟩ := Option.filter_eq_some_iff.mp hname
        obtain ⟨job, hjob, rfl⟩ := Option.map_eq_some_iff.mp hname
        exact ⟨job, hjob, rfl⟩

/-- With memory in plenty the resident runs where there is a network that grants it the port. -/
private theorem resident_runs {os : Os} (slots : List Bool) (hup : os.up = .ok ())
    (hbind : os.udpBind (portOf (os.env (str "ER_PORT_DNS"))) = .ok ()) :
    ∃ r, os.resident slots [] = some r ∧
      r.peers = (os.startPeers os.peers os.apiKey slots []).1 := by
  unfold resident
  rw [hup, (server_new_yields os.domain).ample]
  simp only [hbind]
  exact ⟨_, rfl, rfl⟩

/-- What the resident runs on, and when it exits. One that runs has the network, a socket at the
    port of the environment or the default one, never at 0, a server for the domain, and watchers
    of peers of the list, whatever memory and room for tasks there is. With memory in plenty it
    exits only for the network or the socket, and for no peer; and with room for its tasks it
    watches each of the first `MAX_PEERS` that can be asked. -/
theorem resident_exact (os : Os) :
    (∀ slots mem r, os.resident slots mem = some r → os.Resides r ∧ r.port ≠ 0) ∧
    (∀ slots, os.resident slots [] = none ↔
      os.up ≠ .ok () ∨ os.udpBind (portOf (os.env (str "ER_PORT_DNS"))) ≠ .ok ()) ∧
    ∀ r, os.resident [] [] = some r → ∀ i peer, (i, peer) ∈ r.peers.watchers ↔
      i < MAX_PEERS ∧ ∃ raw, (peerList os.peers)[i]? = some raw ∧ os.Asks os.apiKey raw i peer := by
  refine ⟨fun slots mem r h => ?_, fun slots => ⟨fun hnone => ?_, fun hfail => ?_⟩,
    fun r h i peer => ?_⟩
  · have hresides := resident_resides h
    exact ⟨hresides, hresides.port ▸ portOf_ne_zero _⟩
  -- with the network up and the port free the resident runs
  · by_contra hgranted
    obtain ⟨hup, hbind⟩ := not_or.mp hgranted
    obtain ⟨r, hrun, -⟩ := resident_runs slots (not_not.mp hup) (not_not.mp hbind)
    cases hnone.symm.trans hrun
  -- what runs had both
  · cases hrun : os.resident slots [] with
    | none => rfl
    | some r =>
      have hresides := resident_resides hrun
      exact (hfail.elim (· hresides.up) (· (hresides.port ▸ hresides.bound))).elim
  -- with memory in plenty and all slots free every peer is watched
  · have hresides := resident_resides h
    obtain ⟨r', hrun, hpeers⟩ := @resident_runs os [] hresides.up
      (hresides.port ▸ hresides.bound)
    obtain rfl := Option.some.inj (h.symm.trans hrun)
    rw [hpeers]
    exact (startPeers_exact os os.peers os.apiKey).2 i peer

end Os

end HopDns

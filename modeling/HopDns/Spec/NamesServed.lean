import HopDns.Spec.DaemonCorrect
import HopDns.Spec.NameText
import HopDns.Spec.StartCorrect

/-!
# The names of the file are served

From the file to the answer: what the pairs of the file say of a name is what every question of
class IN or ANY for it is answered with, from the first one to the last and whatever the peers
report. A question of another class is refused, whatever the file says.

## Key results

- `Daemon.names_served`: a daemon that was started serves the names of its file
-/

namespace HopDns

open ForStd

namespace Daemon

variable {ι α : Type} [DecidableEq ι]

/-- What a daemon makes of a question that it was started with the pairs for. -/
structure Serves (domain : Str) (pairs : List (Str × Str)) (q : Query) (t : Str)
    (m : Dns.Message) : Prop where
  /-- what the pairs say of the name is the answer, for every type; it is SERVFAIL where that is no
      name, or its record does not fit -/
  aliased : ∀ target, CNAMEOf pairs t (some target) →
    Aliased m (spare q (Server.limitFor q.edns)) target
  /-- a name of which they say nothing has no CNAME in the domain, and outside there is no answer -/
  other : CNAMEOf pairs t none →
    (∀ rr ∈ m.answers, ∃ ip, rr = Reply.aRecord ip TTL) ∧ (¬LiesIn t domain → m.answers = [])

/-- A server with the names of the pairs serves them. -/
private theorem serves_of_decides {s : Server} {pairs : List (Str × Str)}
    (hcnames : s.cnames = CNAMEs.newOf pairs) {cache : Cache} {q : Query} {t : Str}
    (ht : nameText q.qname = some t) (hlike : NameLike t)
    (hclass : Server.asksInternet q.qclass = true) {m : Dns.Message}
    (h : Server.Decides s cache q (spare q (Server.limitFor q.edns)) m) :
    Serves s.domain pairs q t m := by
  -- the table was built of the pairs, and the text is in its own canonical form
  have hlookup : CNAMEOf pairs t (s.cnames.lookup t) := by
    have hfound := CNAMEs.lookup_newOf pairs t (Nat.le_succ_of_le hlike.length_le)
    rwa [hlike.stripDot_eq, hlike.lower, ← hcnames] at hfound
  -- a negative reply carries no record, whichever of its forms it has
  have hnegative : ∀ {room rcode zone}, Negative m room rcode zone → m.answers = [] := by
    rintro room rcode zone (⟨-, -, -, -, hanswers, -⟩ | ⟨-, -, hanswers, -⟩) <;> exact hanswers
  refine ⟨fun target htarget => h.aliased t target ht hclass (hlookup.unique htarget),
    fun hnone => ?_⟩
  have hl := hlookup.unique hnone
  -- no CNAME has the name, so the suffix decides
  by_cases hin : LiesIn t s.domain
  · refine ⟨fun rr hrr => ?_, fun hout => absurd hin hout⟩
    have hnames : Server.Names s cache t _ _ := Server.names_iff.mpr ⟨hin, rfl, rfl⟩
    -- addresses are what is left, or else the reply is negative
    by_cases hask : Server.asksAddress q.qtype = true ∧ (s.lookup cache t).addresses cache ≠ []
    · obtain ⟨-, -, hrecords, -⟩ := h.addressed t _ _ ht hclass hl hnames hask.1 hask.2
      obtain ⟨ip, -, hip⟩ := hrecords rr hrr
      exact ⟨ip, hip⟩
    · rw [hnegative (h.negative t _ _ ht hclass hl hnames hask)] at hrr
      cases hrr
  -- out of the domain there is a static zone at most, which answers nothing
  · have hempty : m.answers = [] := by
      cases hz : s.cnames.zoneOf t with
      | some z => exact hnegative (h.zone t z ht hclass hl hin hz)
      | none => exact (h.elsewhere t ht hclass hl hin hz).2.1
    exact ⟨fun rr hrr => absurd (hempty ▸ hrr) List.not_mem_nil, fun _ => hempty⟩

/-- The names of the file are served. A daemon that a start with the file brings about answers
    every question of class IN or ANY for a name that has a text, in every state that any run leads
    to, by the pairs of the file: with the target of the name where they give it one (or SERVFAIL,
    where that cannot be written), and otherwise with addresses alone, and with none outside its
    domain. -/
theorem names_served {host : Host} {flags : Flags} {path text : Str} {config : Config}
    (hflags : flags.config = some path) (hread : host.readToString path = .ok text)
    (hparse : (Config.parse text).run [] = (.ok config, [])) {mem : Mem} {server : Server}
    (hstart : ((host.start flags).run (Host.nothing, mem)).1 = .ok server)
    {d₀ d d' : Daemon ι} {acts : List (Act ι α)} (h₀ : d₀.Initial .host)
    (hserver : d₀.owner.server = server) (hrun : Run (Step .host) d₀ acts d) {asker : α}
    {datagram : List UInt8} {reply : Option (List UInt8)}
    (hstep : Step .host d (.question asker datagram reply) d') {q : Query} {t : Str}
    (hq : parseQuery (datagram.take Platform.host.QUERY_MAX) = .ok q)
    (ht : nameText q.qname = some t) (hclass : Server.asksInternet q.qclass = true) :
    ∃ bytes m, reply = some bytes ∧ Dns.Message.read bytes = some m ∧
      Serves (servedDomain flags.domain) config.cnames q t m := by
  obtain ⟨started, b, mem', hrun₀, hstarts⟩ | ⟨e, b, mem', hrun₀, -⟩ :=
    Host.start_run host flags mem
  · rw [hrun₀] at hstart
    obtain rfl := Except.ok.inj hstart
    -- the file is the one that was read
    have hcnames : started.cnames = CNAMEs.newOf config.cnames := by
      have hnames := hstarts.names
      rw [hflags] at hnames
      generalize started.cnames = cnames at hnames ⊢
      cases hnames with
      | @file path text' config' hread' hparse' =>
        obtain rfl := Except.ok.inj (hread.symm.trans hread')
        rw [Except.ok.inj (Prod.mk.inj (hparse.symm.trans hparse')).1]
    -- the reply at this step is that of the server on the cache it has then
    obtain ⟨k, hfollows, -⟩ := Follows.exists_log h₀ hrun
    rw [hserver] at hfollows
    obtain ⟨bytes, m, hrespond, hread, hdecides⟩ := started.respond_decides d.owner.cache hq
    obtain ⟨n, hn⟩ := Query.exists_asks hq
    refine ⟨bytes, m, (hfollows.reply_eq hstep).trans hrespond, hread, ?_⟩
    rw [← hstarts.domain]
    exact serves_of_decides hcnames ht (nameLike_of_nameText (hn.qname ▸ ht)) hclass hdecides
  -- a start that failed gives no server
  · rw [hrun₀] at hstart
    cases hstart

/-- A file with one name. -/
def mailFile : Str := str "cnames:\n  mail.hop.local: mail.example.com\n"

/-- A host with that file, which grants all that is asked of it. -/
def mailHost : Host where
  readToString _ := .ok mailFile
  bind _ := .ok ()
  setReadTimeout := .ok ()
  client _ _ _ := .ok ()
  spawn _ _ := .ok ()

def mailFlags : Flags where
  listen := DEFAULT_LISTEN
  peers := [str "http://10.0.0.1:8080"]
  domain := DEFAULT_DOMAIN
  apiKey := []
  config := some (str "hopdns.yaml")

/-- The server that it starts. -/
def mailServer : Server where
  domain := DEFAULT_DOMAIN
  cnames := CNAMEs.newOf [(str "mail.hop.local", str "mail.example.com")]

/-- The daemon with that server, and one peer. -/
def mailDaemon : Daemon Unit :=
  { alone .host (Loop.started []) with owner := { (alone .host (Loop.started [])).owner with
      server := mailServer } }

/-- `mail.hop.local` -/
def mailName : Dns.Name := ⟨[str "mail", str "hop", str "local"], by decide, by decide⟩

/-- The question for it, right after the start. -/
theorem names_served_mail : ∃ bytes m,
    (mailDaemon.owner.reply ((queryFor mailName rtype.A).take 4096)).1 = some bytes ∧
      Dns.Message.read bytes = some m ∧
        Serves (servedDomain DEFAULT_DOMAIN) [(str "mail.hop.local", str "mail.example.com")]
          (queryOf mailName rtype.A) (str "mail.hop.local") m := by
  -- the daemon starts idle, and one look at the empty mailbox brings it to the socket
  have h₀ : mailDaemon.Initial .host :=
    ⟨(alone_initial .host).loops, fun _ => rfl, rfl, rfl, rfl, rfl, rfl⟩
  have hrun : Run (Step .host) mailDaemon [(.empty none : Act Unit Unit)]
      { mailDaemon with stand := .receiving } := .single (.empty rfl rfl)
  have hparse : (Config.parse mailFile).run [] =
      (.ok ⟨[(str "mail.hop.local", str "mail.example.com")]⟩, []) := by decide +kernel
  have hstart : ((mailHost.start mailFlags).run (Host.nothing, [])).1 = .ok mailServer := by
    decide +kernel
  have hquery : parseQuery ((queryFor mailName rtype.A).take Platform.host.QUERY_MAX) =
      .ok (queryOf mailName rtype.A) := by decide +kernel
  exact names_served rfl rfl hparse hstart h₀ rfl hrun
    (.question () (queryFor mailName rtype.A) rfl) hquery (by decide +kernel) rfl

end Daemon

end HopDns

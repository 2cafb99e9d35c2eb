import HopDns.Native.SelfTest
import HopDns.Spec.BuilderCorrect
import HopDns.Spec.DecodeExact
import HopDns.Spec.EncodeCorrect
import HopDns.Spec.Provenance

/-!
# What the self test says

The self test asks the own server, whose cache changes between the attempts, through a network
that may lose each question or answer. It finds an address at the first attempt that is answered
from a cache which has one, and what it logs is what the server had to say then.

## Key results

- `answer_found`: what the self test reads in an answer of the server
- `selftest_exact`: what it logs, for any caches and any losses
-/

namespace HopDns

open ForStd
open Reply (aRecord)

/-! ## The addresses of an answer -/

/-- The address of a record that was read. -/
def Record.address (r : Record) : Option Ipv4Addr :=
  match r.data with
  | .a ip => some ip
  | _ => none

/-- The address that is read is that of an A record. -/
private theorem RecordRead.address_eq_some {msg : List UInt8} {pos : Nat} {rr : Dns.Record}
    {r : Record} (h : RecordRead msg pos rr r) {ip : Ipv4Addr} :
    r.address = some ip ↔ rr.rtype = rtype.A ∧ rr.rdata = ip.octets := by
  -- the data of the record read and the record written belong together by type
  have hdata := h.data
  rw [Record.address]
  cases hr : r.data with
  | a ip' =>
    rw [hr] at hdata
    cases hdata with
    | a htype hoctets =>
      rw [hoctets]
      exact ⟨fun heq => ⟨htype, by rw [Option.some.inj heq]⟩,
        fun heq => congrArg some (octets_inj heq.2)⟩
  -- the other kinds of data belong to other types
  | cname target =>
    rw [hr] at hdata
    cases hdata with
    | cname htype _ => exact ⟨nofun, fun heq => absurd (htype.symm.trans heq.1) (by decide)⟩
  | soa mname rname serial refresh retry expire minimum =>
    rw [hr] at hdata
    cases hdata with
    | soa htype _ _ _ => exact ⟨nofun, fun heq => absurd (htype.symm.trans heq.1) (by decide)⟩
  | other type =>
    rw [hr] at hdata
    cases hdata with
    | other ha _ _ => exact ⟨nofun, fun heq => absurd heq.1 ha⟩

/-- Records that are no A records hold no address. -/
private theorem RecordsRead.addresses_nil {msg : List UInt8} {pos : Nat} {rrs : List Dns.Record}
    {rs : List Record} (h : RecordsRead msg pos rrs rs) (hnone : ∀ rr ∈ rrs, rr.rtype ≠ rtype.A) :
    rs.filterMap Record.address = [] := by
  induction h with
  | nil => rfl
  | @cons pos rr rrs r rs h _ ih =>
    obtain ⟨hrr, hrrs⟩ := List.forall_mem_cons.mp hnone
    have haddress : r.address = none :=
      Option.eq_none_iff_forall_ne_some.mpr fun ip hip => hrr (h.address_eq_some.mp hip).1
    rw [List.filterMap_cons_none haddress, ih hrrs]

/-- The A records of addresses hold these addresses. -/
private theorem RecordsRead.addresses_map {msg : List UInt8} {pos : Nat} {ips : List Ipv4Addr}
    {rs : List Record} (h : RecordsRead msg pos (ips.map fun ip => aRecord ip TTL) rs) :
    rs.filterMap Record.address = ips := by
  induction ips generalizing pos rs with
  | nil =>
    cases h with
    | nil => rfl
  | cons ip ips ih =>
    cases h with
    | cons h hrest =>
      rw [List.filterMap_cons_some (h.address_eq_some.mpr ⟨rfl, rfl⟩), ih hrest]

/-- The addresses that are read in a well-formed message are those of its A records. -/
private theorem aRecords_of_decode {m' : Dns.Message} (hm' : m'.WellFormed) {m : Message}
    {mem mem' : Mem} (h : (decode m'.bytes).run mem = (.ok m, mem')) :
    m.flags = m'.flags ∧ (∀ ips : List Ipv4Addr,
      m'.answers = (ips.map fun ip => aRecord ip TTL) → m.aRecords = ips) ∧
      ((∀ rr ∈ m'.answers, rr.rtype ≠ rtype.A) → m.aRecords = []) := by
  obtain ⟨qd, an, ns, pos, answers, authority, hread⟩ := decode_sound h
  obtain ⟨-, hflags, rfl, -⟩ := hread.unique hm'
  refine ⟨hflags, fun ips hips => ?_, fun hnone => hread.answers_read.addresses_nil hnone⟩
  have hanswers := hread.answers_read
  rw [hips] at hanswers
  exact hanswers.addresses_map

/-! ## The answers of the server -/

/-- The question of an attempt. -/
def selfQuery (attempt : Nat) (n : Dns.Name) : List UInt8 :=
  queryBytes (selftestId attempt) n rtype.A none

/-- The question fits in a datagram. -/
private theorem length_selfQuery_le (attempt : Nat) (n : Dns.Name) :
    (selfQuery attempt n).length ≤ UDP_MAX := by
  have hwire := n.length_wire_le
  rw [selfQuery, length_queryBytes, show Reply.reserve none = 0 from rfl]
  unfold HEADER_LEN UDP_MAX
  omega

/-- The addresses that an answer from a cache has for a name: those of the verdict, as many as fit
    a reply without EDNS. -/
def Server.found (s : Server) (cache : Cache) (n : Dns.Name) : List Ipv4Addr :=
  match s.verdict cache (builtQuery 0 n rtype.A none) with
  | .zone _ ips _ => ips.take ((UDP_MAX - (HEADER_LEN + n.wire.length + 4)) / 16)
  | _ => []

/-- The addresses that are found are those that fit in the reply. -/
private theorem found_zone {s : Server} {cache : Cache} {n : Dns.Name} {known : Bool}
    {ips : List Ipv4Addr} {zone : Str} (id : UInt16)
    (h : s.verdict cache (builtQuery 0 n rtype.A none) = .zone known ips zone) :
    s.found cache n = (Reply.startDraft (builtQuery id n rtype.A none) n).fitting UDP_MAX ips := by
  rw [Server.found, h, Draft.fitting, Draft.room, Reply.length_startDraft]
  rfl

/-- An answer holds the addresses that were found, or no A record at all. -/
private theorem replyTo_found (s : Server) (cache : Cache) (id : UInt16) (n : Dns.Name) :
    let m := s.replyTo cache (builtQuery id n rtype.A none) n UDP_MAX
    (s.found cache n = [] ∧ ∀ rr ∈ m.answers, rr.rtype ≠ rtype.A) ∨
    (∃ t, nameText n.wire = some t) ∧ m.answers = ((s.found cache n).map fun ip => aRecord ip TTL) ∧
      m.authority = [] ∧ m.flags = Reply.replyFlags RD .noError := by
  intro m
  have hempty : (Reply.startDraft (builtQuery id n rtype.A none) n).records = [] := rfl
  -- the verdict does not depend on the id
  have hm : m = ((Reply.startDraft (builtQuery id n rtype.A none) n).render UDP_MAX
      (s.verdict cache (builtQuery 0 n rtype.A none))).message := rfl
  -- a message without address records has none among its answers
  have hnone : addressRecords m = [] → ∀ rr ∈ m.answers, rr.rtype ≠ rtype.A := by
    intro hnil rr hrr
    have hfilter := List.filter_eq_nil_iff.mp hnil rr
      (List.mem_append_left _ (List.mem_append_left _ hrr))
    simpa using hfilter
  have hrender := addressRecords_render hempty UDP_MAX
    (s.verdict cache (builtQuery 0 n rtype.A none))
  rw [← hm] at hrender
  cases hv : s.verdict cache (builtQuery 0 n rtype.A none) with
  | refused =>
    rw [hv] at hrender
    obtain hnil | ⟨_, _, _, heq, -⟩ := hrender
    · exact .inl ⟨by rw [Server.found, hv], hnone hnil⟩
    · cases heq
  | aliased target =>
    rw [hv] at hrender
    obtain hnil | ⟨_, _, _, heq, -⟩ := hrender
    · exact .inl ⟨by rw [Server.found, hv], hnone hnil⟩
    · cases heq
  -- only a name of a zone can have addresses
  | zone known ips zone =>
    rw [hv] at hm hrender
    have hfound := found_zone id hv
    -- no address is found, or the first are put in and nothing else is
    by_cases hfit : s.found cache n = []
    · refine .inl ⟨hfit, hnone ?_⟩
      obtain hnil | ⟨_, _, _, heq, hmap⟩ := hrender
      · exact hnil
      · obtain ⟨rfl, rfl, rfl⟩ := Verdict.zone.inj heq
        rw [hmap, ← hfound, hfit]
        rfl
    · obtain ⟨t, ht, -⟩ := Server.verdict_eq_zone (q := builtQuery 0 n rtype.A none)
        ⟨rfl, rfl⟩ hv
      simp only [Draft.render, ← hfound, if_neg hfit] at hm
      obtain ⟨-, hanswers, hauthority⟩ := message_addAnswers hempty
        ((s.found cache n).map fun ip => aRecord ip TTL)
      rw [← hm] at hanswers hauthority
      exact .inr ⟨⟨t, ht⟩, hanswers, hauthority, by rw [hm]; rfl⟩

/-- What the self test reads in an answer of the server is what the server has; and where it has
    an address the answer can be read. -/
theorem answer_found {s : Server} {cache : Cache} {attempt : Nat} {n : Dns.Name}
    {bytes : List UInt8} (h : s.respond cache (selfQuery attempt n) = some bytes) :
    (∀ m mem mem', (decode bytes).run mem = (.ok m, mem') → m.aRecords = s.found cache n) ∧
    (s.found cache n ≠ [] →
      ∃ m, Yields (decode bytes) (.ok m) ∧ m.rcode = Rcode.noError.toUInt16) := by
  -- the question is one that the server reads, and the buffer is large enough for its answer
  have hn : (builtQuery (selftestId attempt) n rtype.A none).Asks n := ⟨rfl, rfl⟩
  have hbuffer : UDP_MAX ≤ (List.replicate EDNS_MAX (0 : UInt8)).length := by
    rw [List.length_replicate]
    decide
  have hd := @Server.Drafted.answer s cache _ _ _ _
    (parseQuery_queryBytes (selftestId attempt) n rtype.A none) hn (Server.fits_of_le hn hbuffer)
  have hlimit : Server.replyLimit (builtQuery (selftestId attempt) n rtype.A none)
      (List.replicate EDNS_MAX 0) = UDP_MAX := by
    rw [Server.replyLimit, List.length_replicate]
    exact (by decide : min (Server.limitFor none) EDNS_MAX = UDP_MAX)
  rw [hlimit] at hd
  have hbytes := hd.respond_eq.symm.trans h
  -- the bytes that came back are the draft's message in wire format
  rw [Draft.closed_eq _ hd.sound.ordered] at hbytes
  obtain rfl := Option.some.inj hbytes
  have hwf := hd.sound.wellFormed
  have hquestions : (s.replyTo cache (builtQuery (selftestId attempt) n rtype.A none) n
      UDP_MAX).questions = [⟨n.wire, rtype.A, CLASS_IN⟩] := by
    obtain ⟨-, hquestion, -⟩ := (Reply.startDraft (builtQuery (selftestId attempt) n rtype.A none)
      n).render_frame UDP_MAX (s.verdict cache (builtQuery (selftestId attempt) n rtype.A none))
    rw [Server.replyTo, Server.replyDraft, Draft.message, hquestion]
    rfl
  -- either there is nothing to hear, or the answers are the addresses
  obtain ⟨hfound, hnone⟩ | ⟨⟨t, ht⟩, hanswers, hauthority, hflags⟩ :=
    replyTo_found s cache (selftestId attempt) n
  · refine ⟨fun m mem mem' hrun => ?_, fun hsome => absurd hfound hsome⟩
    rw [hfound]
    exact (aRecords_of_decode hwf hrun).2.2 hnone
  · refine ⟨fun m mem mem' hrun => (aRecords_of_decode hwf hrun).2.1 _ hanswers, fun _ => ?_⟩
    -- the records point at the question, whose name is one of visible bytes
    have hascii := asciiLabels_of_nameText ht
    have hcount := hwf.an
    rw [show (s.replyDraft cache _ n UDP_MAX).message.answers = _ from hanswers,
      List.length_map] at hcount
    have hread := @decode_bytes _ (SoaCall × Dns.Record) n _ _ hquestions rfl _ [] _ (fun p => p.2)
      _ (fun p => p.1.record) hanswers hauthority hcount (by decide)
      (fun hname ip _ pos hpos hat => AnswerCall.Writes.readRecord (c := .a ip TTL) rfl trivial
        n.legal hascii (Nat.le_succ_of_le n.fits) hname hpos hat)
      (fun _ hb => absurd hb List.not_mem_nil)
    refine ⟨_, hread, ?_⟩
    rw [Message.rcode, hflags]
    exact Reply.rcode_replyFlags RD .noError

/-! ## The loop -/

/-- An attempt finds an address: it is answered, from a cache that has one for the name. -/
def Finds (s : Server) (caches : Nat → Cache) (heard : Nat → List UInt8 → Option (List UInt8))
    (n : Dns.Name) (attempt : Nat) : Prop :=
  (heard attempt (selfQuery attempt n)).isSome ∧ s.found (caches attempt) n ≠ []

/-- What comes back is the answer of the server, from the cache it has at the attempt. -/
def FromServer (s : Server) (caches : Nat → Cache)
    (heard : Nat → List UInt8 → Option (List UInt8)) (n : Dns.Name) : Prop :=
  ∀ attempt bytes, heard attempt (selfQuery attempt n) = some bytes →
    s.respond (caches attempt) (selfQuery attempt n) = some bytes

section

variable {s : Server} {caches : Nat → Cache} {heard : Nat → List UInt8 → Option (List UInt8)}
  {name : Str} {n : Dns.Name}

/-- What an attempt reports is what the server has, whatever memory there is. -/
private theorem heardAddresses_some (hheard : FromServer s caches heard n) {attempt : Nat}
    {mem : Mem} {first : Ipv4Addr} {count : Nat} {rcode : UInt16}
    (h : (heardAddresses (heard attempt (selfQuery attempt n)) mem).1 =
      some (first, count, rcode)) :
    Finds s caches heard n attempt ∧ (s.found (caches attempt) n).head? = some first ∧
      count = (s.found (caches attempt) n).length ∧ rcode = Rcode.noError.toUInt16 := by
  -- a lost answer names no address
  cases hback : heard attempt (selfQuery attempt n) with
  | none =>
    rw [hback] at h
    cases h
  | some bytes =>
    obtain ⟨hall, hsome⟩ := answer_found (hheard _ _ hback)
    rw [hback, heardAddresses] at h
    rcases hrun : (decode bytes).run mem with ⟨e | m, mem'⟩
    · rw [hrun] at h
      cases h
    · have haddresses := hall m mem mem' hrun
      rw [hrun] at h
      simp only [haddresses] at h
      -- an answer without an address counts as none
      cases hfound : s.found (caches attempt) n with
      | nil =>
        rw [hfound] at h
        cases h
      | cons first' rest =>
        rw [hfound] at h
        obtain ⟨rfl, rfl, rfl⟩ := by simpa using h
        obtain ⟨m', hyields, hcode⟩ := hsome (by rw [hfound]; exact List.cons_ne_nil _ _)
        obtain rfl := Except.ok.inj (hyields.eq_of_ok hrun)
        refine ⟨⟨by rw [hback]; rfl, by rw [hfound]; exact List.cons_ne_nil _ _⟩, ?_, ?_, hcode⟩
        · rfl
        · rfl

/-- With memory in plenty an attempt that finds an address reports it. -/
private theorem heardAddresses_none (hheard : FromServer s caches heard n) {attempt : Nat}
    (h : (heardAddresses (heard attempt (selfQuery attempt n)) []).1 = none) :
    ¬Finds s caches heard n attempt := by
  -- a reply that finds an address would have been heard
  intro hfinds
  obtain ⟨bytes, hback⟩ := Option.isSome_iff_exists.mp hfinds.1
  obtain ⟨hall, hsome⟩ := answer_found (hheard _ _ hback)
  obtain ⟨m, hyields, -⟩ := hsome hfinds.2
  have haddresses := hall m [] [] hyields.ample
  -- with memory in plenty it is read, and its addresses are the server's
  rw [hback, heardAddresses, hyields.ample] at h
  simp only [haddresses] at h
  cases hfound : s.found (caches attempt) n with
  | nil => exact hfinds.2 hfound
  | cons first rest =>
    rw [hfound] at h
    cases h

/-- Reading an answer takes no memory that it does not get. -/
private theorem heardAddresses_ample (back : Option (List UInt8)) : (heardAddresses back []).2 =
    [] := by
  cases back with
  | none => rfl
  | some bytes =>
    obtain ⟨r, hyields, -⟩ := decode_ends bytes
    rw [heardAddresses, hyields.ample]
    cases r with
    | error e => rfl
    | ok m =>
      simp only
      split <;> rfl

/-- The question of an attempt is written into the buffer, which keeps its size. -/
private theorem encodeQuery_selfQuery (hn : encodeName name = some n) (attempt : Nat)
    {q : List UInt8} (hq : q.length = UDP_MAX) :
    ∃ q', (encodeQuery (selftestId attempt) name rtype.A none).run q =
        (.ok (selfQuery attempt n).length, q') ∧
      q'.take (selfQuery attempt n).length = selfQuery attempt n ∧ q'.length = UDP_MAX := by
  have hfits : (selfQuery attempt n).length ≤ q.length := hq ▸ length_selfQuery_le attempt n
  obtain ⟨q', hrun, htake⟩ := encodeQuery_ok hn hfits
  refine ⟨q', hrun, htake, ?_⟩
  -- each of the three writes keeps the size
  rw [encodeQuery] at hrun
  obtain ⟨_, o₁, h₁, hrun⟩ := Method.run_bind_eq_ok.mp hrun
  obtain ⟨pos, o₂, h₂, hrun⟩ := Method.run_bind_eq_ok.mp hrun
  obtain ⟨_, o₃, h₃, hrun⟩ := Method.run_bind_eq_ok.mp hrun
  obtain ⟨n', -, -, h₂⟩ := putName_run_ok.mp h₂
  obtain ⟨-, rfl⟩ := Prod.mk.inj hrun
  rw [List.length_setRange? (putSlice_run_ok.mp h₃), List.length_setRange? h₂,
    List.length_setRange? (putSlice_run_ok.mp h₁), hq]

/-- One attempt: what it reports ends the loop, and otherwise the next one follows. -/
private theorem selftestFrom_turn (hn : encodeName name = some n) (attempt tries : Nat)
    {q : List UInt8} (hq : q.length = UDP_MAX) (mem : Mem) :
    ∃ q', q'.length = UDP_MAX ∧
      (∀ mem', heardAddresses (heard attempt (selfQuery attempt n)) mem = (none, mem') →
        selftestFrom heard name attempt q mem (tries + 1) =
          selftestFrom heard name (attempt + 1) q' mem' tries) ∧
      ∀ first count rcode mem',
        heardAddresses (heard attempt (selfQuery attempt n)) mem =
          (some (first, count, rcode), mem') →
        selftestFrom heard name attempt q mem (tries + 1) = .ok first count rcode attempt := by
  obtain ⟨q', hrun, htake, hq'⟩ := encodeQuery_selfQuery hn attempt hq
  refine ⟨q', hq', fun mem' hback => ?_, fun first count rcode mem' hback => ?_⟩
  -- an attempt without an address goes on to the next one, with the buffer it wrote
  · rw [selftestFrom, hrun]
    simp only [htake, hback]
  · rw [selftestFrom, hrun]
    simp only [htake, hback]

/-- What is logged as found was found, at an attempt of the loop and whatever memory there is. -/
private theorem selftestFrom_ok (hheard : FromServer s caches heard n)
    (hn : encodeName name = some n)
    {tries attempt : Nat} {q : List UInt8} (hq : q.length = UDP_MAX) {mem : Mem}
    {first : Ipv4Addr} {count : Nat} {rcode : UInt16} {k : Nat}
    (h : selftestFrom heard name attempt q mem tries = .ok first count rcode k) :
    Finds s caches heard n k ∧ (s.found (caches k) n).head? = some first ∧
      count = (s.found (caches k) n).length ∧ rcode = Rcode.noError.toUInt16 := by
  -- the induction is on the tries left, from any attempt and any memory
  induction tries generalizing attempt q mem with
  | zero => cases h
  | succ tries ih =>
    obtain ⟨q', hq', hnone, hsome⟩ := @selftestFrom_turn heard name n hn attempt tries q hq mem
    rcases hback : heardAddresses (heard attempt (selfQuery attempt n)) mem with
      ⟨_ | ⟨first', count', rcode'⟩, mem'⟩
    -- nothing heard, so the attempt is a later one
    · exact ih hq' ((hnone mem' hback).symm.trans h)
    -- the first address that is heard ends it
    · obtain ⟨rfl, rfl, rfl, rfl⟩ := SelfTest.ok.inj ((hsome _ _ _ _ hback).symm.trans h)
      exact heardAddresses_some hheard (congrArg Prod.fst hback)

/-- With memory in plenty the loop ends at the first attempt that finds an address, and goes
    through to its end where none does. -/
private theorem selftestFrom_cases (hheard : FromServer s caches heard n)
    (hn : encodeName name = some n)
    (tries attempt : Nat) {q : List UInt8} (hq : q.length = UDP_MAX) :
    (selftestFrom heard name attempt q [] tries = .noRecord ∧
      ∀ k, attempt ≤ k → k < attempt + tries → ¬Finds s caches heard n k) ∨
    ∃ k first count rcode, selftestFrom heard name attempt q [] tries = .ok first count rcode k ∧
      attempt ≤ k ∧ k < attempt + tries ∧
        ∀ j, attempt ≤ j → j < k → ¬Finds s caches heard n j := by
  -- the induction is on the tries left; the memory stays in plenty throughout
  induction tries generalizing attempt q with
  | zero => exact .inl ⟨rfl, fun k hle hlt => absurd hlt (Nat.not_lt.mpr hle)⟩
  | succ tries ih =>
    obtain ⟨q', hq', hnone, hsome⟩ := @selftestFrom_turn heard name n hn attempt tries q hq []
    have hmem := heardAddresses_ample (heard attempt (selfQuery attempt n))
    rcases hback : heardAddresses (heard attempt (selfQuery attempt n)) [] with
      ⟨_ | ⟨first, count, rcode⟩, mem'⟩
    -- this attempt finds nothing, and the rest decides
    · rw [hback] at hmem
      obtain rfl := hmem
      have hmiss := heardAddresses_none hheard (congrArg Prod.fst hback)
      rw [hnone [] hback]
      obtain ⟨hend, hmisses⟩ | ⟨k, first, count, rcode, hok, hle, hlt, hmisses⟩ :=
        ih (attempt + 1) hq'
      · refine .inl ⟨hend, fun k hle hlt => ?_⟩
        -- an attempt before the end is this one or a later one
        obtain rfl | hlt' := Nat.eq_or_lt_of_le hle
        · exact hmiss
        · exact hmisses k hlt' (by omega)
      · refine .inr ⟨k, first, count, rcode, hok, by omega, by omega, fun j hle' hlt' => ?_⟩
        obtain rfl | hlt'' := Nat.eq_or_lt_of_le hle'
        · exact hmiss
        · exact hmisses j hlt'' hlt'
    -- this attempt is the one
    · exact .inr ⟨attempt, first, count, rcode, hsome _ _ _ _ hback, Nat.le_refl _, by omega,
        fun j hle hlt => absurd hlt (Nat.not_lt.mpr hle)⟩

/-- A name that cannot be a question's is refused at once, and only such a name is. -/
private theorem selftest_notName (heard : Nat → List UInt8 → Option (List UInt8)) {name : Str}
    (hnone : encodeName name = none) (mem : Mem) : selftest heard name mem = .notName := by
  rw [selftest, SELFTEST_TRIES, selftestFrom]
  rcases hrun : (encodeQuery (selftestId 1) name rtype.A none).run (List.replicate 512 0) with
    ⟨e | m, q⟩
  · rfl
  · obtain ⟨n, hn, -⟩ := encodeName_of_encodeQuery hrun
    cases hnone.symm.trans hn

end

/-- What the self test logs, over any caches of the server and any questions and answers that are
    lost, with memory in plenty: it refuses a name exactly when it is no DNS name; otherwise it
    ends at the first of its attempts that is answered from a cache with an address for the name,
    with the first of the addresses that fit and their number, and without one when there is no
    such attempt. -/
theorem selftest_exact {s : Server} {caches : Nat → Cache}
    {heard : Nat → List UInt8 → Option (List UInt8)} (name : Str)
    (hheard : ∀ n, encodeName name = some n → FromServer s caches heard n) :
    (selftest heard name [] = .notName ↔ ¬Encodable name) ∧
    ∀ n, encodeName name = some n →
      (selftest heard name [] = .noRecord ↔
        ∀ k, 1 ≤ k → k ≤ SELFTEST_TRIES → ¬Finds s caches heard n k) ∧
      ∀ first count rcode k, selftest heard name [] = .ok first count rcode k ↔
        (1 ≤ k ∧ k ≤ SELFTEST_TRIES ∧ Finds s caches heard n k ∧
          ∀ j, 1 ≤ j → j < k → ¬Finds s caches heard n j) ∧
        (s.found (caches k) n).head? = some first ∧ count = (s.found (caches k) n).length ∧
          rcode = Rcode.noError.toUInt16 := by
  -- the loop either runs out or ends at an attempt
  have hcases := fun n hn => selftestFrom_cases (hheard n hn) hn SELFTEST_TRIES 1
    (show (List.replicate 512 (0 : UInt8)).length = UDP_MAX from List.length_replicate)
  refine ⟨?_, fun n hn => ⟨?_, fun first count rcode k => ?_⟩⟩
  -- only a name that cannot be written is refused, and then nothing is asked
  · rw [encodable_iff]
    cases hn : encodeName name with
    | none => exact iff_of_true (selftest_notName heard hn []) nofun
    | some n =>
      refine iff_of_false (fun hrun => ?_) fun h => h ⟨n, rfl⟩
      obtain ⟨hend, -⟩ | ⟨_, _, _, _, hok, -⟩ := hcases n hn
      · cases hend.symm.trans hrun
      · cases hok.symm.trans hrun
  -- no record is the outcome if no attempt finds one
  · obtain ⟨hend, hmisses⟩ | ⟨k, first, count, rcode, hok, hle, hlt, -⟩ := hcases n hn
    · exact iff_of_true hend fun k hle hlt => hmisses k hle (Nat.lt_add_one_iff.mpr hlt)
    · refine iff_of_false (fun hend => ?_) fun hmisses => ?_
      · cases hend.symm.trans hok
      · obtain ⟨hfinds, -⟩ := selftestFrom_ok (hheard n hn) hn List.length_replicate hok
        exact hmisses k hle (by omega) hfinds
  -- for the attempt that finds: it is the first, and what it reports is what the server has
  · constructor
    · intro hrun
      obtain ⟨hfinds, hfound⟩ := selftestFrom_ok (hheard n hn) hn List.length_replicate hrun
      obtain ⟨hend, -⟩ | ⟨k', _, _, _, hok, hle, hlt, hmisses⟩ := hcases n hn
      · cases hend.symm.trans hrun
      · obtain ⟨-, -, -, rfl⟩ := SelfTest.ok.inj (hok.symm.trans hrun)
        exact ⟨⟨hle, by omega, hfinds, hmisses⟩, hfound⟩
    · rintro ⟨⟨hle, hlt, hfinds, hmisses⟩, hhead, rfl, rfl⟩
      obtain ⟨-, hnone⟩ | ⟨k', first', count', rcode', hok, hle', hlt', hmisses'⟩ := hcases n hn
      · exact absurd hfinds (hnone k hle (by omega))
      · obtain ⟨hfinds', hhead', rfl, rfl⟩ :=
          selftestFrom_ok (hheard n hn) hn List.length_replicate hok
        -- two attempts, neither of which is before the other
        obtain rfl : k' = k := by
          have hnot : ¬k' < k := fun h => hmisses k' hle' h hfinds'
          have hnot' : ¬k < k' := fun h => hmisses' k hle h hfinds
          omega
        obtain rfl := Option.some.inj (hhead'.symm.trans hhead)
        exact hok

/-- The daemon with one peer: the first two questions come before its message is in the cache. -/
def webCaches (attempt : Nat) : Cache :=
  if attempt ≤ 2 then Cache.new else (Daemon.stocked .hopos).owner.cache

/-- What comes back from it; the first question is lost. -/
def webHeard (attempt : Nat) (q : List UInt8) : Option (List UInt8) :=
  if attempt ≤ 1 then none
  else (⟨DEFAULT_DOMAIN, CNAMEs.default⟩ : Server).respond (webCaches attempt)
    (q.take Platform.hopos.QUERY_MAX)

/-- What is heard comes from the server or is lost. -/
private theorem webHeard_fromServer (n : Dns.Name) :
    FromServer ⟨DEFAULT_DOMAIN, CNAMEs.default⟩ webCaches webHeard n := by
  intro attempt bytes h
  unfold webHeard at h
  split at h
  · cases h
  · rwa [List.take_of_length_le (Nat.le_trans (length_selfQuery_le attempt n) (by decide))] at h

private theorem encodeName_web : encodeName (str "web.prod.hop.local") = some Server.webName :=
  encodeName_eq_some.mpr (by decide +kernel)

/-- The third attempt is answered from a cache with the job. -/
private theorem finds_web :
    Finds ⟨DEFAULT_DOMAIN, CNAMEs.default⟩ webCaches webHeard Server.webName 3 :=
  ⟨by decide +kernel, by decide +kernel⟩

/-- The third attempt finds the one address. -/
theorem selftest_exact_web :
    selftest webHeard (str "web.prod.hop.local") [] = .ok ⟨10, 0, 0, 1⟩ 1 0 3 := by
  refine (((selftest_exact _ fun n _ => webHeard_fromServer n).2 _ encodeName_web).2
    _ _ _ _).mpr ⟨⟨by decide, by decide, finds_web, ?_⟩, ?_, ?_, by decide⟩
  · intro j hle hlt hfinds
    obtain rfl | rfl : j = 1 ∨ j = 2 := by omega
    · exact absurd hfinds.1 (by decide +kernel)
    · exact absurd (by decide +kernel) hfinds.2
  · decide +kernel
  · decide +kernel

/-! ## The self test of a daemon -/

/-- The addresses that are found are of a job the name asks for. -/
private theorem exists_of_found {s : Server} {cache : Cache} {name : Str} {n : Dns.Name}
    (hn : encodeName name = some n) {ip : Ipv4Addr} (hip : ip ∈ s.found cache n) :
    ∃ cluster job ips, cache.getCluster cluster job = some ips ∧ ip ∈ ips ∧
      (lowercase (stripDot name) = job ++ dot :: s.domain ∨
        lowercase (stripDot name) = job ++ dot :: (cluster ++ dot :: s.domain)) := by
  -- an address can only come out of a zone
  cases hv : s.verdict cache (builtQuery 0 n rtype.A none) with
  | refused =>
    rw [Server.found, hv] at hip
    cases hip
  | aliased target =>
    rw [Server.found, hv] at hip
    cases hip
  | zone known ips zone =>
    rw [Server.found, hv] at hip
    have hips : ip ∈ ips := List.mem_of_mem_take hip
    -- the addresses are those of the name in the tree, or none
    obtain ⟨t, ht, -, ⟨-, all, hnames, rfl | rfl⟩ | ⟨-, rfl, -, -⟩⟩ :=
      Server.verdict_eq_zone (q := builtQuery 0 n rtype.A none) ⟨rfl, rfl⟩ hv
    -- the name that is asked is the written one in lower case
    · have htext : t = lowercase (stripDot name) := by
        rw [nameText_wire] at ht
        split at ht
        · rw [← Option.some.inj ht, encodeName_eq_some.mp hn, text_nameLabels]
        · cases ht
      rw [← htext]
      exact Daemon.exists_getCluster_of_names hnames hips
    · cases hips
    · cases hips

namespace Daemon

variable {ι α : Type} [DecidableEq ι]

/-- A run of the daemon led to an answer. -/
def AnswersAfter (d₀ : Daemon ι) (before : List (Act ι α)) (q bytes : List UInt8) : Prop :=
  ∃ (d d' : Daemon ι) (asker : α), Run (Step .hopos) d₀ before d ∧
    Step .hopos d (.question asker q (some bytes)) d'

/-- An answer of the daemon comes from a cache in which every address was told by a peer. -/
private theorem AnswersAfter.exists_cache {d₀ : Daemon ι} (h₀ : d₀.Initial .hopos)
    {before : List (Act ι α)} {q bytes : List UInt8} (h : AnswersAfter d₀ before q bytes)
    (hq : q.length ≤ Platform.hopos.QUERY_MAX) :
    ∃ cache, d₀.owner.server.respond cache q = some bytes ∧
      ∀ cluster job ips, cache.getCluster cluster job = some ips →
        ∀ ip ∈ ips, Backed .hopos before cluster job ip := by
  obtain ⟨d, d', asker, hrun, hstep⟩ := h
  obtain ⟨k, hfollows, -⟩ := Follows.exists_log h₀ hrun
  have hreply := hfollows.reply_eq hstep
  rw [List.take_of_length_le hq] at hreply
  exact ⟨d.owner.cache, hreply.symm, (grounded_run h₀ hrun).cache⟩

/-- The self test does not lie. Where its answers are those of the daemon, at any points of any
    runs and with any memory, the address that it logs is one of a running task of the job it
    asks for, as a peer of that run was told before the answer. -/
theorem selftest_backed {d₀ : Daemon ι} (h₀ : d₀.Initial .hopos)
    {heard : Nat → List UInt8 → Option (List UInt8)}
    (hheard : ∀ attempt q bytes, heard attempt q = some bytes →
      ∃ before : List (Act ι α), AnswersAfter d₀ before q bytes)
    {name : Str} {mem : Mem} {first : Ipv4Addr} {count : Nat} {rcode : UInt16} {attempt : Nat}
    (h : selftest heard name mem = .ok first count rcode attempt) :
    ∃ (before : List (Act ι α)) (q bytes : List UInt8), heard attempt q = some bytes ∧
      AnswersAfter d₀ before q bytes ∧
      ∃ cluster job, Backed .hopos before cluster job first ∧
        (lowercase (stripDot name) = job ++ dot :: d₀.owner.server.domain ∨
          lowercase (stripDot name) =
            job ++ dot :: (cluster ++ dot :: d₀.owner.server.domain)) := by
  cases hn : encodeName name with
  | none => cases (selftest_notName heard hn mem).symm.trans h
  | some n =>
    -- the question of an attempt is read as a whole
    have hlen : ∀ k, (selfQuery k n).length ≤ Platform.hopos.QUERY_MAX :=
      fun k => Nat.le_trans (length_selfQuery_le k n) (by decide)
    -- each attempt has a cache that its answer came from, with a report behind each address
    have hcaches : ∀ k, ∃ cache, ∀ bytes, heard k (selfQuery k n) = some bytes →
        d₀.owner.server.respond cache (selfQuery k n) = some bytes ∧
        ∃ before : List (Act ι α), AnswersAfter d₀ before (selfQuery k n) bytes ∧
          ∀ cluster job ips, cache.getCluster cluster job = some ips →
            ∀ ip ∈ ips, Backed .hopos before cluster job ip := by
      intro k
      cases hback : heard k (selfQuery k n) with
      | none => exact ⟨Cache.new, nofun⟩
      | some bytes =>
        obtain ⟨before, hanswers⟩ := hheard k _ bytes hback
        obtain ⟨cache, hrespond, hbacked⟩ := hanswers.exists_cache h₀ (hlen k)
        refine ⟨cache, fun bytes' hbytes => ?_⟩
        obtain rfl := Option.some.inj hbytes
        exact ⟨hrespond, before, hanswers, hbacked⟩
    choose caches hcaches using hcaches
    have hfrom : FromServer d₀.owner.server caches heard n :=
      fun k bytes hback => (hcaches k bytes hback).1
    -- the attempt that ended the test found an address in its cache
    obtain ⟨⟨hsome, -⟩, hhead, -⟩ := selftestFrom_ok hfrom hn List.length_replicate h
    obtain ⟨bytes, hback⟩ := Option.isSome_iff_exists.mp hsome
    obtain ⟨-, before, hanswers, hbacked⟩ := hcaches attempt bytes hback
    obtain ⟨cluster, job, ips, hget, hip, hform⟩ :=
      exists_of_found hn (List.mem_of_mem_head? hhead)
    exact ⟨before, _, bytes, hback, hanswers, cluster, job, hbacked cluster job ips hget first hip,
      hform⟩

/-- What comes back is an answer of the daemon, before its message is in the cache or after. -/
private theorem webHeard_answers {attempt : Nat} {q bytes : List UInt8}
    (h : webHeard attempt q = some bytes) :
    ∃ before : List (Act Unit Unit),
      AnswersAfter (alone .hopos (Loop.started [])) before q bytes := by
  -- both caches answer in the same way, at the place where the daemon receives
  have hanswer : ∀ (d : Daemon Unit), d.stand = .receiving → d.owner.answer.length = EDNS_MAX →
      d.owner.server = ⟨DEFAULT_DOMAIN, CNAMEs.default⟩ → d.owner.cache = webCaches attempt →
      Step .hopos d (.question () q (some bytes) : Act Unit Unit)
        { d with owner := (d.owner.reply (q.take Platform.hopos.QUERY_MAX)).2,
                 stand := Platform.hopos.front } := by
    intro d hstand hlen hserver hcache
    have hstep := Step.question (p := .hopos) (d := d) () q hstand
    rw [(Owner.reply_eq hlen _).1, hserver, hcache] at hstep
    unfold webHeard at h
    split at h
    · cases h
    · rwa [h] at hstep
  -- the first two attempts meet the empty cache, and the later ones the stocked one
  by_cases hearly : attempt ≤ 2
  · exact ⟨[], _, _, (), .nil _, hanswer _ rfl List.length_replicate rfl
      (by rw [webCaches, if_pos hearly]; rfl)⟩
  · exact ⟨stocks .hopos, _, _, (), stocks_run .hopos, hanswer _ rfl (by decide +kernel) rfl
      (by rw [webCaches, if_neg hearly])⟩

/-- The self test ends with an address. -/
private theorem selftest_webHeard : ∃ first count rcode attempt,
    selftest webHeard (str "web.prod.hop.local") [] = .ok first count rcode attempt := by
  obtain ⟨-, hnone⟩ | ⟨attempt, first, count, rcode, hok, -⟩ :=
    selftestFrom_cases (webHeard_fromServer _) encodeName_web SELFTEST_TRIES 1
      List.length_replicate
  · exact absurd finds_web (hnone 3 (by decide) (by decide))
  · exact ⟨first, count, rcode, attempt, hok⟩

/-- The self test of the daemon with one peer. -/
theorem selftest_backed_web : ∃ first count rcode attempt,
    selftest webHeard (str "web.prod.hop.local") [] = .ok first count rcode attempt ∧
    ∃ (before : List (Act Unit Unit)) (q bytes : List UInt8), webHeard attempt q = some bytes ∧
      AnswersAfter (alone .hopos (Loop.started [])) before q bytes ∧
      ∃ cluster job, Backed .hopos before cluster job first ∧
        (lowercase (stripDot (str "web.prod.hop.local")) = job ++ dot :: DEFAULT_DOMAIN ∨
          lowercase (stripDot (str "web.prod.hop.local")) =
            job ++ dot :: (cluster ++ dot :: DEFAULT_DOMAIN)) := by
  obtain ⟨first, count, rcode, attempt, hok⟩ := selftest_webHeard
  have hanswers : ∀ attempt q bytes, webHeard attempt q = some bytes →
      ∃ before : List (Act Unit Unit),
        AnswersAfter (alone .hopos (Loop.started [])) before q bytes :=
    fun _ _ _ h => webHeard_answers h
  exact ⟨first, count, rcode, attempt, hok,
    selftest_backed (alone_initial .hopos) hanswers hok⟩

end Daemon

end HopDns

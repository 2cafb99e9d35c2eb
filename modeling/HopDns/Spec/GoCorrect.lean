import Mathlib.Data.List.Forall2
import HopDns.Spec.GoTables
import HopDns.Spec.Ledger
import HopDns.Spec.ReplyShape
import HopDns.Spec.SoaNames
import HopDns.Spec.StartCorrect

/-!
# The port answers as the Go generation does

The same pairs of CNAMEs, the same changes of the cache and the same question: what
`handleQuery` of the Go generation says of it, and what the server writes. The two go together on
plain input, of which the libraries of the Go generation say what they do: a domain and a name in
lower case, of labels that are their own text, and pairs without a backslash. Elsewhere they may
differ: the Go generation does not fold the domain it is given, and it answers every class.

## Key results

- `Go.Alike.twins`: what two servers have in common that were set up alike
- `Go.Server.handleQuery_ported`: the two servers give the same answer
-/

namespace HopDns

open ForStd

namespace Go

/-! ## Names -/

/-- A name that is its own text for both: not the root, and in lower case. -/
structure PlainName (n : Dns.Name) : Prop where
  ne_nil : n.labels ≠ []
  plain : ∀ l ∈ n.labels, PlainLabel l
  lower : ∀ l ∈ n.labels, lowercase l = l

/-- A label that is its own text has no blank and no dot in it. -/
theorem PlainLabel.visible {l : Str} (h : PlainLabel l) : VisibleLabel l := fun b hb =>
  ⟨(h b hb).1, fun hdot => (h b hb).2 (hdot ▸ by decide)⟩

namespace PlainName

variable {n : Dns.Name} (h : PlainName n)
include h

private theorem map_lowercase : n.labels.map lowercase = n.labels :=
  (List.map_congr_left h.lower).trans (List.map_id _)

theorem visible : VisibleLabels n.labels := fun l hl => (h.plain l hl).visible

private theorem nameText_eq : nameText n.wire = some (text n.labels) := by
  rw [nameText_wire, if_pos h.visible]

private theorem nameLike : NameLike (text n.labels) := nameLike_of_nameText h.nameText_eq

private theorem splitText_eq : splitText (text n.labels) = n.labels := by
  rw [splitText_text n.legal h.visible, h.map_lowercase]

/-- No byte of the text has to be escaped. -/
private theorem backslash_not_mem : backslash ∉ text n.labels := by
  intro hmem
  obtain hdot | ⟨l, hl, hb⟩ := mem_text hmem
  · exact absurd hdot (by decide)
  · rw [h.lower l hl] at hb
    exact (h.plain l hl _ hb).2 (by decide)

/-- The text is not that of the root. -/
private theorem text_ne_nil : text n.labels ≠ [] := by
  intro hnil
  have hsplit := h.splitText_eq
  rw [hnil] at hsplit
  exact h.ne_nil hsplit.symm

/-- A text of the name is encoded as the name, with or without a dot at its end. -/
private theorem encodeName_eq {s : Str} (hs : stripDot s = text n.labels) : encodeName s = some n :=
    by
  have hlabels : nameLabels s = splitText (stripDot s) := by
    unfold nameLabels splitText
    simp only [List.isEmpty_iff]
  rw [encodeName_eq_some, hlabels, hs, h.splitText_eq]

/-- With a dot behind each label the name ends in a dot. -/
private theorem flatMap_dot : n.labels.flatMap (· ++ [dot]) = text n.labels ++ [dot] := by
  -- the text has a dot between two labels, the library one behind each
  have hends : ∀ (labels : List Str) (l : Str), (∀ l' ∈ l :: labels, lowercase l' = l') →
      (l :: labels).flatMap (· ++ [dot]) = text (l :: labels) ++ [dot] := by
    -- the induction is on the labels behind the first
    intro labels
    induction labels with
    | nil =>
      intro l hl
      simp [text, hl l List.mem_cons_self]
    | cons l' labels ih =>
      intro l hl
      rw [List.flatMap_cons, ih l' fun l'' hl'' => hl l'' (List.mem_cons_of_mem l hl''),
        show l :: l' :: labels = [l] ++ (l' :: labels) from rfl,
        text_append (List.cons_ne_nil _ _) (List.cons_ne_nil _ _)]
      simp [text, hl l List.mem_cons_self]
  cases hlabels : n.labels with
  | nil => exact absurd hlabels h.ne_nil
  | cons l labels => exact hends labels l fun l' hl' => h.lower l' (hlabels ▸ hl')

/-- The text is a key that the tables of both keep as it is. -/
private theorem tame (hstar : n.labels ≠ [[0x2A]]) : Tame (text n.labels) := by
  refine ⟨h.text_ne_nil, fun heq => hstar ?_, h.nameLike.undotted⟩
  have hsplit := h.splitText_eq
  rw [heq] at hsplit
  exact hsplit.symm

/-- The name of the question, as the Go generation has it. -/
private theorem libName_eq {lib : Lib} (hlib : lib.Documented) :
    lib.name n.labels = text n.labels ++ [dot] := by
  rw [hlib.name _ h.ne_nil h.plain, h.flatMap_dot]

/-- The zone behind one label more. -/
private theorem encodeName_under (l : Str) (hl : PlainLabel l) (hlower : lowercase l = l)
    (hlegal : Dns.LegalLabel l) (hfits : l.length + 1 + n.wire.length ≤ 255) :
    ∃ n', encodeName (l ++ dot :: (text n.labels ++ [dot])) = some n' ∧
      n'.wire = Dns.labelBytes l ++ n.wire := by
  -- the new label stands before the zone's on the wire, and both still fit
  have hwire : Dns.wire (l :: n.labels) = Dns.labelBytes l ++ n.wire := Dns.wire_cons l n.labels
  let n' : Dns.Name := ⟨l :: n.labels, n.legal.cons hlegal, by
    rw [hwire, List.length_append, Dns.length_labelBytes]
    exact hfits⟩
  have hn' : PlainName n' := ⟨List.cons_ne_nil _ _, List.forall_mem_cons.mpr ⟨hl, h.plain⟩,
    List.forall_mem_cons.mpr ⟨hlower, h.lower⟩⟩
  refine ⟨n', hn'.encodeName_eq ?_, hwire⟩
  -- a name in lower case is its own text
  have htext : text n'.labels = l ++ dot :: text n.labels := by
    rw [show n'.labels = [l] ++ n.labels from rfl, text_append (List.cons_ne_nil _ _) h.ne_nil]
    simp [text, hlower]
  rw [htext, ← List.cons_append, ← List.append_assoc, stripDot_concat]

end PlainName

/-! ## The servers -/

/-- The record on the wire is the one that is meant: for the name of the question, or for the
    zone. -/
inductive RR.Shows (name : Str) : RR → Dns.Record → Prop
  | a (ttl : UInt32) (ip : Ipv4Addr) : Shows name (.A name ttl ip) (Reply.aRecord ip ttl)
  | cname (ttl : UInt32) {target : Str} {n : Dns.Name} (h : encodeName target = some n) :
      Shows name (.CNAME name ttl target) (Reply.cnameRecord n ttl)
  | soa (ttl serial refresh retry expire minttl : UInt32) {zone ns mbox : Str} {n n' n'' : Dns.Name}
      (hzone : encodeName zone = some n) (hns : encodeName ns = some n')
      (hmbox : encodeName mbox = some n'') :
      Shows name (.SOA zone ttl ns mbox serial refresh retry expire minttl)
        ⟨n.wire, rtype.SOA, CLASS_IN, ttl, n'.wire ++ n''.wire ++
          [serial, refresh, retry, expire, minttl].flatMap UInt32.toBytesBE⟩

/-- A record that is meant stands on the wire in one way only. -/
theorem RR.Shows.unique {name : Str} {rr : RR} {r r' : Dns.Record} (h : rr.Shows name r)
    (h' : rr.Shows name r') : r = r' := by
  -- one record of the library shows one on the wire, since each name in it is written one way
  cases h with
  | a =>
    cases h'
    rfl
  | cname ttl hn =>
    cases h' with
    | cname _ hn' =>
      obtain rfl := Option.some.inj (hn.symm.trans hn')
      -- three names, each written in one way
      rfl
  | soa ttl serial refresh retry expire minttl hzone hns hmbox =>
    cases h' with
    | soa _ _ _ _ _ _ hzone' hns' hmbox' =>
      obtain rfl := Option.some.inj (hzone.symm.trans hzone')
      obtain rfl := Option.some.inj (hns.symm.trans hns')
      obtain rfl := Option.some.inj (hmbox.symm.trans hmbox')
      rfl

/-- The type for which the Go generation says what the port says for `qtype`: only the port
    answers ANY with the addresses. -/
def askedAs (qtype : UInt16) : UInt16 := if qtype = rtype.ANY then rtype.A else qtype

/-- The Go generation is asked for addresses when the port is. -/
private theorem askedAs_eq_A {qtype : UInt16} :
    askedAs qtype = rtype.A ↔ HopDns.Server.asksAddress qtype = true := by
  unfold askedAs HopDns.Server.asksAddress
  by_cases hany : qtype = rtype.ANY <;> simp [hany]

/-- How the reply of the port to a question for `t` goes with that of the Go generation. -/
inductive Ported (t domain : Str) (room : Nat) (go : Msg) (m : Dns.Message) : Prop
  /-- the same records in some order, as many as there is room for -/
  | answered {rows : List RR} (hrows : rows.Perm go.answer) (hne : m.answers ≠ [])
      (hshows : List.Forall₂ (RR.Shows (t ++ [dot])) (rows.take m.answers.length) m.answers)
      (hfull : m.answers.length = rows.length ∨ room < 16 * (m.answers.length + 1))
      (hcode : m.rcode = Rcode.noError.toUInt16) (hauthority : m.authority = [])
  /-- no record on either side, and the same SOA -/
  | negative (hin : LiesIn t domain) (hgo : go.answer = []) (hanswers : m.answers = [])
      (hshows : List.Forall₂ (RR.Shows (t ++ [dot])) go.ns m.authority)
      (hcode : m.rcode = Rcode.noError.toUInt16 ∨ m.rcode = Rcode.nxDomain.toUInt16)
  /-- there is no room for a record, or a text is no name -/
  | failed (hbare : Bare m .servFail) {rr : RR} (hrr : rr ∈ go.answer ++ go.ns)
      (hroom : ∀ r, rr.Shows (t ++ [dot]) r → room < r.bytes.length)
  /-- in no zone of the domain: no record on either side -/
  | elsewhere (hout : ¬LiesIn t domain) (hgo : go.answer = []) (hanswers : m.answers = [])

/-- A server of each kind, for the same plain domain, that has room before it for the names of its
    SOA, and the same plain pairs, and caches that had the same calls. -/
inductive Alike (lib : Lib) : HopDns.Server → HopDns.Cache → Server → Prop
  | mk {domain : Str} {zone : Dns.Name} (hzone : PlainName zone)
      (hdomain : stripDot domain = text zone.labels)
      (hmax : zone.wire.length ≤ Reply.SOA_NAME_MAX)
      {pairs : List (Str × Str)} (hpairs : ∀ pair ∈ pairs, PlainPair pair)
      {mem mem' mem₁ mem₁' : Mem} {server : HopDns.Server} {table : HopDns.CNAMEs}
      (hserver : (HopDns.Server.new domain).run mem = (.ok server, mem'))
      (htable : (HopDns.CNAMEs.new pairs).run mem₁ = (.ok table, mem₁'))
      {names : Option CNAMEs}
      (hnames : names = some (CNAMEs.new lib pairs) ∨ pairs = [] ∧ names = none)
      {ls : List (CacheCall × Except Error (Option Jobs))} {c : HopDns.Cache} {g : Cache}
      (hcalls : Run CacheStep HopDns.Cache.new ls c) (hgo : Run Cache.Step Cache.new ls g) :
      Alike lib (server.setCnames table) c ((Server.new g domain).setCNAMEs names)

/-- What is left before an ending. -/
private theorem stripSuffix_iff {ending s t : Str} :
    stripSuffix ending s = some t ↔ s = t ++ ending := by
  unfold stripSuffix
  constructor
  · intro h
    split at h
    · rename_i hends
      obtain ⟨t', rfl⟩ := List.isSuffixOf_iff_suffix.mp hends
      rw [← Option.some.inj h]
      simp
    · cases h
  · rintro rfl
    rw [if_pos (List.isSuffixOf_iff_suffix.mpr (List.suffix_append t ending))]
    simp

/-- What the two servers have in common. -/
structure Twins (lib : Lib) (s : HopDns.Server) (c : HopDns.Cache) (go : Server)
    (zone : Dns.Name) : Prop where
  plain : PlainName zone
  max : zone.wire.length ≤ Reply.SOA_NAME_MAX
  domain : s.domain = text zone.labels
  goDomain : go.domain = text zone.labels ++ [dot]
  names : ∀ n : Dns.Name, PlainName n → n.labels ≠ [[0x2A]] →
    CNAMEs.lookup lib go.cnames (text n.labels ++ [dot]) = s.cnames.lookup (text n.labels)
  cache : Cache.Holds c go.cache

/-- A byte of a text is there without the dot at its end, or it is that dot. -/
private theorem mem_stripDot_or_eq {s : Str} {b : UInt8} (h : b ∈ s) : b ∈ stripDot s ∨ b = dot :=
    by
  have hfull : b ∈ stripDot s ++ [dot] := by
    rw [← stripDot_append_dot]
    split
    · exact h
    · exact List.mem_append_left _ h
  simpa using hfull

/-- A text without blanks is not trimmed. -/
private theorem trim_of_visible {s : Str} (h : ∀ b ∈ s, 0x21 ≤ b ∧ b ≤ 0x7E) : trim s = s := by
  apply trim_eq_self
  · cases s with
    | nil => decide
    | cons b s => exact leadingSpace_cons (h b List.mem_cons_self) s
  · obtain rfl | ⟨s, b, rfl⟩ := List.eq_nil_or_concat s
    · decide
    · rw [List.concat_eq_append, trailingSpace_append_cons (h b (by simp))]
      decide

/-- Two servers that were set up alike have the same domain, the same CNAMEs and the same addresses.
    -/
theorem Alike.twins {lib : Lib} (hlib : lib.Documented) {s : HopDns.Server} {c : HopDns.Cache}
    {go : Server} (h : Alike lib s c go) : ∃ zone, Twins lib s c go zone := by
  cases h with
  | mk hzone hdomain hmax hpairs hserver htable hnames hcalls hgo =>
    rename_i domain zone pairs mem mem' mem₁ mem₁' server table names ls g
    -- both servers come from the constructors, which find memory here
    obtain rfl := Except.ok.inj ((server_new_yields domain).eq_of_ok hserver)
    obtain rfl := Except.ok.inj ((HopDns.CNAMEs.new_yields pairs).eq_of_ok htable)
    refine ⟨zone, hzone, hmax, ?_, ?_, fun n hn hstar => ?_, Cache.holds_run hcalls hgo⟩
    -- the Rust server cleans the domain up, which leaves a plain one as it is
    · show servedDomain domain = text zone.labels
      have hvisible : ∀ b ∈ domain, 0x21 ≤ b ∧ b ≤ 0x7E := by
        intro b hb
        obtain hb | rfl := mem_stripDot_or_eq hb
        · exact hzone.nameLike.visible b (hdomain ▸ hb)
        · decide
      rw [servedDomain, trim_of_visible hvisible, hdomain, if_neg hzone.text_ne_nil,
        hzone.nameLike.lower]
    -- the Go server puts the dot back behind it
    · have hne : domain ≠ [] := by
        rintro rfl
        exact hzone.text_ne_nil hdomain.symm
      show (Server.new g domain).domain = _
      simp only [Server.new, if_neg hne, stripDot_append_dot, hdomain]
    -- the table of aliases is the same one, or both have none
    · obtain rfl | ⟨rfl, rfl⟩ := hnames
      · exact CNAMEs.lookup_eq hlib hpairs hn.nameLike (hn.tame hstar) hn.backslash_not_mem
      -- no table is one without pairs
      · have hfound := HopDns.CNAMEs.lookup_newOf [] (text n.labels)
          (Nat.le_succ_of_le hn.nameLike.length_le)
        exact CNAMEOf.unique (.none rfl fun p _ => rfl) hfound

namespace Twins

variable {lib : Lib} {s : HopDns.Server} {c : HopDns.Cache} {go : Server} {zone : Dns.Name}
  (h : Twins lib s c go zone) {order : List Str} (horder : go.cache.Ranges order) {n : Dns.Name}
  (hn : PlainName n) (hstar : n.labels ≠ [[0x2A]])
include h

include hn hstar in

/-- A name with a CNAME is answered with its record alone, for every type. -/
private theorem answer_alias {target : Str} (hl : s.cnames.lookup (text n.labels) = some target)
    (qtype : UInt16) :
    go.handleQuestion lib order [] (text n.labels ++ [dot], qtype) =
      [.CNAME (text n.labels ++ [dot]) 5 target] := by
  unfold Server.handleQuestion
  simp only [h.names n hn hstar, hl, List.nil_append]

include hn hstar in

/-- A name without a CNAME has an answer only for addresses. -/
private theorem answer_other (hl : s.cnames.lookup (text n.labels) = none) {qtype : UInt16}
    (hqtype : qtype ≠ rtype.A) :
    go.handleQuestion lib order [] (text n.labels ++ [dot], qtype) = [] := by
  unfold Server.handleQuestion
  simp only [h.names n hn hstar, hl, if_pos hqtype]

include hn hstar in

/-- The addresses of a name without a CNAME are those that the cache has for what stands before the
    domain. -/
private theorem answer_address (hl : s.cnames.lookup (text n.labels) = none) :
    go.handleQuestion lib order [] (text n.labels ++ [dot], rtype.A) =
      ((stripSuffix (dot :: (s.domain ++ [dot])) (text n.labels ++ [dot])).map (go.ips order)).elim
        [] fun ips => ips.map (RR.A (text n.labels ++ [dot]) 5) := by
  unfold Server.handleQuestion
  simp only [h.names n hn hstar, hl, ne_eq, not_true_eq_false, if_false, h.goDomain, h.domain]
  cases stripSuffix (dot :: (text zone.labels ++ [dot])) (text n.labels ++ [dot]) <;> rfl

include hn hstar horder in

/-- In the domain these are the addresses that the port finds, in some order. -/
private theorem answer_in (hl : s.cnames.lookup (text n.labels) = none)
    (hin : LiesIn (text n.labels) s.domain) :
    ∃ ips : List Ipv4Addr, ips.Perm ((s.lookup c (text n.labels)).addresses c) ∧
      go.handleQuestion lib order [] (text n.labels ++ [dot], rtype.A) =
        ips.map (RR.A (text n.labels ++ [dot]) 5) := by
  -- the name is the domain, or stands under it
  obtain hapex | ⟨pre, hpre⟩ := hin
  -- nothing stands before the domain, and no dot
  · refine ⟨[], ?_, ?_⟩
    · rw [hapex, HopDns.Server.lookup_domain]
      exact .nil
    · rw [h.answer_address hn hstar hl, hapex]
      cases hcut : stripSuffix (dot :: (s.domain ++ [dot])) (s.domain ++ [dot]) with
      | none => rfl
      | some pre =>
        -- a name is not longer than itself
        have hlen := congrArg List.length (stripSuffix_iff.mp hcut)
        simp only [List.length_append, List.length_cons] at hlen
        omega
  -- what the Go server cuts off leaves what is looked up here
  · have hcut : stripSuffix (dot :: (s.domain ++ [dot])) (text n.labels ++ [dot]) = some pre := by
      rw [stripSuffix_iff, hpre]
      simp
    refine ⟨go.ips order pre, ?_, ?_⟩
    · rw [hpre, HopDns.Server.lookup_append]
      unfold Server.ips
      -- a job in every cluster, or a job in one of them
      cases hlabel : pre.splitOnce dot with
      | none => exact h.cache.merged horder pre
      | some cut => exact h.cache cut.2 cut.1
    · rw [h.answer_address hn hstar hl, hcut]
      rfl

include hn hstar in

/-- Outside the domain there is no answer. -/
private theorem answer_out (hl : s.cnames.lookup (text n.labels) = none)
    (hout : ¬LiesIn (text n.labels) s.domain) (qtype : UInt16) :
    go.handleQuestion lib order [] (text n.labels ++ [dot], qtype) = [] := by
  by_cases hqtype : qtype = rtype.A
  · subst hqtype
    rw [h.answer_address hn hstar hl]
    cases hcut : stripSuffix (dot :: (s.domain ++ [dot])) (text n.labels ++ [dot]) with
    | none => rfl
    | some pre =>
      have heq : text n.labels ++ [dot] = (pre ++ dot :: s.domain) ++ [dot] := by
        rw [stripSuffix_iff.mp hcut]
        simp
      exact absurd (.inr ⟨pre, List.append_cancel_right heq⟩) hout
  · exact h.answer_other hn hstar hl hqtype

/-- The SOA records are the same. -/
private theorem soa_shows (name : Str) : ∃ nz, Reply.encodeZone s.domain = some nz ∧
    RR.Shows name (.SOA go.domain 5 (str "ns." ++ go.domain) (str "hostmaster." ++ go.domain)
      1 5 5 5 5) (Reply.soaRecord nz TTL) := by
  have hmax := h.max
  unfold Reply.SOA_NAME_MAX at hmax
  -- the zone and its two derived names can be written, as it is short enough
  have hzone : encodeName s.domain = some zone := by
    rw [h.domain]
    exact h.plain.encodeName_eq h.plain.nameLike.stripDot_eq
  obtain ⟨ns, hns, hnsWire⟩ := h.plain.encodeName_under (str "ns") (by decide +kernel)
    (by decide +kernel) (by decide) (show 2 + 1 + zone.wire.length ≤ 255 by omega)
  obtain ⟨mbox, hmbox, hmboxWire⟩ := h.plain.encodeName_under (str "hostmaster")
    (by decide +kernel) (by decide +kernel) (by decide)
    (show 10 + 1 + zone.wire.length ≤ 255 by omega)
  -- the Go server's domain is the same name with the dot behind it
  have hgo : encodeName go.domain = some zone := by
    rw [h.goDomain]
    exact h.plain.encodeName_eq (stripDot_concat _)
  refine ⟨zone, Reply.encodeZone_eq_some.mpr ⟨hzone, Nat.le_trans hmax (by decide)⟩, ?_⟩
  -- the data is the two names and the five numbers
  have hdata : Reply.soaData zone TTL = ns.wire ++ mbox.wire ++
      [1, 5, 5, 5, 5].flatMap UInt32.toBytesBE := by
    rw [hnsWire, hmboxWire]
    rfl
  rw [Reply.soaRecord, hdata]
  refine .soa 5 1 5 5 5 5 hgo ?_ ?_
  · rw [h.goDomain]
    exact hns
  · rw [h.goDomain]
    exact hmbox

end Twins

/-- A name with addresses is known. -/
private theorem known_of_addresses {s : HopDns.Server} {c : HopDns.Cache} {t : Str}
    (h : (s.lookup c t).addresses c ≠ []) : (s.lookup c t).known c = true := by
  cases hl : s.lookup c t with
  | apex => rfl
  | cluster ips =>
    rw [hl] at h
    cases ips with
    | none => exact absurd rfl h
    | some ips => rfl
  | merged job =>
    rw [hl] at h
    have hmerged : c.merged job ≠ [] := fun hnil => h (by simp [Lookup.addresses, hnil])
    obtain ⟨ips, rest, heq⟩ := List.exists_cons_of_ne_nil hmerged
    simp [Lookup.known, HopDns.Cache.hasJob, heq]

section

variable {t domain : Str} {room : Nat} {msg : Msg} {m : Dns.Message}

/-- A reply with the CNAME record, or without, goes with the one record of the other. -/
private theorem Ported.of_aliased {target : Str} (h : Aliased m room target)
    (hgo : msg.answer = [.CNAME (t ++ [dot]) 5 target]) : Ported t domain room msg m := by
  obtain ⟨n, hn, hroom, hcode, hanswers, hauthority⟩ | ⟨hroom, hbare⟩ := h
  · refine .answered (.of_eq hgo.symm) (by simp [hanswers]) ?_ (.inl (by simp [hanswers])) hcode
      hauthority
    rw [hanswers]
    exact .cons (.cname 5 hn) .nil
  · refine .failed hbare (List.mem_append_left _ (hgo ▸ List.mem_singleton_self _)) ?_
    intro r hr
    cases hr with
    | cname ttl hn =>
      rw [Reply.cnameRecord, Reply.length_answerRecord]
      exact hroom _ hn

/-- A reply without records goes with one without, and the SOA record with the other, if there is
    one. -/
private theorem Ported.of_negative {rcode : Rcode} {nz : Dns.Name} {rr : RR} (hin : LiesIn t domain)
    (h : Negative m room rcode domain)
    (hcode : rcode.toUInt16 = Rcode.noError.toUInt16 ∨ rcode.toUInt16 = Rcode.nxDomain.toUInt16)
    (hnz : Reply.encodeZone domain = some nz)
    (hshows : rr.Shows (t ++ [dot]) (Reply.soaRecord nz TTL))
    (hgo : msg.answer = []) (hns : msg.ns = [rr]) : Ported t domain room msg m := by
  -- the negative answer with its SOA, or the bare one if the SOA does not fit
  obtain ⟨n, hn, -, hcode', hanswers, hauthority⟩ | ⟨hroom, hbare⟩ := h
  · obtain rfl := Option.some.inj (hnz.symm.trans hn)
    refine .negative hin hgo hanswers ?_ (hcode.imp hcode'.trans hcode'.trans)
    rw [hns, hauthority]
    exact .cons hshows .nil
  -- the bare answer: the record that the Go server sends is longer than the room
  · refine .failed hbare (List.mem_append_right _ (hns ▸ List.mem_singleton_self _)) ?_
    intro r hr
    rw [hr.unique hshows, Reply.length_soaRecord]
    exact hroom nz hnz

/-- A reply with addresses goes with the same addresses of the other. -/
private theorem Ported.of_addresses {ips ips' : List Ipv4Addr} (hperm : ips'.Perm ips)
    (hgo : msg.answer = ips'.map (RR.A (t ++ [dot]) 5)) (h : Addressed m ips)
    (hanswers : m.answers = (ips.take (room / 16)).map fun ip => Reply.aRecord ip TTL) :
    Ported t domain room msg m := by
  obtain ⟨hcode, hne, -, hauthority⟩ := h
  -- the Go server sends them all, this one as many as fit
  have hlen : m.answers.length = min (room / 16) ips.length := by
    rw [hanswers, List.length_map, List.length_take]
  have hrows : (ips.map (RR.A (t ++ [dot]) 5)).Perm msg.answer := by
    rw [hgo]
    exact (hperm.map _).symm
  -- what is sent are the first of the same rows
  refine .answered hrows hne ?_ ?_ hcode hauthority
  · have htake : ips.take m.answers.length = ips.take (room / 16) := by
      rw [hlen, List.take_eq_take_iff]
      omega
    rw [← List.map_take, htake, hanswers, List.forall₂_map_left_iff, List.forall₂_map_right_iff,
      List.forall₂_same]
    exact fun ip _ => .a 5 ip
  · rw [List.length_map]
    omega

end

namespace Twins

variable {lib : Lib} {s : HopDns.Server} {c : HopDns.Cache} {go : Server} {zone : Dns.Name}

/-- The two replies to a question for a name of the domain without a CNAME. -/
private theorem ported_in (h : Twins lib s c go zone) {order : List Str}
    (horder : go.cache.Ranges order)
    {n : Dns.Name} (hn : PlainName n) (hstar : n.labels ≠ [[0x2A]]) {q : Query} (hasks : q.Asks n)
    (hclass : HopDns.Server.asksInternet q.qclass = true)
    (hl : s.cnames.lookup (text n.labels) = none) (hin : LiesIn (text n.labels) s.domain) :
    Ported (text n.labels) s.domain (spare q (HopDns.Server.limitFor q.edns))
      (go.handleQuery lib order [(text n.labels ++ [dot], askedAs q.qtype)])
      (s.replyTo c q n (HopDns.Server.limitFor q.edns)) ∧
    ((s.replyTo c q n (HopDns.Server.limitFor q.edns)).rcode = Rcode.nxDomain.toUInt16 →
      (go.handleQuery lib order [(text n.labels ++ [dot], rtype.A)]).answer = []) := by
  have htext : nameText q.qname = some (text n.labels) := by rw [hasks.qname, hn.nameText_eq]
  have hdecides := s.replyTo_follows c hasks
  have hnames := (@HopDns.Server.names_iff s c _ _ _).mpr ⟨hin, rfl, rfl⟩
  obtain ⟨ips, hperm, hips⟩ := h.answer_in horder hn hstar hl hin
  -- no addresses here means none there
  have hnil : (s.lookup c (text n.labels)).addresses c = [] → ips = [] :=
    fun h => List.Perm.eq_nil (h ▸ hperm)
  by_cases hfound : HopDns.Server.asksAddress q.qtype ∧
      (s.lookup c (text n.labels)).addresses c ≠ []
  -- the addresses are asked for, and there are some
  · obtain ⟨hask, hne⟩ := hfound
    have haddressed := hdecides.addressed _ _ _ htext hclass hl hnames hask hne
    have hverdict := (s.verdict_eq c htext hclass).trans
      (HopDns.Server.verdictOn_names hl hnames q.qtype)
    rw [if_pos hask] at hverdict
    have hanswers := answers_replyTo hverdict n (HopDns.Server.limitFor q.edns)
    rw [Draft.fitting, HopDns.Server.room_startDraft hasks] at hanswers
    -- the Go server's answer is a permutation of the addresses
    refine ⟨.of_addresses hperm ?_ haddressed hanswers, fun hcode => ?_⟩
    · rw [askedAs_eq_A.mpr hask]
      exact hips
    · exact absurd (hcode.symm.trans haddressed.1) (by decide)
  · have hnegative := hdecides.negative _ _ _ htext hclass hl hnames hfound
    -- the Go server asks for other types in vain, and for addresses where there are none
    have hnone : go.handleQuestion lib order [] (text n.labels ++ [dot], askedAs q.qtype) = [] := by
      by_cases hA : askedAs q.qtype = rtype.A
      · have hnot : ¬(s.lookup c (text n.labels)).addresses c ≠ [] := fun hne =>
          hfound ⟨askedAs_eq_A.mp hA, hne⟩
        rw [hA, hips, hnil (Decidable.not_not.mp hnot)]
        rfl
      · exact h.answer_other hn hstar hl hA
    obtain ⟨nz, hnz, hshows⟩ := h.soa_shows (text n.labels ++ [dot])
    refine ⟨.of_negative hin hnegative ?_ hnz hshows hnone (if_pos hnone), fun hcode => ?_⟩
    · cases (s.lookup c (text n.labels)).known c with
      | true => exact .inl rfl
      | false => exact .inr rfl
    -- a name that is known is not denied
    · have hnone : (s.lookup c (text n.labels)).addresses c = [] := by
        refine Decidable.byContradiction fun hne => ?_
        rw [known_of_addresses hne] at hnegative
        obtain ⟨-, -, -, hcode', -⟩ | ⟨-, hcode', -⟩ := hnegative <;>
          exact absurd (hcode.symm.trans hcode') (by decide)
      refine hips.trans ?_
      rw [hnil hnone]
      rfl

end Twins

namespace Server

/-- The libraries, as far as they are asked. -/
def plainLib : Lib where
  name labels := labels.flatMap (· ++ [dot])
  fqdn s := if s.getLast? = some dot then s else s ++ [dot]
  toLower := lowercase

private theorem plainLib_documented : plainLib.Documented :=
  ⟨fun _ _ _ => rfl, fun _ _ => rfl, fun _ _ => rfl⟩

/-- `mail.hop.local` has another name. -/
def mailPairs : List (Str × Str) := [(str "mail.hop.local", str "mail.example.com")]

/-- The cache with a job in two clusters. -/
def twoMaps : Cache :=
  (Cache.new.set (str "prod") (str "web") [⟨10, 0, 0, 1⟩]).set (str "test") (str "web")
    [⟨10, 0, 0, 2⟩]

private theorem twoMaps_run : Run Cache.Step Cache.new twoClusters twoMaps :=
  .cons (.set _ _ _ (.refl _) none) <|
    .cons (.set _ _ _ (.refl _) none) <| .cons (.failed _ _ _) <| .nil _

/-- Either order of the two clusters is one in which `range` may go. -/
private theorem twoMaps_ranges : twoMaps.Ranges [str "test", str "prod"] := by
  refine ⟨by decide, fun cluster => ?_⟩
  simp only [twoMaps, Cache.set, Function.update_apply, Cache.new, Map.make, List.mem_cons,
    List.not_mem_nil, or_false]
  by_cases htest : cluster = str "test"
  · simp [htest]
  · have hne : str "prod" ≠ str "test" := by decide
    by_cases hprod : cluster = str "prod" <;> simp [htest, hprod, hne]

/-- `web.hop.local`, in both clusters. -/
def webAnywhere : Dns.Name :=
  ⟨str "web" :: HopDns.Server.hopLocal.labels, HopDns.Server.hopLocal.legal.cons (by decide),
    by decide⟩

end Server

end Go

end HopDns

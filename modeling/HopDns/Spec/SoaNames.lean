import HopDns.Spec.ReplyCorrect

/-!
# The names in a SOA record

A SOA record holds three names: the zone, and the zone behind a label of two bytes and
behind one of ten. The writer holds the zone against the limit of 255 bytes, not the
other two; the scratch buffer ends what is longer than 248 bytes.

## Key results

- `legalSoa_iff`: the record of a zone holds legal names up to 244 bytes
- `authoritySoa_legal_iff`: when the records that are written hold legal names
-/

namespace HopDns

open ForStd

namespace Reply

/-- The bytes are those of a SOA record with three names a message may hold: the owner, and
    behind the head of ten bytes the server and the mailbox, before five numbers. -/
def LegalSoa (bytes : List UInt8) : Prop :=
  ∃ (owner mname rname : Dns.Name) (head numbers : List UInt8), head.length = 10 ∧
    numbers.length = 20 ∧ bytes = owner.wire ++ (head ++ (mname.wire ++ (rname.wire ++ numbers)))

/-- The longest zone whose mailbox is a name. -/
def SOA_NAME_MAX : Nat := 244

/-- The ten bytes between the owner of a SOA record and its data. -/
def soaHead (n : Dns.Name) (ttl : UInt32) : List UInt8 :=
  rtype.SOA.toBytesBE ++ CLASS_IN.toBytesBE ++ ttl.toBytesBE ++
    (UInt16.ofNat (soaData n ttl).length).toBytesBE

/-- The names of the record, one after the other. -/
private theorem bytes_soaRecord (n : Dns.Name) (ttl : UInt32) :
    (soaRecord n ttl).bytes = n.wire ++ (soaHead n ttl ++ (Dns.wire (str "ns" :: n.labels) ++
      (Dns.wire (str "hostmaster" :: n.labels) ++
        [1, ttl, ttl, ttl, ttl].flatMap UInt32.toBytesBE))) := by
  simp only [soaRecord, Dns.Record.bytes, soaData, soaHead, Dns.wire_cons, Dns.Name.wire,
    List.append_assoc]

/-- The record of a zone holds legal names exactly when the zone leaves room for the label of
    the mailbox. -/
theorem legalSoa_iff (n : Dns.Name) (ttl : UInt32) :
    LegalSoa (soaRecord n ttl).bytes ↔ n.wire.length ≤ SOA_NAME_MAX := by
  -- the two names of the data are legal ones, but for their length
  have hns : Dns.Legal (str "ns" :: n.labels) := n.legal.cons (by decide)
  have hhost : Dns.Legal (str "hostmaster" :: n.labels) := n.legal.cons (by decide)
  have hlen : ∀ l : List UInt8, (Dns.wire (l :: n.labels)).length = l.length + 1 + n.wire.length :=
    fun l => Dns.length_wire_cons l n.labels
  have hlabel : (str "ns").length = 2 ∧ (str "hostmaster").length = 10 := by decide
  have hhead : (soaHead n ttl).length = 10 := rfl
  rw [bytes_soaRecord, SOA_NAME_MAX]
  constructor
  · rintro ⟨owner, mname, rname, head, numbers, hhead', -, heq⟩
    -- a name is read in one way, so the names are those of the zone
    obtain ⟨-, heq⟩ := Dns.wire_append_inj n.legal owner.legal heq
    obtain ⟨-, heq⟩ := List.append_inj heq (hhead.trans hhead'.symm)
    obtain ⟨-, heq⟩ := Dns.wire_append_inj hns mname.legal heq
    obtain ⟨hrname, -⟩ := Dns.wire_append_inj hhost rname.legal heq
    have hfits := rname.fits
    rw [← hrname, hlen] at hfits
    omega
  -- short enough a zone makes the record legal
  · intro hle
    have hfits : (Dns.wire (str "ns" :: n.labels)).length ≤ 255 := by
      rw [hlen]
      omega
    have hfits' : (Dns.wire (str "hostmaster" :: n.labels)).length ≤ 255 := by
      rw [hlen]
      omega
    exact ⟨n, ⟨_, hns, hfits⟩, ⟨_, hhost, hfits'⟩, soaHead n ttl, _, hhead, rfl, rfl⟩

/-! ## The record that is written -/

variable {r r' : Reply}

/-- What was added is what stands behind the old end. -/
private theorem Adds.appended {s : Section} {rr : Dns.Record} (h : r.Adds s rr r')
    (hmin : HEADER_LEN ≤ r.len) (hbuf : r.len ≤ r.buf.length) :
    (r'.buf.take r'.len).drop r.len = rr.bytes := by
  unfold HEADER_LEN at hmin
  have hfield : s.counterPos + 2 ≤ r.len := by
    cases s <;> simp only [Section.counterPos] <;> omega
  rw [h.bytes]
  -- a counter keeps its two bytes, so the old end is where it was
  refine List.drop_left' ?_
  simp only [List.length_append, List.length_take, List.length_drop, UInt16.length_toBytesBE]
  omega

/-- A zone whose record there is room for, but not in the buffer, is refused at the last. -/
private theorem authoritySoa_short {zone : Str} (ttl : UInt32) {n : Dns.Name}
    (hn : encodeZone zone = some n) (hroom : 3 * n.wire.length + 44 ≤ r.room)
    (hbuf : r.buf.length < r.len + (3 * n.wire.length + 44)) :
    (authoritySoa zone ttl).run r = (.error .noRoom, r) := by
  obtain ⟨tmp, hrun, hrange⟩ := putSoa_ok ttl hn
  -- the test of the limit is passed, and the copy into the buffer fails
  have hset : r.buf.setRange? r.len (soaRecord n ttl).bytes = none := by
    rw [List.setRange?, if_neg (by rw [length_soaRecord]; omega)]
  have hwrite : (write r.len (soaRecord n ttl).bytes).run r = (.error .noRoom, r) := by
    rw [write, Method.run_bind_ok _ (Method.run_get r), hset]
    rfl
  rw [authoritySoa, Method.run_bind_ok _ (Method.run_scratch_ok r hrun)]
  simp only
  rw [Method.run_bind_ok _ (Method.run_get r), if_neg (by omega), hrange,
    Method.run_bind_ok _ (Method.run_okOr_some _ _ _)]
  exact Method.run_bind_error _ hwrite

/-- A record of a zone that was written is one the scratch buffer, the limit and the buffer all
    have room for. -/
private theorem authoritySoa_eq_ok (hmin : HEADER_LEN ≤ r.len) {zone : Str} {ttl : UInt32}
    (h : (authoritySoa zone ttl).run r = (.ok (), r')) :
    ∃ n, encodeZone zone = some n ∧ 3 * n.wire.length + 44 ≤ r.room ∧
      r.len + (3 * n.wire.length + 44) ≤ r.buf.length ∧ r.Adds .authority (soaRecord n ttl) r' := by
  -- room in the reply and in the buffer, or an error
  by_cases hroom : ∃ n, encodeZone zone = some n ∧ 3 * n.wire.length + 44 ≤ r.room
  · obtain ⟨n, hn, hroom⟩ := hroom
    by_cases hbuf : r.len + (3 * n.wire.length + 44) ≤ r.buf.length
    · obtain ⟨r'', hrun, hadds⟩ := authoritySoa_adds hmin ttl hn hroom hbuf
      obtain rfl := (Prod.mk.inj (h.symm.trans hrun)).2
      exact ⟨n, hn, hroom, hbuf, hadds⟩
    · cases h.symm.trans (authoritySoa_short ttl hn hroom (Nat.lt_of_not_le hbuf))
  · obtain ⟨e, hrun⟩ := @authoritySoa_fails r zone ttl fun n hn =>
      Nat.lt_of_not_le fun hle => hroom ⟨n, hn, hle⟩
    cases h.symm.trans hrun

/-- The zone is too long for its mailbox to be a name, and its record is written all the same. -/
def WritesOverlong (r : Reply) (zone : Str) : Prop :=
  ∃ n, encodeName zone = some n ∧ SOA_NAME_MAX < n.wire.length ∧ n.wire.length ≤ SOA_ZONE_MAX ∧
    3 * n.wire.length + 44 ≤ r.room ∧ r.len + (3 * n.wire.length + 44) ≤ r.buf.length

/-- The record of an overlong zone is written, and its mailbox is no name. -/
private theorem WritesOverlong.exists_run (hmin : HEADER_LEN ≤ r.len) {zone : Str}
    (h : r.WritesOverlong zone) (ttl : UInt32) :
    ∃ r', (authoritySoa zone ttl).run r = (.ok (), r') ∧
      ¬LegalSoa ((r'.buf.take r'.len).drop r.len) := by
  obtain ⟨n, hn, hlong, hmax, hroom, hbuf⟩ := h
  obtain ⟨r', hrun, hadds⟩ :=
    authoritySoa_adds hmin ttl (encodeZone_eq_some.mpr ⟨hn, hmax⟩) hroom hbuf
  refine ⟨r', hrun, ?_⟩
  rw [hadds.appended hmin (by omega), legalSoa_iff]
  exact Nat.not_le_of_lt hlong

/-- The records the writer adds hold legal names, except those of zones of 245 to 248 bytes. -/
theorem authoritySoa_legal_iff (hmin : HEADER_LEN ≤ r.len) (zone : Str) (ttl : UInt32) :
    (∀ r', (authoritySoa zone ttl).run r = (.ok (), r') →
      LegalSoa ((r'.buf.take r'.len).drop r.len)) ↔ ¬r.WritesOverlong zone := by
  -- a record that is too long and goes in is no legal one
  constructor
  · intro hlegal hlong
    obtain ⟨r', hrun, hnot⟩ := hlong.exists_run hmin ttl
    exact hnot (hlegal r' hrun)
  -- any other that goes in has names that are short enough
  · intro hnone r' hrun
    obtain ⟨n, hn, hroom, hbuf, hadds⟩ := authoritySoa_eq_ok hmin hrun
    obtain ⟨hname, hmax⟩ := encodeZone_eq_some.mp hn
    rw [hadds.appended hmin (by omega), legalSoa_iff]
    refine Nat.le_of_not_lt fun hlong => hnone ⟨n, hname, hlong, hmax, hroom, hbuf⟩

/-- Three labels of 63 bytes and one of 52: 246 bytes on the wire. -/
def overlongLabels : List Str :=
  [List.replicate 63 0x61, List.replicate 63 0x61, List.replicate 63 0x61, List.replicate 52 0x61]

/-- The zone of these labels. -/
def overlongZone : Str := [dot].intercalate overlongLabels

/-- The same zone as a name on the wire. -/
def overlongName : Dns.Name := ⟨overlongLabels, by decide, by decide +kernel⟩

private theorem encodeName_overlongZone : encodeName overlongZone = some overlongName :=
  encodeName_eq_some.mpr (by decide +kernel)

/-- With `hostmaster` before it, it takes 257 bytes. -/
private theorem length_overlongName : overlongName.wire.length = 246 := by decide +kernel

/-- A reply to a question for the zone itself has room for its record. -/
private theorem exists_writesOverlong :
    ∃ r buf, (start (queryOf overlongName rtype.A) EDNS_MAX).run (List.replicate EDNS_MAX 0) =
        (.ok r, buf) ∧ HEADER_LEN ≤ r.len ∧ r.WritesOverlong overlongZone := by
  have hlength := length_overlongName
  have hquestion := length_questionBytes overlongName rtype.A CLASS_IN
  -- the question of the example leaves room for the record of its zone
  have hquery : (queryOf overlongName rtype.A).question.length = 250 := by
    rw [show (queryOf overlongName rtype.A).question =
      questionBytes overlongName rtype.A CLASS_IN from rfl, hquestion, hlength]
  have hfits : HEADER_LEN + (queryOf overlongName rtype.A).question.length +
      reserve (queryOf overlongName rtype.A).edns ≤
        min EDNS_MAX (List.replicate EDNS_MAX (0 : UInt8)).length := by
    rw [hquery, List.length_replicate]
    decide
  -- the reply has been started, and nothing is in it yet
  obtain ⟨r, buf, hrun, hshow⟩ := start_ok (queryOf_asks overlongName rtype.A).question
    EDNS_MAX hfits
  rw [List.length_replicate, Nat.min_self] at hshow
  have hroom := hshow.room
  have hlen := hshow.len
  have hstart := length_startDraft (queryOf overlongName rtype.A) overlongName
  have hreserve : reserve (startDraft (queryOf overlongName rtype.A) overlongName).edns = 11 := rfl
  rw [Draft.room, hstart, hreserve] at hroom
  rw [hstart] at hlen
  -- the five conditions are compared number by number
  refine ⟨r, buf, hrun, hshow.header_le, overlongName, encodeName_overlongZone, ?_, ?_, ?_, ?_⟩
  · rw [hlength, SOA_NAME_MAX]
    decide
  · rw [hlength, SOA_ZONE_MAX]
    decide
  · rw [hroom, hlength, EDNS_MAX]
    decide
  · rw [hlen, hshow.size_eq, hlength, EDNS_MAX]
    decide

/-- The reply to a question for such a zone gets a record whose mailbox is no name. -/
theorem authoritySoa_overlong :
    ∃ r buf r', (start (queryOf overlongName rtype.A) EDNS_MAX).run (List.replicate EDNS_MAX 0) =
        (.ok r, buf) ∧ (authoritySoa overlongZone 5).run r = (.ok (), r') ∧
      ¬LegalSoa ((r'.buf.take r'.len).drop r.len) := by
  obtain ⟨r, buf, hrun, hmin, hlong⟩ := exists_writesOverlong
  obtain ⟨r', hrun', hnot⟩ := hlong.exists_run hmin 5
  exact ⟨r, buf, r', hrun, hrun', hnot⟩

/-- What is said of a zone holds of `hop.local` in the reply to that question. -/
theorem authoritySoa_legal_local :
    ∃ r buf, (start (queryOf overlongName rtype.A) EDNS_MAX).run (List.replicate EDNS_MAX 0) =
        (.ok r, buf) ∧ ((∀ r', (authoritySoa (str "hop.local") 5).run r = (.ok (), r') →
      LegalSoa ((r'.buf.take r'.len).drop r.len)) ↔ ¬r.WritesOverlong (str "hop.local")) := by
  obtain ⟨r, buf, hrun, hmin, -⟩ := exists_writesOverlong
  exact ⟨r, buf, hrun, authoritySoa_legal_iff hmin (str "hop.local") 5⟩

end Reply

end HopDns

import HopDns.ForStd.Run
import HopDns.Spec.ReplyCorrect

/-!
# The writers of a reply are atomic

Any mix of the calls on a reply under construction, from the start of one on: the
header counts what was written, the place of the OPT record stays free, and a call
that fails leaves the reply as it was.

## Key results

- `Kept.adds`, `Kept.setFlags`: what one call keeps
- `reachable_kept`: the invariant of every reply that can be reached
- `reply_atomic`: what each call does to such a reply
-/

namespace HopDns

open ForStd

/-- A call that changes a reply under construction. -/
inductive ReplyCall where
  | answerA (ip : Ipv4Addr) (ttl : UInt32)
  | answerCname (target : Str) (ttl : UInt32)
  | authoritySoa (zone : Str) (ttl : UInt32)
  | setRcode (rcode : Rcode)
  | setTruncated
deriving DecidableEq, Repr

def ReplyCall.call : ReplyCall → Method Error Reply Unit
  | answerA ip ttl => Reply.answerA ip ttl
  | answerCname target ttl => Reply.answerCname target ttl
  | authoritySoa zone ttl => Reply.authoritySoa zone ttl
  | setRcode rcode => Method.modify fun r => r.setRcode rcode
  | setTruncated => Method.modify Reply.setTruncated

namespace Reply

/-- A reply as it is started, with a limit of at most `EDNS_MAX`. -/
inductive Begins : Reply → Prop where
  | start {q : Query} {limit : Nat} {out buf : List UInt8} {r : Reply} (hlimit : limit ≤ EDNS_MAX)
      (h : (Reply.start q limit).run out = (.ok r, buf)) : Begins r
  | bare {id flags : UInt16} {rcode : Rcode} {limit : Nat} {out buf : List UInt8} {r : Reply}
      (hlimit : limit ≤ EDNS_MAX)
      (h : (Reply.bare id flags rcode limit).run out = (.ok r, buf)) : Begins r

/-- The call leaves the reply `r'`, whether it returns or fails. -/
def Calls (r : Reply) (c : ReplyCall) (r' : Reply) : Prop := (c.call.run r).2 = r'

/-- What holds of a reply under construction: the header has its counters and comes first, the
    message with its OPT record lies within the limit, and the limit within the buffer. -/
structure Kept (r : Reply) : Prop where
  header : ∃ id flags qd body,
    r.buf.take r.len = Dns.headerBytes id flags qd r.an r.ns r.ar ++ body
  /-- no record is shorter than its head, so the counters do not wrap -/
  counts : HEADER_LEN + 12 * (r.an.toNat + r.ns.toNat) ≤ r.len
  fits : r.len + reserve r.edns ≤ r.limit
  limit_le : r.limit ≤ r.buf.length
  small : r.limit ≤ EDNS_MAX

variable {r r' : Reply}

theorem Kept.header_le (h : r.Kept) : HEADER_LEN ≤ r.len := by
  have := h.counts
  omega

/-- And it lies in its buffer. -/
theorem Kept.len_le (h : r.Kept) : r.len ≤ r.buf.length := by
  have := h.fits
  have := h.limit_le
  omega

/-- The counters in the header are those of the reply. -/
theorem Kept.be16_eq (h : r.Kept) : be16 r.buf 6 = some r.an ∧ be16 r.buf 8 = some r.ns ∧
    be16 r.buf 10 = some r.ar := by
  obtain ⟨id, flags, qd, body, hheader⟩ := h.header
  have hat : r.buf.HasAt 0 (Dns.headerBytes id flags qd r.an r.ns r.ar ++ body) := by
    rw [← hheader]
    exact List.take_prefix _ _
  obtain ⟨-, -, -, han, hns, har, -⟩ := hasAt_headerBytes.mp hat
  exact ⟨han, hns, har⟩

/-! ## The start -/

/-- A bare reply that is started is the header alone. -/
private theorem bare_eq_ok {id flags : UInt16} {rcode : Rcode} {limit : Nat} {out buf : List UInt8}
    (h : (bare id flags rcode limit).run out = (.ok r, buf)) :
    buf = r.buf ∧ r.len = HEADER_LEN ∧
      r.Shows (min limit out.length) out.length (bareDraft id flags rcode) := by
  by_cases hlimit : HEADER_LEN ≤ min limit out.length
  · obtain ⟨r₀, hrun, hlen, hshow⟩ := bare_ok id flags rcode limit hlimit
    obtain ⟨hr, rfl⟩ := Prod.mk.inj (h.symm.trans hrun)
    obtain rfl := Except.ok.inj hr
    exact ⟨rfl, hlen, hshow⟩
  · rw [bare_none id flags rcode limit (Nat.lt_of_not_le hlimit)] at h
    cases h

/-- A reply that shows a bare draft keeps its bounds. -/
private theorem Shows.kept_bare {limit size : Nat} {id flags : UInt16} {rcode : Rcode}
    (h : r.Shows limit size (bareDraft id flags rcode)) (hlimit : limit ≤ EDNS_MAX) : r.Kept where
  header := ⟨id, replyFlags flags rcode, 0, [], by rw [h.bytes, h.an, h.ns, h.ar]; rfl⟩
  counts := by
    rw [h.an, h.ns]
    exact h.header_le
  fits := by
    rw [h.len, h.edns, h.limit_eq]
    exact h.fits
  limit_le := h.limit_le_buf
  small := h.limit_eq ▸ hlimit

/-- A reply that starts with a question keeps its bounds. -/
private theorem start_kept {q : Query} {limit : Nat} {out buf : List UInt8}
    (hlimit : limit ≤ EDNS_MAX) (h : (start q limit).run out = (.ok r, buf)) : r.Kept := by
  rw [start, Method.run_bind_ok _ (Method.run_get out)] at h
  obtain ⟨r₀, out₀, hbare, h⟩ := Method.run_bind_eq_ok.mp h
  obtain ⟨rfl, hlen₀, hshow⟩ := bare_eq_ok hbare
  -- a bare reply is the smaller buffer, so it holds every bound of a kept one
  have hkept := hshow.kept_bare (Nat.le_trans (Nat.min_le_left _ _)
    (Nat.le_trans (Nat.min_le_left _ _) hlimit))
  simp only at h
  -- a question that leaves no room for the OPT record starts no reply
  by_cases hroom : HEADER_LEN + q.question.length + reserve q.edns > r₀.limit
  · rw [if_pos hroom] at h
    cases h
  · rw [if_neg hroom] at h
    obtain ⟨_, out₁, hput, h⟩ := Method.run_bind_eq_ok.mp h
    rw [Method.run_bind_ok _ (Method.run_get out₁)] at h
    obtain ⟨hr, -⟩ := Prod.mk.inj h
    obtain rfl := Except.ok.inj hr
    have hset := putSlice_run_ok.mp hput
    have hsize₁ := List.length_setRange? hset
    have htake := List.take_setRange? hset
    -- the header of the bare reply is still there, with one question in it now
    have hlimit₀ := hkept.limit_le
    obtain ⟨buf₂, hcount, hsize₂, htake₂⟩ := @setCount_eq
      { r₀ with buf := out₁, len := HEADER_LEN + q.question.length } 4 1
      (show 4 + 2 ≤ HEADER_LEN + q.question.length by unfold HEADER_LEN; omega)
      (show HEADER_LEN + q.question.length ≤ out₁.length by omega)
    have hbytes : r₀.buf.take HEADER_LEN = bareHead q.id q.flags .noError := by
      rw [← bytes_bareDraft, ← hshow.bytes, hlen₀]
    simp only [hcount]
    -- the id and the flags are the old ones, and the body is the question alone
    refine ⟨⟨q.id, replyFlags q.flags .noError, 1, q.question, ?_⟩, ?_, ?_, ?_, hkept.small⟩
    · have htake₁ : out₁.take (HEADER_LEN + q.question.length) = _ := htake
      refine htake₂.trans ?_
      rw [htake₁, hbytes, bareHead_eq, hshow.an, hshow.ns, hshow.ar]
      rfl
    · rw [hshow.an, hshow.ns]
      exact Nat.le_add_right _ _
    · exact Nat.le_of_not_lt hroom
    · rw [hsize₂, hsize₁]
      exact hlimit₀

/-- A reply that begins in either way keeps its bounds. -/
theorem Begins.kept (h : r.Begins) : r.Kept := by
  cases h with
  | start hlimit h => exact start_kept hlimit h
  | bare hlimit h =>
    exact (bare_eq_ok h).2.2.kept_bare (Nat.le_trans (Nat.min_le_left _ _) hlimit)

/-! ## One call -/

/-- A record there is room for is counted, and the rest of the header stays. -/
theorem Kept.adds (h : r.Kept) {s : Section} {rr : Dns.Record} (hadds : r.Adds s rr r')
    (hroom : rr.bytes.length ≤ r.room) (hmin : 12 ≤ rr.bytes.length) : r'.Kept := by
  have hcounts := h.counts
  have hfits := h.fits
  have hlimit := h.limit_le
  have hsmall := h.small
  unfold Reply.room at hroom
  unfold EDNS_MAX HEADER_LEN at *
  have han : r'.an = r'.counter .answer := rfl
  have hns : r'.ns = r'.counter .authority := rfl
  obtain ⟨id, flags, qd, body, hheader⟩ := h.header
  refine ⟨⟨id, flags, qd, body ++ rr.bytes, ?_⟩, ?_, ?_, ?_, ?_⟩
  -- the record goes behind the body, and one counter of the header goes up
  · rw [hadds.bytes, hheader, han, hns, hadds.ar, hadds.counter, hadds.counter]
    cases s with
    | answer =>
      rw [if_pos rfl, if_neg (by decide)]
      simp only [List.append_assoc]
      rfl
    | authority =>
      rw [if_neg (by decide), if_pos rfl]
      simp only [List.append_assoc]
      rfl
  · -- a record has twelve bytes at least, so there are not many
    have hsucc : ∀ n : UInt16, n.toNat ≤ 1232 → (n + 1).toNat = n.toNat + 1 := by
      intro n hn
      rw [UInt16.toNat_add]
      exact Nat.mod_eq_of_lt (show n.toNat + 1 < 65536 by omega)
    rw [han, hns, hadds.counter, hadds.counter, hadds.len]
    cases s with
    | answer =>
      rw [if_pos rfl, if_neg (by decide)]
      show 12 + 12 * ((r.an + 1).toNat + r.ns.toNat) ≤ _
      rw [hsucc r.an (by omega)]
      omega
    | authority =>
      rw [if_neg (by decide), if_pos rfl]
      show 12 + 12 * (r.an.toNat + (r.ns + 1).toNat) ≤ _
      rw [hsucc r.ns (by omega)]
      omega
  -- the room that was asked for is what the record takes, and nothing of the OPT record's
  · rw [hadds.len, hadds.edns, hadds.limit]
    omega
  -- the limit and the size of the buffer are not touched
  · rw [hadds.limit, hadds.size]
    exact hlimit
  · rw [hadds.limit]
    exact hsmall

/-- Only the flags change: of what was written, and of the reply nothing but the buffer. -/
def Flagged (r : Reply) (f : UInt16) (r' : Reply) : Prop :=
  ∃ buf, r' = { r with buf } ∧ buf.length = r.buf.length ∧
    buf.take r.len = (r.buf.take r.len).take 2 ++ f.toBytesBE ++ (r.buf.take r.len).drop 4

/-- The flags are written where they stand, and nothing else is. -/
private theorem setFlags_flagged (h : r.Kept) (f : UInt16) : r.Flagged f (r.setFlags f) := by
  have hmin := h.header_le
  unfold HEADER_LEN at hmin
  exact setCount_eq f (show 2 + 2 ≤ r.len by omega) h.len_le

/-- Other flags leave the bounds as they are. -/
private theorem Kept.flagged (h : r.Kept) {f : UInt16} (hflagged : r.Flagged f r') : r'.Kept := by
  obtain ⟨buf, rfl, hsize, htake⟩ := hflagged
  obtain ⟨id, flags, qd, body, hheader⟩ := h.header
  refine ⟨⟨id, f, qd, body, ?_⟩, h.counts, h.fits, ?_, h.small⟩
  · refine htake.trans ?_
    rw [hheader]
    simp only [List.append_assoc]
    rfl
  · rw [hsize]
    exact h.limit_le

end Reply

/-! ## Any call -/

namespace ReplyCall

open Reply (aRecord cnameRecord soaRecord encodeZone)

/-- What a call changes when it returns: a writer adds one record to its section, and the other
    two change the flags. -/
def Does : ReplyCall → Reply → Reply → Prop
  | answerA ip ttl, r, r' => r.Adds .answer (aRecord ip ttl) r'
  | answerCname target ttl, r, r' =>
    ∃ n, encodeName target = some n ∧ r.Adds .answer (cnameRecord n ttl) r'
  | authoritySoa zone ttl, r, r' =>
    ∃ n, encodeZone zone = some n ∧ r.Adds .authority (soaRecord n ttl) r'
  | setRcode _, r, r' => ∃ f, r.Flagged f r'
  | setTruncated, r, r' => ∃ f, r.Flagged f r'

/-- The call gets past its test of the room: what it writes in its scratch buffer is written,
    and the reply has room for it. -/
def HasRoom : ReplyCall → Reply → Prop
  | answerA _ _, r => 12 + 4 ≤ r.room
  | answerCname target _, r => ∃ n tmp,
    (putName 0 target).run (List.replicate (NAME_MAX + 1) 0) = (.ok n, tmp) ∧ 12 + n ≤ r.room
  | authoritySoa zone ttl, r => ∃ n tmp,
    (Reply.putSoa zone ttl).run (List.replicate (3 * (NAME_MAX + 1) + 20) 0) = (.ok n, tmp) ∧
      n ≤ r.room
  | setRcode _, _ => True
  | setTruncated, _ => True

/-- A call adds what it is to add and keeps the invariant, or there is no room and the reply
    stays as it was. -/
private theorem call_cases {r : Reply} (h : r.Kept) (c : ReplyCall) :
    (¬c.HasRoom r ∧ ∃ e, c.call.run r = (.error e, r)) ∨
      ∃ r', c.call.run r = (.ok (), r') ∧ c.Does r r' ∧ r'.Kept := by
  have hmin := h.header_le
  have hlimit := h.limit_le
  cases c with
  | answerA ip ttl =>
    -- an A record has sixteen bytes always, so the room decides alone
    by_cases hroom : 16 ≤ r.room
    · obtain ⟨r', hrun, hadds⟩ := Reply.answerA_adds hmin hlimit ip ttl hroom
      exact .inr ⟨r', hrun, hadds, h.adds hadds hroom (by decide : 12 ≤ 16)⟩
    · exact .inl ⟨hroom, _, Reply.answerA_noRoom ip ttl (Nat.lt_of_not_le hroom)⟩
  | answerCname target ttl =>
    -- the name has to have a wire form, and the record has to fit
    by_cases hroom : ∃ n, encodeName target = some n ∧ 12 + n.wire.length ≤ r.room
    · obtain ⟨n, hn, hroom⟩ := hroom
      obtain ⟨r', hrun, hadds⟩ := Reply.answerCname_adds hmin hlimit ttl hn hroom
      have hlen : (cnameRecord n ttl).bytes.length = 12 + n.wire.length :=
        Reply.length_answerRecord rtype.CNAME ttl n.wire
      exact .inr ⟨r', hrun, ⟨n, hn, hadds⟩, h.adds hadds (by omega) (by omega)⟩
    · refine .inl ⟨fun hpassed => hroom ?_, Reply.answerCname_fails ttl fun n hn =>
        Nat.lt_of_not_le fun hle => hroom ⟨n, hn, hle⟩⟩
      -- the length that was tested is that of the name
      obtain ⟨_, tmp, hrun, hle⟩ := hpassed
      obtain ⟨n, hn, rfl, -⟩ := putName_run_ok.mp hrun
      exact ⟨n, hn, by omega⟩
  | authoritySoa zone ttl =>
    -- the SOA record holds the zone three times
    by_cases hroom : ∃ n, encodeZone zone = some n ∧ 3 * n.wire.length + 44 ≤ r.room
    · obtain ⟨n, hn, hroom⟩ := hroom
      have hbuf : r.len + (3 * n.wire.length + 44) ≤ r.buf.length := by
        unfold Reply.room at hroom
        omega
      obtain ⟨r', hrun, hadds⟩ := Reply.authoritySoa_adds hmin ttl hn hroom hbuf
      have hlen := Reply.length_soaRecord n ttl
      exact .inr ⟨r', hrun, ⟨n, hn, hadds⟩, h.adds hadds (by omega) (by omega)⟩
    · refine .inl ⟨fun hpassed => hroom ?_, Reply.authoritySoa_fails ttl fun n hn =>
        Nat.lt_of_not_le fun hle => hroom ⟨n, hn, hle⟩⟩
      -- the length that was tested is that of the whole record
      obtain ⟨m, tmp, hrun, hle⟩ := hpassed
      obtain ⟨n, hn⟩ := Reply.encodeZone_of_putSoa hrun
      obtain ⟨tmp', hrun', -⟩ := Reply.putSoa_ok ttl hn
      obtain ⟨hm, -⟩ := Prod.mk.inj (hrun.symm.trans hrun')
      exact ⟨n, hn, Except.ok.inj hm ▸ hle⟩
  | setRcode rcode =>
    -- the two calls that set flags never fail, and change no record
    have hflagged := Reply.setFlags_flagged h ((r.flags &&& ~~~0x000F) ||| rcode.toUInt16)
    exact .inr ⟨_, rfl, ⟨_, hflagged⟩, h.flagged hflagged⟩
  | setTruncated =>
    have hflagged := Reply.setFlags_flagged h (r.flags ||| TC)
    exact .inr ⟨_, rfl, ⟨_, hflagged⟩, h.flagged hflagged⟩

/-- How a call behaves on a reply: all of it or nothing, and once past its test of the room all
    of it. -/
structure Behaves (c : ReplyCall) (r : Reply) : Prop where
  failed : ∀ e r', c.call.run r = (.error e, r') → r' = r
  returned : ∀ r', c.call.run r = (.ok (), r') → c.Does r r'
  passed : c.HasRoom r → ∃ r', c.call.run r = (.ok (), r')

/-- Within its bounds every call does what it says, or fails and leaves the reply alone. -/
private theorem behaves_of_kept {r : Reply} (h : r.Kept) (c : ReplyCall) : c.Behaves r := by
  -- the call has one outcome, so the other cases do not arise
  obtain ⟨hnone, e, hrun⟩ | ⟨r', hrun, hdoes, -⟩ := call_cases h c
  · refine ⟨fun e' r' h' => ?_, fun r' h' => ?_, fun hroom => absurd hroom hnone⟩
    · exact ((Prod.mk.inj (h'.symm.trans hrun)).2)
    · cases h'.symm.trans hrun
  · refine ⟨fun e' r' h' => ?_, fun r'' h' => ?_, fun _ => ⟨r', hrun⟩⟩
    · cases h'.symm.trans hrun
    · obtain rfl := (Prod.mk.inj (h'.symm.trans hrun)).2
      exact hdoes

end ReplyCall

namespace Reply

/-- Every call keeps the invariant, whether it returns or fails. -/
theorem Kept.calls {r r' : Reply} {c : ReplyCall} (h : r.Kept) (hcall : r.Calls c r') :
    r'.Kept := by
  unfold Calls at hcall
  obtain ⟨-, e, hrun⟩ | ⟨r'', hrun, -, hkept⟩ := ReplyCall.call_cases h c
  · rw [hrun] at hcall
    exact hcall ▸ h
  · rw [hrun] at hcall
    exact hcall ▸ hkept

/-- The invariant holds from the start of a reply on, through any calls. -/
theorem reachable_kept {r : Reply} (h : Reachable Begins Calls r) : r.Kept :=
  h.invariant (fun _ hr => hr.kept) fun _ _ _ hr hcall => hr.calls hcall

/-- The invariant of a reply under construction, as the header, the limit and the buffer show
    it. -/
structure Sound (r : Reply) : Prop where
  fits : r.len + reserve r.edns ≤ r.limit
  limit_le : r.limit ≤ r.buf.length
  an : be16 r.buf 6 = some r.an
  ns : be16 r.buf 8 = some r.ns
  ar : be16 r.buf 10 = some r.ar

/-- After any calls from the start of a reply on, each of which may fail, the invariant holds,
    and any further call does all of its work or nothing. -/
theorem reply_atomic {r : Reply} (h : Reachable Begins Calls r) :
    r.Sound ∧ ∀ c : ReplyCall, c.Behaves r := by
  have hkept := reachable_kept h
  obtain ⟨han, hns, har⟩ := hkept.be16_eq
  exact ⟨⟨hkept.fits, hkept.limit_le, han, hns, har⟩, ReplyCall.behaves_of_kept hkept⟩

/-- A bare reply in a buffer of 512 bytes. -/
theorem reply_atomic_bare :
    ∃ r, (bare 0 0 .formErr UDP_MAX).run (List.replicate 512 0) = (.ok r, r.buf) ∧
      r.Sound ∧ ∀ c : ReplyCall, c.Behaves r := by
  obtain ⟨r, hrun, -, -⟩ := @bare_ok 0 0 .formErr UDP_MAX (List.replicate 512 0)
    (by rw [List.length_replicate]; decide)
  exact ⟨r, hrun, reply_atomic (.of_init (.bare (by decide) hrun))⟩

end Reply

end HopDns

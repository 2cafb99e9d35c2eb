import HopDns.Spec.ReplyShape

/-!
# Who gets a reply

The flags of every reply, and the datagrams that get none. A reply has the QR bit set, and
a datagram with that bit set gets no reply, so two servers never answer each other.

## Key results

- `Drafted.head`: the id and the flags of a reply
- `Server.handle_replies`: what goes back, and to what
-/

namespace HopDns

open ForStd
open Reply (replyFlags)

/-- Recursion available. -/
def RA : UInt16 := 0x0080

/-- The bit that is always clear. -/
def Z : UInt16 := 0x0040

/-- Authentic data. -/
def AD : UInt16 := 0x0020

/-- The four bits of the opcode. -/
def OPCODE : UInt16 := 0x7800

/-- The flags of a reply to a datagram with the flags `asked`. -/
structure Acknowledges (asked flags : UInt16) : Prop where
  qr : flags &&& QR = QR
  aa : flags &&& AA = AA
  opcode : flags &&& OPCODE = asked &&& OPCODE
  rd : flags &&& RD = asked &&& RD
  cd : flags &&& CD = asked &&& CD
  tc : flags &&& TC = 0
  ra : flags &&& RA = 0
  z : flags &&& Z = 0
  ad : flags &&& AD = 0
  rcode : ∃ rcode : Rcode, flags &&& 0x000F = rcode.toUInt16

/-! ## The word of the flags -/

section

variable (asked : UInt16) (rcode : Rcode) {mask : UInt16} (hmask : 0x000F &&& mask = 0)

include hmask

/-- A mask beside the code sees the bits every reply has, and those of the question. -/
private theorem replyFlags_and : replyFlags asked rcode &&& mask =
    ((QR ||| AA) &&& mask) ||| (asked &&& ((OPCODE ||| RD ||| CD) &&& mask)) := by
  -- the code lies in the low four bits, which the mask leaves out
  have hcode : rcode.toUInt16 &&& mask = 0 := by
    have hlow : rcode.toUInt16 = rcode.toUInt16 &&& 0x000F := by cases rcode <;> decide
    rw [hlow, UInt16.and_assoc, hmask, UInt16.and_zero]
  rw [replyFlags, UInt16.or_and_distrib, hcode, UInt16.or_zero, UInt16.or_and_distrib,
    UInt16.and_assoc]
  rfl

/-- Bits that are not the question's are the same in every reply. -/
private theorem replyFlags_fixed (hkept : (OPCODE ||| RD ||| CD) &&& mask = 0) :
    replyFlags asked rcode &&& mask = (QR ||| AA) &&& mask := by
  rw [replyFlags_and asked rcode hmask, hkept, UInt16.and_zero, UInt16.or_zero]

/-- The opcode, RD and CD are the question's. -/
private theorem replyFlags_kept (hfixed : (QR ||| AA) &&& mask = 0)
    (hkept : (OPCODE ||| RD ||| CD) &&& mask = mask) :
    replyFlags asked rcode &&& mask = asked &&& mask := by
  rw [replyFlags_and asked rcode hmask, hfixed, hkept, UInt16.zero_or]

end

/-- The flags of a reply acknowledge those of the question. -/
private theorem replyFlags_acknowledges (asked : UInt16) (rcode : Rcode) :
    Acknowledges asked (replyFlags asked rcode) where
  qr := replyFlags_fixed asked rcode (by decide) (by decide)
  aa := replyFlags_fixed asked rcode (by decide) (by decide)
  opcode := replyFlags_kept asked rcode (by decide) (by decide) (by decide)
  rd := replyFlags_kept asked rcode (by decide) (by decide) (by decide)
  cd := replyFlags_kept asked rcode (by decide) (by decide) (by decide)
  tc := replyFlags_fixed asked rcode (by decide) (by decide)
  ra := replyFlags_fixed asked rcode (by decide) (by decide)
  z := replyFlags_fixed asked rcode (by decide) (by decide)
  ad := replyFlags_fixed asked rcode (by decide) (by decide)
  rcode := ⟨rcode, Reply.rcode_replyFlags asked rcode⟩

namespace Draft

/-- The draft has the flags of a reply to `asked`, with some code. -/
def Replies (d : Draft) (asked : UInt16) : Prop := ∃ rcode, d.flags = replyFlags asked rcode

variable {d : Draft} {asked : UInt16}

/-- Another code changes the code alone. -/
theorem Replies.withRcode (h : d.Replies asked) (rcode : Rcode) :
    (d.withRcode rcode).Replies asked := by
  obtain ⟨rcode', h⟩ := h
  refine ⟨rcode, ?_⟩
  -- once the old code is cleared, the rest is what every reply has
  have hrest : replyFlags asked rcode' &&& ~~~0x000F =
      QR ||| AA ||| (asked &&& (0x7800 ||| RD ||| CD)) :=
    (replyFlags_and asked rcode' (by decide)).trans (by rfl)
  show (d.flags &&& ~~~0x000F) ||| rcode.toUInt16 = _
  rw [h, hrest, replyFlags]

/-- Drawing up a verdict changes the code of the flags alone. -/
theorem Replies.render (h : d.Replies asked) (limit : Nat) (v : Verdict) :
    (d.render limit v).Replies asked := by
  -- the draft, perhaps with a name error, then a code or one record; or the addresses
  obtain ⟨d₀, hd₀, hcases⟩ | ⟨known, ips, zone, -, heq⟩ := d.render_cases limit v
  · have h₀ : d₀.Replies asked := by
      obtain rfl | rfl := hd₀
      · exact h
      · exact h.withRcode .nxDomain
    obtain ⟨rcode, heq⟩ | ⟨s, rr, -, -, heq⟩ := hcases
    · rw [heq]
      exact h₀.withRcode rcode
    · -- a record leaves the flags alone
      rw [heq]
      exact h₀
  · rw [heq]
    exact h

/-- The id and the flags stand at the head of a closed draft. -/
private theorem head_closed (d : Draft) :
    be16 d.closed 0 = some d.id ∧ be16 d.closed 2 = some d.flags := by
  have hat : d.closed.HasAt 0 d.closed := List.prefix_rfl
  obtain ⟨hid, hflags, -⟩ := hasAt_headerBytes.mp hat
  exact ⟨hid, hflags⟩

end Draft

namespace Server

/-- A reply has the id of the datagram, and the flags of a reply to it. -/
theorem Drafted.head {s : Server} {cache : Cache} {msg out : List UInt8} {d : Draft}
    (h : Drafted s cache msg out d) :
    ∃ asked, be16 msg 0 = some d.id ∧ be16 msg 2 = some asked ∧ d.Replies asked := by
  -- a draft is an answer to a question that was read, or a bare reply
  cases h with
  | @answer q n hq hn hfits =>
    obtain ⟨-, hdrop⟩ | ⟨-, id, flags, hid, hflags, hbad | ⟨q', hq', rfl, rfl⟩⟩ :=
      parseQuery_cases msg
    -- what was read is a question, so neither of the other two outcomes
    · rw [hq] at hdrop
      cases hdrop
    · rw [hq] at hbad
      cases hbad
    · obtain rfl := Except.ok.inj (hq.symm.trans hq')
      -- the records of the answer change the code at most
      have hstart : (Reply.startDraft q n).Replies q.flags := ⟨.noError, rfl⟩
      refine ⟨q.flags, ?_, hflags, hstart.render _ _⟩
      rw [hid, replyDraft, (Draft.render_frame _ _ _).1]
      rfl
  | @bare id flags rcode hbad hout =>
    obtain ⟨-, hdrop⟩ | ⟨-, id', flags', hid, hflags, hbad' | ⟨q, hq, -⟩⟩ :=
      parseQuery_cases msg
    · rw [hbad] at hdrop
      cases hdrop
    -- a bare reply is built from the two fields as they were read
    · obtain ⟨rfl, rfl, rfl⟩ := Bad.reply.inj (Except.error.inj (hbad.symm.trans hbad'))
      exact ⟨flags, hid, hflags, badCode flags, rfl⟩
    · rw [hbad] at hq
      cases hq

/-- A datagram gets no reply exactly when it is too short for a header or a reply itself; the
    buffer holds 512 bytes. -/
private theorem handle_eq_none (s : Server) (cache : Cache) (msg : List UInt8) {out : List UInt8}
    (hout : UDP_MAX ≤ out.length) : (s.handle cache msg out).1 = none ↔ Dropped msg := by
  obtain ⟨hdropped, hdrop⟩ | ⟨hkept, id, flags, -, -, hbad | ⟨q, hq, -⟩⟩ :=
    parseQuery_cases msg
  · rw [handle_drop s cache out hdrop]
    exact iff_of_true rfl hdropped
  · obtain ⟨buf, hrun, -⟩ := handle_bare s cache hbad (Nat.le_trans (by decide) hout)
    rw [hrun]
    exact iff_of_false (by simp) hkept
  · obtain ⟨n, hn⟩ := Query.exists_asks hq
    obtain ⟨buf, hrun, -⟩ := handle_ok s cache hq hn (fits_of_le hn hout)
    rw [hrun]
    exact iff_of_false (by simp) hkept

/-- Servers never answer each other and never go silent: no server answers a reply; a reply has
    the id, the opcode, RD and CD of its datagram, QR and AA set, TC, RA, Z and AD clear, and
    one of the six codes; and in a buffer of 512 bytes there is a reply to every datagram but
    those without a whole header and those with QR set. -/
theorem handle_replies (s s' : Server) (cache cache' : Cache) (msg out out' : List UInt8) :
    (∀ len, (s.handle cache msg out).1 = some len →
      (s'.handle cache' ((s.handle cache msg out).2.take len) out').1 = none ∧
        ∃ id asked flags, be16 msg 0 = some id ∧ be16 msg 2 = some asked ∧
          be16 ((s.handle cache msg out).2.take len) 0 = some id ∧
            be16 ((s.handle cache msg out).2.take len) 2 = some flags ∧
              Acknowledges asked flags) ∧
    (UDP_MAX ≤ out.length → ((s.handle cache msg out).1 = none ↔
      msg.length < HEADER_LEN ∨ ∃ flags, be16 msg 2 = some flags ∧ flags &&& QR ≠ 0)) := by
  refine ⟨fun len hlen => ?_, fun hout => handle_eq_none s cache msg hout⟩
  obtain ⟨d, hd, -, htake, -⟩ := exists_drafted hlen
  obtain ⟨asked, hid, hasked, rcode, hflags⟩ := hd.head
  obtain ⟨hid', hflags'⟩ := d.head_closed
  -- the flags of the reply are a function of those of the datagram and of the code
  have hack : Acknowledges asked d.flags := by
    rw [hflags]
    exact replyFlags_acknowledges asked rcode
  rw [htake]
  refine ⟨?_, d.id, asked, d.flags, hid, hasked, hid', hflags', hack⟩
  -- the QR bit of the reply makes the other server drop it
  have hdropped : Dropped d.closed := .inr ⟨d.flags, hflags', by rw [hack.qr]; decide⟩
  obtain ⟨-, hdrop⟩ | ⟨hkept, -⟩ := parseQuery_cases d.closed
  · rw [handle_drop s' cache' out' hdrop]
  · exact absurd hdropped hkept

/-- The reply on the domain itself, sent to a server of another domain. -/
theorem handle_replies_apex :
    ((⟨str "example", CNAMEs.default⟩ : Server).handle Cache.new
      (((⟨DEFAULT_DOMAIN, CNAMEs.default⟩ : Server).handle Cache.new (queryFor hopLocal rtype.A)
        (List.replicate 600 0)).2.take 115) (List.replicate 600 0)).1 = none :=
  ((handle_replies ⟨DEFAULT_DOMAIN, CNAMEs.default⟩ ⟨str "example", CNAMEs.default⟩ Cache.new
    Cache.new (queryFor hopLocal rtype.A) (List.replicate 600 0) (List.replicate 600 0)).1 115
      (by decide +kernel)).1

end Server

end HopDns

import HopDns.ForStd.DnsMessage
import HopDns.Spec.QueryCorrect

/-!
# The reply builder writes messages

A `Reply` under construction holds a message without its OPT record: the `Draft`
that it `Shows`. Every writer either adds one record to the draft or leaves the
reply as it was, and `finish` turns the draft into the bytes of a message. Nothing
of this depends on what the buffer held before.

## Key results

- `answerA_adds`, `answerCname_adds`, `authoritySoa_adds`: what a writer changes
- `answerA_ok`, `answerCname_ok`, `authoritySoa_ok`: a record that fits is added
- `answerA_full`, `answerCname_none`, `authoritySoa_none`: any other call changes nothing
- `finish_eq`: the finished buffer starts with the bytes of the draft's message
-/

namespace HopDns

open ForStd

/-- A message under construction: what was written so far, in the order it was written. -/
structure Draft where
  id : UInt16
  flags : UInt16
  question : Option Dns.Question
  records : List (Section × Dns.Record)
  edns : Option UInt16

/-- The response codes are what the mask of the code leaves. -/
theorem rcode_replace (flags : UInt16) (rcode : Rcode) :
    ((flags &&& ~~~0x000F) ||| rcode.toUInt16) &&& 0x000F = rcode.toUInt16 := by
  rw [UInt16.or_and_distrib, UInt16.and_assoc, UInt16.not_and_self, UInt16.and_zero,
    UInt16.zero_or]
  cases rcode <;> decide

namespace Draft

/-- The number of records of a section. -/
def count (d : Draft) (s : Section) : Nat := (d.records.filter fun r => r.1 = s).length

/-- The question, where there is one, and the records. -/
def body (d : Draft) : List UInt8 :=
  d.question.toList.flatMap Dns.Question.bytes ++ d.records.flatMap fun r => r.2.bytes

/-- The bytes written so far. -/
def bytes (d : Draft) : List UInt8 :=
  Dns.headerBytes d.id d.flags (UInt16.ofNat d.question.toList.length)
    (UInt16.ofNat (d.count .answer)) (UInt16.ofNat (d.count .authority)) 0 ++ d.body

/-- The draft with one record more. -/
def add (d : Draft) (s : Section) (r : Dns.Record) : Draft :=
  { d with records := d.records ++ [(s, r)] }

/-- The draft with another response code. -/
def withRcode (d : Draft) (rcode : Rcode) : Draft :=
  { d with flags := (d.flags &&& ~~~0x000F) ||| rcode.toUInt16 }

/-- The room for records in a message of at most `limit` bytes. -/
def room (d : Draft) (limit : Nat) : Nat := limit - (d.bytes.length + Reply.reserve d.edns)

theorem length_bytes (d : Draft) : d.bytes.length = 12 + d.body.length := by
  rw [bytes, List.length_append, Dns.length_headerBytes]

/-- A record stands behind what was there. -/
private theorem body_add (d : Draft) (s : Section) (r : Dns.Record) :
    (d.add s r).body = d.body ++ r.bytes := by
  simp only [body, add, List.flatMap_append, List.flatMap_cons, List.flatMap_nil, List.append_nil,
    List.append_assoc]

private theorem length_bytes_add (d : Draft) (s : Section) (r : Dns.Record) :
    (d.add s r).bytes.length = d.bytes.length + r.bytes.length := by
  rw [length_bytes, length_bytes, body_add, List.length_append, Nat.add_assoc]

/-- A record is counted in its section alone. -/
private theorem count_add (d : Draft) (s s' : Section) (r : Dns.Record) :
    (d.add s r).count s' = d.count s' + if s = s' then 1 else 0 := by
  simp only [count, add, List.filter_append, List.length_append, List.filter_cons, List.filter_nil]
  split <;> simp_all

/-- A record takes its bytes of the room. -/
theorem room_add (d : Draft) (s : Section) (r : Dns.Record) (limit : Nat) :
    (d.add s r).room limit = d.room limit - r.bytes.length := by
  unfold room
  rw [length_bytes_add]
  simp only [add]
  omega

end Draft

/-- The place of a section's counter in the header. -/
def Section.counterPos : Section → Nat
  | answer => 6
  | authority => 8

/-- The reply holds the draft: its first `len` bytes are the draft's, the counters are the
    draft's, and with the OPT record it stays within the limit and the buffer. -/
structure Reply.Shows (r : Reply) (limit size : Nat) (d : Draft) : Prop where
  bytes : r.buf.take r.len = d.bytes
  len : r.len = d.bytes.length
  an : r.an = UInt16.ofNat (d.count .answer)
  ns : r.ns = UInt16.ofNat (d.count .authority)
  ar : r.ar = 0
  edns : r.edns = d.edns
  limit_eq : r.limit = limit
  size_eq : r.buf.length = size
  fits : d.bytes.length + Reply.reserve d.edns ≤ limit
  limit_le : limit ≤ size

namespace Reply

variable {r : Reply} {limit size : Nat} {d : Draft}

theorem Shows.room (h : r.Shows limit size d) : r.room = d.room limit := by
  rw [Reply.room, Draft.room, h.limit_eq, h.len, h.edns]

/-- What is written lies in the buffer. -/
theorem Shows.len_le (h : r.Shows limit size d) : r.len ≤ r.buf.length := by
  have := h.fits
  have := h.limit_le
  rw [h.len, h.size_eq]
  omega

theorem Shows.header_le (h : r.Shows limit size d) : HEADER_LEN ≤ r.len := by
  rw [h.len, d.length_bytes]
  exact Nat.le_add_right _ _

/-- The limit lies in the buffer. -/
theorem Shows.limit_le_buf (h : r.Shows limit size d) : r.limit ≤ r.buf.length := by
  rw [h.limit_eq, h.size_eq]
  exact h.limit_le

/-! ## Numbers in the header -/

/-- A number written in place changes its two bytes of what was written so far. -/
theorem setCount_eq {pos : Nat} (n : UInt16) (hpos : pos + 2 ≤ r.len)
    (hlen : r.len ≤ r.buf.length) :
    ∃ buf, r.setCount pos n = { r with buf } ∧ buf.length = r.buf.length ∧
      buf.take r.len =
        (r.buf.take r.len).take pos ++ n.toBytesBE ++ (r.buf.take r.len).drop (pos + 2) := by
  have hset := List.setRange?_of_le n.toBytesBE
    (show pos + n.toBytesBE.length ≤ r.buf.length by rw [UInt16.length_toBytesBE]; omega)
  refine ⟨_, ?_, List.length_setRange? hset, List.take_setRange?_within hset hpos hlen⟩
  rw [setCount, hset]

/-- The flags in the buffer are the draft's. -/
theorem Shows.flags (h : r.Shows limit size d) : r.flags = d.flags := by
  have hat : d.bytes.HasAt 0 d.bytes := List.prefix_rfl
  have hflags : be16 d.bytes 2 = some d.flags := (hasAt_headerBytes.mp hat).2.1
  rw [be16_eq_some, ← h.bytes] at hflags
  rw [Reply.flags, be16_eq_some.mpr hflags.of_take]
  rfl

/-- Setting the flags changes the flags of the draft. -/
theorem Shows.setFlags (h : r.Shows limit size d) (f : UInt16) :
    (r.setFlags f).Shows limit size { d with flags := f } := by
  have hlen := h.len
  rw [d.length_bytes] at hlen
  -- the flags are the second field of the header
  obtain ⟨buf, hset, hsize, htake⟩ := setCount_eq f (show 2 + 2 ≤ r.len by omega) h.len_le
  rw [Reply.setFlags, hset]
  refine ⟨?_, ?_, h.an, h.ns, h.ar, h.edns, h.limit_eq, hsize.trans h.size_eq, ?_, h.limit_le⟩
  · show buf.take r.len = _
    rw [htake, h.bytes]
    rfl
  · rw [h.len, Draft.length_bytes, Draft.length_bytes]
    rfl
  · have := h.fits
    rw [Draft.length_bytes] at this ⊢
    exact this

/-- Setting the response code changes the response code of the draft. -/
theorem Shows.setRcode (h : r.Shows limit size d) (rcode : Rcode) :
    (r.setRcode rcode).Shows limit size (d.withRcode rcode) := by
  rw [Reply.setRcode, h.flags]
  exact h.setFlags _

/-! ## Records -/

/-- A write that stays in the buffer makes the known part longer by what was written. -/
private theorem write_run {pos : Nat} {xs : List UInt8} (h : pos + xs.length ≤ r.buf.length) :
    ∃ buf, (write pos xs).run r = (.ok (), { r with buf }) ∧ buf.length = r.buf.length ∧
      buf.take (pos + xs.length) = r.buf.take pos ++ xs := by
  have hset := List.setRange?_of_le xs h
  refine ⟨_, ?_, List.length_setRange? hset, List.take_setRange? hset⟩
  rw [write, Method.run_bind_ok _ (Method.run_get r), hset]
  rfl

/-- The number of records of a section. -/
def counter (r : Reply) : Section → UInt16
  | .answer => r.an
  | .authority => r.ns

/-- The record was added to the reply: it stands behind what was there, and the header counts
    one more in its section. Everything else is as it was. -/
structure Adds (r : Reply) (s : Section) (rr : Dns.Record) (r' : Reply) : Prop where
  bytes : r'.buf.take r'.len = (r.buf.take r.len).take s.counterPos ++
    (r.counter s + 1).toBytesBE ++ (r.buf.take r.len).drop (s.counterPos + 2) ++ rr.bytes
  len : r'.len = r.len + rr.bytes.length
  counter : ∀ s', r'.counter s' = if s' = s then r.counter s + 1 else r.counter s'
  ar : r'.ar = r.ar
  edns : r'.edns = r.edns
  limit : r'.limit = r.limit
  size : r'.buf.length = r.buf.length

/-- A record that stands behind what was there is added once it is counted. -/
private theorem addRecord_adds (s : Section) {rr : Dns.Record} {buf : List UInt8}
    (hmin : HEADER_LEN ≤ r.len) (hpos : r.len + rr.bytes.length ≤ r.buf.length)
    (hsize : buf.length = r.buf.length)
    (htake : buf.take (r.len + rr.bytes.length) = r.buf.take r.len ++ rr.bytes) :
    r.Adds s rr (Reply.addRecord s (r.len + rr.bytes.length) { r with buf }) := by
  unfold HEADER_LEN at hmin
  -- the counter is a field of the header, before anything of a record
  have hfield : s.counterPos + 2 ≤ r.len := by
    cases s <;> simp only [Section.counterPos] <;> omega
  have hlen : (r.buf.take r.len).length = r.len := by
    rw [List.length_take]
    omega
  have hbytes : ∀ n : UInt16, (buf.take (r.len + rr.bytes.length)).take s.counterPos ++
      n.toBytesBE ++ (buf.take (r.len + rr.bytes.length)).drop (s.counterPos + 2) =
        (r.buf.take r.len).take s.counterPos ++ n.toBytesBE ++
          (r.buf.take r.len).drop (s.counterPos + 2) ++ rr.bytes := by
    intro n
    rw [htake, List.take_append_of_le_length (by omega), List.drop_append_of_le_length (by omega),
      List.append_assoc _ (List.drop _ _)]
  -- the answer section counts at byte 6 and the authority section at byte 8
  cases s with
  | answer =>
    obtain ⟨buf', hset, hsize', htake'⟩ := @setCount_eq
      { r with buf, len := r.len + rr.bytes.length, an := r.an + 1 } 6 (r.an + 1)
      (show 6 + 2 ≤ r.len + rr.bytes.length by omega)
      (show r.len + rr.bytes.length ≤ buf.length by omega)
    simp only [Reply.addRecord]
    rw [hset]
    refine ⟨htake'.trans (hbytes _), rfl, fun s' => ?_, rfl, rfl, rfl, hsize'.trans hsize⟩
    cases s' <;> rfl
  | authority =>
    obtain ⟨buf', hset, hsize', htake'⟩ := @setCount_eq
      { r with buf, len := r.len + rr.bytes.length, ns := r.ns + 1 } 8 (r.ns + 1)
      (show 8 + 2 ≤ r.len + rr.bytes.length by omega)
      (show r.len + rr.bytes.length ≤ buf.length by omega)
    simp only [Reply.addRecord]
    rw [hset]
    refine ⟨htake'.trans (hbytes _), rfl, fun s' => ?_, rfl, rfl, rfl, hsize'.trans hsize⟩
    cases s' <;> rfl

/-- A record that was added and lies within the limit is part of the draft. -/
theorem Shows.adds (h : r.Shows limit size d) {s : Section} {rr : Dns.Record} {r' : Reply}
    (hadds : r.Adds s rr r') (hroom : rr.bytes.length ≤ d.room limit) :
    r'.Shows limit size (d.add s rr) := by
  -- the reserve for the EDNS record is left free
  have hfits : (d.add s rr).bytes.length + reserve d.edns ≤ limit := by
    have hold := h.fits
    rw [Draft.length_bytes_add]
    unfold Draft.room at hroom
    omega
  have hlen : r'.len = (d.add s rr).bytes.length := by
    rw [hadds.len, Draft.length_bytes_add, h.len]
  -- the counters of the reply are the numbers of records of the draft
  have hcounter : ∀ s', r'.counter s' = UInt16.ofNat ((d.add s rr).count s') := by
    intro s'
    have hold : ∀ s', r.counter s' = UInt16.ofNat (d.count s') := by
      intro s'
      cases s' with
      | answer => exact h.an
      | authority => exact h.ns
    rw [hadds.counter, Draft.count_add]
    by_cases hs : s' = s
    · rw [if_pos hs, if_pos hs.symm, UInt16.ofNat_add, hold, hs]
      rfl
    · rw [if_neg hs, if_neg fun h' => hs h'.symm, Nat.add_zero, hold]
  refine ⟨?_, hlen, hcounter .answer, hcounter .authority, hadds.ar.trans h.ar,
    hadds.edns.trans h.edns, hadds.limit.trans h.limit_eq, hadds.size.trans h.size_eq, hfits,
    h.limit_le⟩
  -- the two counters are part of the header, the record is at the end of its section
  have han := hcounter .answer
  have hns := hcounter .authority
  rw [hadds.counter] at han hns
  rw [hadds.bytes, h.bytes, Draft.bytes, Draft.bytes, ← han, ← hns, Draft.body_add]
  -- a record of the answer section comes before nothing else
  cases s with
  | answer =>
    rw [if_pos rfl, if_neg (by decide), show r.counter .authority = r.ns from rfl, h.ns]
    simp only [List.append_assoc]
    rfl
  | authority =>
    rw [if_pos rfl, if_neg (by decide), show r.counter .answer = r.an from rfl, h.an]
    simp only [List.append_assoc]
    rfl

/-! ## The writers -/

/-- A record for the name of the question. -/
def answerRecord (type : UInt16) (ttl : UInt32) (rdata : List UInt8) : Dns.Record :=
  ⟨QNAME_PTR, type, CLASS_IN, ttl, rdata⟩

/-- A record under the name of the question has twelve bytes before its data. -/
theorem length_answerRecord (type : UInt16) (ttl : UInt32) (rdata : List UInt8) :
    (answerRecord type ttl rdata).bytes.length = 12 + rdata.length := by
  rw [Dns.Record.length_bytes]
  rfl

/-- The head of a record there is room for is written behind what was there. -/
private theorem rrHead_ok (hlimit : r.limit ≤ r.buf.length) (type : UInt16) (ttl : UInt32)
    {rdlen : Nat} (hroom : 12 + rdlen ≤ r.room) (hdata : rdlen < 65536) :
    ∃ buf, (rrHead type ttl rdlen).run r = (.ok (r.len + 12), { r with buf }) ∧
      buf.length = r.buf.length ∧
      buf.take (r.len + 12) = r.buf.take r.len ++ (QNAME_PTR ++ (type.toBytesBE ++
        (CLASS_IN.toBytesBE ++ (ttl.toBytesBE ++ (UInt16.ofNat rdlen).toBytesBE)))) := by
  -- room in the reply is room in the buffer
  have hbuf : r.len + 12 ≤ r.buf.length := by
    unfold Reply.room at hroom
    omega
  -- two writes, one for the fixed fields and one for the length of the data
  obtain ⟨buf₁, hrun₁, hsize₁, htake₁⟩ := @write_run r r.len
    (QNAME_PTR ++ type.toBytesBE ++ CLASS_IN.toBytesBE ++ ttl.toBytesBE)
    (show r.len + 10 ≤ r.buf.length by omega)
  obtain ⟨buf₂, hrun₂, hsize₂, htake₂⟩ := @write_run { r with buf := buf₁ } (r.len + 10)
    (UInt16.ofNat rdlen).toBytesBE (show r.len + 10 + 2 ≤ buf₁.length by omega)
  refine ⟨buf₂, ?_, hsize₂.trans hsize₁, ?_⟩
  · rw [rrHead, Method.run_bind_ok _ (Method.run_get r), if_neg (by omega),
      if_neg (by omega), Method.run_bind_ok _ hrun₁, u16TryFrom, if_pos hdata,
      Method.run_bind_ok _ (Method.run_okOr_some _ _ _), Method.run_bind_ok _ hrun₂]
    rfl
  · show buf₂.take (r.len + 10 + 2) = _
    rw [UInt16.length_toBytesBE] at htake₂
    rw [htake₂]
    show buf₁.take (r.len + 10) ++ _ = _
    have htake₁ : buf₁.take (r.len + 10) = _ := htake₁
    rw [htake₁]
    simp only [List.append_assoc]

/-- The head of a record there is no room for is refused. -/
private theorem rrHead_full (type : UInt16) (ttl : UInt32) {rdlen : Nat}
    (hroom : r.room < 12 + rdlen) : (rrHead type ttl rdlen).run r = (.error .noRoom, r) := by
  rw [rrHead, Method.run_bind_ok _ (Method.run_get r), if_pos hroom]
  rfl

/-- A record for the name of the question is added when there is room for it. -/
private theorem rrHead_write_ok (hmin : HEADER_LEN ≤ r.len) (hlimit : r.limit ≤ r.buf.length)
    (type : UInt16) (ttl : UInt32) {rdata : List UInt8} (hroom : 12 + rdata.length ≤ r.room)
    (hdata : rdata.length < 65536) :
    ∃ r', (rrHead type ttl rdata.length >>= fun pos => write pos rdata >>= fun _ =>
        Method.modify (Reply.addRecord .answer (pos + rdata.length))).run r = (.ok (), r') ∧
      r.Adds .answer (answerRecord type ttl rdata) r' := by
  obtain ⟨buf₁, hrun₁, hsize₁, htake₁⟩ := rrHead_ok hlimit type ttl hroom hdata
  have hlen := length_answerRecord type ttl rdata
  have hbuf : r.len + (answerRecord type ttl rdata).bytes.length ≤ r.buf.length := by
    unfold Reply.room at hroom
    omega
  -- the data goes behind the head
  obtain ⟨buf₂, hrun₂, hsize₂, htake₂⟩ := @write_run { r with buf := buf₁ } (r.len + 12) rdata
    (show r.len + 12 + rdata.length ≤ buf₁.length by omega)
  -- the head and the data together are the record
  have hadds := @addRecord_adds r .answer (answerRecord type ttl rdata) buf₂ hmin hbuf
    (hsize₂.trans hsize₁) (by
      rw [hlen, ← Nat.add_assoc, htake₂]
      show buf₁.take (r.len + 12) ++ rdata = _
      rw [htake₁]
      simp only [Dns.Record.bytes, answerRecord, List.append_assoc])
  rw [hlen, ← Nat.add_assoc] at hadds
  refine ⟨_, ?_, hadds⟩
  rw [Method.run_bind_ok _ hrun₁, Method.run_bind_ok _ hrun₂]
  rfl

/-- An A record. -/
def aRecord (ip : Ipv4Addr) (ttl : UInt32) : Dns.Record := answerRecord rtype.A ttl ip.octets

/-- An address is added when there is room for it. -/
theorem answerA_adds (hmin : HEADER_LEN ≤ r.len) (hlimit : r.limit ≤ r.buf.length) (ip : Ipv4Addr)
    (ttl : UInt32) (hroom : 16 ≤ r.room) :
    ∃ r', (answerA ip ttl).run r = (.ok (), r') ∧ r.Adds .answer (aRecord ip ttl) r' :=
  @rrHead_write_ok r hmin hlimit rtype.A ttl ip.octets hroom (show 4 < 65536 by decide)

/-- Without room the reply is left as it was. -/
theorem answerA_noRoom (ip : Ipv4Addr) (ttl : UInt32) (hroom : r.room < 16) :
    (answerA ip ttl).run r = (.error .noRoom, r) :=
  Method.run_bind_error _ (rrHead_full rtype.A ttl hroom)

/-- An address that fits is added. -/
theorem answerA_ok (h : r.Shows limit size d) (ip : Ipv4Addr) (ttl : UInt32)
    (hroom : 16 ≤ d.room limit) :
    ∃ r', (answerA ip ttl).run r = (.ok (), r') ∧
      r'.Shows limit size (d.add .answer (aRecord ip ttl)) := by
  obtain ⟨r', hrun, hadds⟩ := answerA_adds h.header_le h.limit_le_buf ip ttl (h.room ▸ hroom)
  exact ⟨r', hrun, h.adds hadds hroom⟩

/-- An address that does not fit changes nothing. -/
theorem answerA_full (h : r.Shows limit size d) (ip : Ipv4Addr) (ttl : UInt32)
    (hroom : d.room limit < 16) : (answerA ip ttl).run r = (.error .noRoom, r) :=
  answerA_noRoom ip ttl (h.room ▸ hroom)

/-- A CNAME record. -/
def cnameRecord (target : Dns.Name) (ttl : UInt32) : Dns.Record :=
  answerRecord rtype.CNAME ttl target.wire

/-- A name that starts a scratch buffer is read back from it. -/
private theorem scratch_name {name : Str} {n : Dns.Name} {k : Nat} (hn : encodeName name = some n)
    (hk : n.wire.length ≤ k) :
    ∃ tmp, (putName 0 name).run (List.replicate k 0) = (.ok n.wire.length, tmp) ∧
      tmp.length = k ∧ tmp.take n.wire.length = n.wire := by
  have hset := @List.setRange?_of_le UInt8 (List.replicate k 0) 0 n.wire (by simpa using hk)
  refine ⟨_, putName_run_ok.mpr ⟨n, hn, (Nat.zero_add _).symm, hset⟩, ?_, ?_⟩
  · rw [List.length_setRange? hset, List.length_replicate]
  · simp

/-- A target that is a name is added when there is room for it. -/
theorem answerCname_adds (hmin : HEADER_LEN ≤ r.len) (hlimit : r.limit ≤ r.buf.length)
    {target : Str} (ttl : UInt32) {n : Dns.Name} (hn : encodeName target = some n)
    (hroom : 12 + n.wire.length ≤ r.room) :
    ∃ r', (answerCname target ttl).run r = (.ok (), r') ∧
      r.Adds .answer (cnameRecord n ttl) r' := by
  have hlen := n.length_wire_le
  -- the target is written in a scratch buffer first, and its bytes are taken from there
  obtain ⟨tmp, hrun, hsize, htake⟩ := scratch_name hn (show n.wire.length ≤ NAME_MAX + 1 by
    unfold NAME_MAX; omega)
  have hrange : tmp.getRange? 0 n.wire.length = some n.wire := by
    rw [List.getRange?_of_le (Nat.zero_le _) (by rw [hsize]; unfold NAME_MAX; omega), htake]
    rfl
  obtain ⟨r', hrun', hadds⟩ := rrHead_write_ok hmin hlimit rtype.CNAME ttl hroom (by omega)
  refine ⟨r', ?_, hadds⟩
  rw [answerCname, Method.run_bind_ok _ (Method.run_scratch_ok r hrun)]
  simp only [hrange]
  exact hrun'

/-- A target that is no name, or that there is no room for, leaves the reply as it was. -/
theorem answerCname_fails {target : Str} (ttl : UInt32)
    (hnone : ∀ n, encodeName target = some n → r.room < 12 + n.wire.length) :
    ∃ e, (answerCname target ttl).run r = (.error e, r) := by
  -- a target that is no name fails in the scratch buffer, and one too long for the reply in the
  -- head
  cases hn : encodeName target with
  | none =>
    rcases hrun : (putName 0 target).run (List.replicate (NAME_MAX + 1) 0) with ⟨e | n, tmp⟩
    · exact ⟨e, Method.run_bind_error _ (Method.run_scratch_error r hrun)⟩
    · obtain ⟨n', hn', -⟩ := putName_run_ok.mp hrun
      rw [hn] at hn'
      exact nomatch hn'
  | some n =>
    obtain ⟨tmp, hrun, -, -⟩ := scratch_name hn (show n.wire.length ≤ NAME_MAX + 1 by
      have := n.length_wire_le
      unfold NAME_MAX
      omega)
    refine ⟨.noRoom, ?_⟩
    rw [answerCname, Method.run_bind_ok _ (Method.run_scratch_ok r hrun)]
    exact Method.run_bind_error _ (rrHead_full rtype.CNAME ttl (hnone n hn))

/-- A target that is a name and fits is added. -/
theorem answerCname_ok (h : r.Shows limit size d) {target : Str} (ttl : UInt32) {n : Dns.Name}
    (hn : encodeName target = some n) (hroom : 12 + n.wire.length ≤ d.room limit) :
    ∃ r', (answerCname target ttl).run r = (.ok (), r') ∧
      r'.Shows limit size (d.add .answer (cnameRecord n ttl)) := by
  obtain ⟨r', hrun, hadds⟩ := answerCname_adds h.header_le h.limit_le_buf ttl hn (h.room ▸ hroom)
  have hlen : (cnameRecord n ttl).bytes.length = 12 + n.wire.length :=
    length_answerRecord rtype.CNAME ttl n.wire
  exact ⟨r', hrun, h.adds hadds (hlen ▸ hroom)⟩

/-- A target that is no name, or does not fit, changes nothing. -/
theorem answerCname_none (h : r.Shows limit size d) {target : Str} (ttl : UInt32)
    (hnone : ∀ n, encodeName target = some n → d.room limit < 12 + n.wire.length) :
    ∃ e, (answerCname target ttl).run r = (.error e, r) :=
  answerCname_fails ttl (h.room ▸ hnone)

/-! ## The SOA record -/

/-- The data of the SOA record of a zone: the server, the mailbox, and five numbers. -/
def soaData (zone : Dns.Name) (ttl : UInt32) : List UInt8 :=
  Dns.labelBytes (str "ns") ++ zone.wire ++ (Dns.labelBytes (str "hostmaster") ++ zone.wire) ++
    [1, ttl, ttl, ttl, ttl].flatMap UInt32.toBytesBE

/-- The SOA record of a zone. -/
def soaRecord (zone : Dns.Name) (ttl : UInt32) : Dns.Record :=
  ⟨zone.wire, rtype.SOA, CLASS_IN, ttl, soaData zone ttl⟩

/-- The data of an SOA record name the zone twice. -/
theorem length_soaData (zone : Dns.Name) (ttl : UInt32) :
    (soaData zone ttl).length = 2 * zone.wire.length + 34 := by
  simp only [soaData, List.length_append, Dns.length_labelBytes, List.length_flatMap,
    UInt32.length_toBytesBE]
  show 2 + 1 + zone.wire.length + (10 + 1 + zone.wire.length) + 20 = _
  omega

/-- An SOA record names its zone three times. -/
theorem length_soaRecord (zone : Dns.Name) (ttl : UInt32) :
    (soaRecord zone ttl).bytes.length = 3 * zone.wire.length + 44 := by
  rw [Dns.Record.length_bytes]
  show zone.wire.length + 10 + (soaData zone ttl).length = _
  rw [length_soaData]
  omega

/-- The numbers are written one after the other. -/
private theorem putWords_run_ok {v : UInt32} {vs : List UInt32} {pos e : Nat}
    {out out' : List UInt8} : (putWords pos (v :: vs)).run out = (.ok e, out') ↔
      e = pos + 4 * (vs.length + 1) ∧
        out.setRange? pos ((v :: vs).flatMap UInt32.toBytesBE) = some out' := by
  -- the induction is on the words behind the first, which is written before them
  induction vs generalizing v pos out with
  | nil =>
    simp only [putWords, putSlice_bind_run_ok, Method.run_pure, Prod.mk.injEq, Except.ok.injEq,
      List.flatMap_cons, List.flatMap_nil, List.append_nil, List.length_nil]
    constructor
    · intro h
      obtain ⟨o, ho, rfl, rfl⟩ := h
      exact ⟨rfl, ho⟩
    · intro h
      obtain ⟨rfl, ho⟩ := h
      exact ⟨out', ho, rfl, rfl⟩
  | cons v' vs ih =>
    rw [putWords, putSlice_bind_run_ok, List.flatMap_cons, List.setRange?_append,
      Option.bind_eq_some_iff, UInt32.length_toBytesBE]
    simp only [ih, List.length_cons]
    constructor
    · intro h
      obtain ⟨o, ho, rfl, hrest⟩ := h
      exact ⟨by omega, o, ho, hrest⟩
    · intro h
      obtain ⟨rfl, o, ho, hrest⟩ := h
      exact ⟨o, ho, by omega, hrest⟩

/-- A label and a zone are written when the zone is a name and there is room. -/
private theorem putSoaName_run_ok {label zone : Str} {pos e : Nat} {out out' : List UInt8}
    (hlabel : (stripDot label).length < 256) : (putSoaName pos label zone).run out = (.ok e, out') ↔
      ∃ n, encodeName zone = some n ∧ e = pos + 1 + (stripDot label).length + n.wire.length ∧
        out.setRange? pos (Dns.labelBytes (stripDot label) ++ n.wire) = some out' := by
  rw [putSoaName, Method.run_bind_ok _ (Method.run_get out)]
  -- the check for room is made for the label alone, the writes check the rest
  by_cases hroom : pos + (1 + (stripDot label).length) > out.length
  -- without room for the label there is none for the whole name
  · rw [if_pos hroom]
    simp only [Method.run_throw, reduceCtorEq, Prod.mk.injEq, false_and, false_iff]
    intro h
    obtain ⟨n, -, -, ho⟩ := h
    have := (List.setRange?_eq_some ho).1
    rw [List.length_append, Dns.length_labelBytes] at this
    omega
  · rw [if_neg hroom, u8TryFrom, if_pos hlabel, Method.run_bind_ok _ (Method.run_okOr_some _ _ _),
      ← Dns.labelBytes, putSlice_bind_run_ok]
    simp only [putName_run_ok, List.setRange?_append, Option.bind_eq_some_iff,
      Dns.length_labelBytes]
    constructor
    · intro h
      obtain ⟨o, ho, n, hn, rfl, hrest⟩ := h
      exact ⟨n, hn, rfl, o, ho, by rwa [Nat.add_right_comm, Nat.add_assoc] at hrest⟩
    · intro h
      obtain ⟨n, hn, rfl, o, ho, hrest⟩ := h
      exact ⟨o, ho, n, hn, rfl, by rwa [Nat.add_right_comm, Nat.add_assoc]⟩

/-- The longest zone whose SOA record the scratch buffer holds. -/
def SOA_ZONE_MAX : Nat := 248

/-- The zone `authority_soa` writes the record of, if it writes one. -/
def encodeZone (zone : Str) : Option Dns.Name :=
  (encodeName zone).filter fun n => n.wire.length ≤ SOA_ZONE_MAX

/-- A zone has a name on the wire that leaves room for the names of its SOA. -/
theorem encodeZone_eq_some {zone : Str} {n : Dns.Name} :
    encodeZone zone = some n ↔ encodeName zone = some n ∧ n.wire.length ≤ SOA_ZONE_MAX := by
  simp only [encodeZone, Option.filter_eq_some_iff, decide_eq_true_eq]

/-- The scratch buffer with the record of a zone it holds. -/
theorem putSoa_ok {zone : Str} {n : Dns.Name} (ttl : UInt32) (hn : encodeZone zone = some n) :
    ∃ tmp, (putSoa zone ttl).run (List.replicate (3 * (NAME_MAX + 1) + 20) 0) =
        (.ok (3 * n.wire.length + 44), tmp) ∧
      tmp.getRange? 0 (3 * n.wire.length + 44) = some (soaRecord n ttl).bytes := by
  -- the zone is short enough for the record to fit the scratch buffer
  obtain ⟨hn, hmax⟩ := encodeZone_eq_some.mp hn
  unfold SOA_ZONE_MAX at hmax
  obtain ⟨tmp₁, hrun₁, hsize₁, htake₁⟩ := scratch_name hn
    (show n.wire.length ≤ 3 * (NAME_MAX + 1) + 20 by unfold NAME_MAX; omega)
  have hsize₁ : tmp₁.length = 788 := hsize₁
  -- the three parts of the data, one write after the other
  have hdata := length_soaData n ttl
  have hset := List.setRange?_of_le (soaData n ttl)
    (show n.wire.length + 10 + (soaData n ttl).length ≤ tmp₁.length by omega)
  generalize htmp₄ : tmp₁.take (n.wire.length + 10) ++ soaData n ttl ++
    tmp₁.drop (n.wire.length + 10 + (soaData n ttl).length) = tmp₄ at hset
  have hset' := hset
  rw [soaData, List.setRange?_append, Option.bind_eq_some_iff] at hset'
  obtain ⟨tmp₃, hset', hwords⟩ := hset'
  rw [List.setRange?_append, Option.bind_eq_some_iff] at hset'
  obtain ⟨tmp₂, hmname, hrname⟩ := hset'
  -- the lengths of the two names in the data
  have hns : (Dns.labelBytes (str "ns") ++ n.wire).length = 3 + n.wire.length :=
    List.length_append
  have hhost : (Dns.labelBytes (str "hostmaster") ++ n.wire).length = 11 + n.wire.length :=
    List.length_append
  rw [hns] at hrname
  rw [List.length_append, hns, hhost] at hwords
  have hrun₂ : (putSoaName (n.wire.length + 10) (str "ns.") zone).run tmp₁ =
      (.ok (n.wire.length + 10 + (3 + n.wire.length)), tmp₂) :=
    (putSoaName_run_ok (by decide)).mpr ⟨n, hn, by rw [← Nat.add_assoc]; rfl, hmname⟩
  have hrun₃ : (putSoaName (n.wire.length + 10 + (3 + n.wire.length)) (str "hostmaster.") zone).run
      tmp₂ = (.ok (n.wire.length + 10 + (3 + n.wire.length + (11 + n.wire.length))), tmp₃) :=
    (putSoaName_run_ok (by decide)).mpr
      ⟨n, hn, by rw [← Nat.add_assoc, ← Nat.add_assoc _ 11]; rfl, hrname⟩
  have hrun₄ : (putWords (n.wire.length + 10 + (3 + n.wire.length + (11 + n.wire.length)))
      [1, ttl, ttl, ttl, ttl]).run tmp₃ = (.ok (3 * n.wire.length + 44), tmp₄) :=
    putWords_run_ok.mpr ⟨by simp only [List.length_cons, List.length_nil]; omega, hwords⟩
  have hsize₄ : tmp₄.length = 788 := (List.length_setRange? hset).trans hsize₁
  -- the head goes into the gap last
  have hhead := List.setRange?_of_le (rtype.SOA.toBytesBE ++ CLASS_IN.toBytesBE ++ ttl.toBytesBE ++
      (UInt16.ofNat (2 * n.wire.length + 34)).toBytesBE)
    (show n.wire.length + 10 ≤ tmp₄.length by omega)
  generalize htmp₅ : tmp₄.take _ ++ _ ++ tmp₄.drop _ = tmp₅ at hhead
  have hsize₅ : tmp₅.length = 788 := (List.length_setRange? hhead).trans hsize₄
  refine ⟨tmp₅, ?_, ?_⟩
  · rw [putSoa, Method.run_bind_ok _ hrun₁]
    simp only
    rw [Method.run_bind_ok _ hrun₂, Method.run_bind_ok _ hrun₃, Method.run_bind_ok _ hrun₄,
      show 3 * n.wire.length + 44 - (n.wire.length + 10) = 2 * n.wire.length + 34 by omega,
      u16TryFrom, if_pos (by omega), Method.run_bind_ok _ (Method.run_okOr_some _ _ _),
      Method.run_bind_ok _ (putSlice_run_ok.mpr hhead)]
    rfl
  · have htake := List.take_setRange?_within hhead
      (show n.wire.length + 10 ≤ 3 * n.wire.length + 44 by omega) (by omega)
    have hdata₄ := List.take_setRange? hset
    rw [hdata, show n.wire.length + 10 + (2 * n.wire.length + 34) = 3 * n.wire.length + 44 by omega]
      at hdata₄
    have hlen : (tmp₁.take (n.wire.length + 10)).length = n.wire.length + 10 := by
      rw [List.length_take]
      omega
    rw [hdata₄, List.take_append_of_le_length (by omega), List.take_take,
      Nat.min_eq_left (by omega), htake₁] at htake
    have hdrop : (tmp₁.take (n.wire.length + 10) ++ soaData n ttl).drop (n.wire.length + 10) =
        soaData n ttl := List.drop_left' hlen
    have htake : tmp₅.take (3 * n.wire.length + 44) = n.wire ++ _ ++
        (tmp₁.take (n.wire.length + 10) ++ soaData n ttl).drop (n.wire.length + 10) := htake
    rw [List.getRange?_of_le (Nat.zero_le _) (by omega), htake, hdrop, List.drop_zero]
    simp only [soaRecord, Dns.Record.bytes, hdata, List.append_assoc]

/-- A record the scratch buffer holds is one of a zone that fits it. -/
theorem encodeZone_of_putSoa {zone : Str} {ttl : UInt32} {e : Nat} {tmp : List UInt8}
    (h : (putSoa zone ttl).run (List.replicate (3 * (NAME_MAX + 1) + 20) 0) = (.ok e, tmp)) :
    ∃ n, encodeZone zone = some n := by
  rw [putSoa] at h
  obtain ⟨_, tmp₁, h₁, h⟩ := Method.run_bind_eq_ok.mp h
  obtain ⟨_, tmp₂, h₂, h⟩ := Method.run_bind_eq_ok.mp h
  obtain ⟨_, tmp₃, h₃, h⟩ := Method.run_bind_eq_ok.mp h
  obtain ⟨_, tmp₄, h₄, -⟩ := Method.run_bind_eq_ok.mp h
  -- the zone was written three times, and it is one name each time
  obtain ⟨n, hn, rfl, hset₁⟩ := putName_run_ok.mp h₁
  obtain ⟨n₂, hn₂, rfl, hset₂⟩ := (putSoaName_run_ok (by decide)).mp h₂
  obtain ⟨n₃, hn₃, rfl, hset₃⟩ := (putSoaName_run_ok (by decide)).mp h₃
  obtain rfl := Option.some.inj (hn.symm.trans hn₂)
  obtain rfl := Option.some.inj (hn.symm.trans hn₃)
  obtain ⟨-, hset₄⟩ := putWords_run_ok.mp h₄
  refine ⟨n, encodeZone_eq_some.mpr ⟨hn, ?_⟩⟩
  -- the numbers end where the scratch buffer ends, at the latest
  have hle := (List.setRange?_eq_some hset₄).1
  have hns : (stripDot (str "ns.")).length = 2 := by decide
  have hhost : (stripDot (str "hostmaster.")).length = 10 := by decide
  have hwords : ([1, ttl, ttl, ttl, ttl].flatMap UInt32.toBytesBE).length = 20 := rfl
  rw [List.length_setRange? hset₃, List.length_setRange? hset₂, List.length_setRange? hset₁,
    List.length_replicate, hns, hhost, hwords] at hle
  unfold NAME_MAX at hle
  unfold SOA_ZONE_MAX
  omega

/-- A zone whose record fits the scratch buffer is added when there is room for the record. -/
theorem authoritySoa_adds (hmin : HEADER_LEN ≤ r.len) {zone : Str} (ttl : UInt32) {n : Dns.Name}
    (hn : encodeZone zone = some n) (hroom : 3 * n.wire.length + 44 ≤ r.room)
    (hbuf : r.len + (3 * n.wire.length + 44) ≤ r.buf.length) :
    ∃ r', (authoritySoa zone ttl).run r = (.ok (), r') ∧
      r.Adds .authority (soaRecord n ttl) r' := by
  -- the record is built in a scratch buffer, whole, before the reply is looked at
  obtain ⟨tmp, hrun, hrange⟩ := putSoa_ok ttl hn
  have hlen := length_soaRecord n ttl
  obtain ⟨buf, hwrite, hsize, htake⟩ := @write_run r r.len (soaRecord n ttl).bytes (hlen ▸ hbuf)
  have hadds := addRecord_adds .authority hmin (hlen ▸ hbuf) hsize htake
  rw [hlen] at hadds
  refine ⟨_, ?_, hadds⟩
  rw [authoritySoa, Method.run_bind_ok _ (Method.run_scratch_ok r hrun)]
  simp only
  rw [Method.run_bind_ok _ (Method.run_get r), if_neg (by omega), hrange,
    Method.run_bind_ok _ (Method.run_okOr_some _ _ _), Method.run_bind_ok _ hwrite]
  rfl

/-- A zone that is no name, or whose record there is no room for, leaves the reply as it was. -/
theorem authoritySoa_fails {zone : Str} (ttl : UInt32)
    (hnone : ∀ n, encodeZone zone = some n → r.room < 3 * n.wire.length + 44) :
    ∃ e, (authoritySoa zone ttl).run r = (.error e, r) := by
  -- the zone fails in the scratch buffer, or the record is too long for what is left
  rcases hrun : (putSoa zone ttl).run (List.replicate (3 * (NAME_MAX + 1) + 20) 0) with
    ⟨e | n, tmp⟩
  · exact ⟨e, Method.run_bind_error _ (Method.run_scratch_error r hrun)⟩
  · obtain ⟨n', hn⟩ := encodeZone_of_putSoa hrun
    obtain ⟨tmp', hrun', -⟩ := putSoa_ok ttl hn
    obtain ⟨h₁, rfl⟩ := Prod.mk.inj (hrun.symm.trans hrun')
    obtain rfl := Except.ok.inj h₁
    refine ⟨.noRoom, ?_⟩
    rw [authoritySoa, Method.run_bind_ok _ (Method.run_scratch_ok r hrun)]
    simp only
    rw [Method.run_bind_ok _ (Method.run_get r), if_pos (hnone n' hn)]
    rfl

/-- A zone whose record fits, here and in the scratch buffer, is added. -/
theorem authoritySoa_ok (h : r.Shows limit size d) {zone : Str} (ttl : UInt32) {n : Dns.Name}
    (hn : encodeZone zone = some n) (hroom : 3 * n.wire.length + 44 ≤ d.room limit) :
    ∃ r', (authoritySoa zone ttl).run r = (.ok (), r') ∧
      r'.Shows limit size (d.add .authority (soaRecord n ttl)) := by
  have hbuf : r.len + (3 * n.wire.length + 44) ≤ r.buf.length := by
    have := h.limit_le
    rw [h.len, h.size_eq]
    unfold Draft.room at hroom
    omega
  obtain ⟨r', hrun, hadds⟩ := authoritySoa_adds h.header_le ttl hn (h.room ▸ hroom) hbuf
  exact ⟨r', hrun, h.adds hadds ((length_soaRecord n ttl).symm ▸ hroom)⟩

/-- A zone that is no name, or whose record does not fit, changes nothing. -/
theorem authoritySoa_none (h : r.Shows limit size d) {zone : Str} (ttl : UInt32)
    (hnone : ∀ n, encodeZone zone = some n → d.room limit < 3 * n.wire.length + 44) :
    ∃ e, (authoritySoa zone ttl).run r = (.error e, r) :=
  authoritySoa_fails ttl (h.room ▸ hnone)

/-! ## The start and the end -/

/-- The flags of every reply: QR and AA, what is copied of the question's, and the code. -/
def replyFlags (flags : UInt16) (rcode : Rcode) : UInt16 :=
  QR ||| AA ||| (flags &&& (0x7800 ||| RD ||| CD)) ||| rcode.toUInt16

/-- The draft of a bare reply. -/
def bareDraft (id flags : UInt16) (rcode : Rcode) : Draft :=
  { id, flags := replyFlags flags rcode, question := none, records := [], edns := none }

/-- The code of the reply is the one that was set. -/
theorem rcode_replyFlags (flags : UInt16) (rcode : Rcode) :
    replyFlags flags rcode &&& 0x000F = rcode.toUInt16 := by
  rw [replyFlags, UInt16.or_and_distrib, UInt16.or_and_distrib, UInt16.and_assoc,
    show (0x7800 ||| RD ||| CD) &&& 0x000F = 0 by decide, UInt16.and_zero, UInt16.or_zero,
    show (QR ||| AA) &&& 0x000F = 0 by decide, UInt16.zero_or]
  cases rcode <;> decide

/-- A bare head is a header without records. -/
theorem bareHead_eq (id flags : UInt16) (rcode : Rcode) :
    bareHead id flags rcode = Dns.headerBytes id (replyFlags flags rcode) 0 0 0 0 := by
  have hzero : (0 : UInt16).toBytesBE = [0, 0] := by decide
  simp only [bareHead, Dns.headerBytes, replyFlags, List.append_assoc, hzero]
  rfl

/-- A draft without a question is its head. -/
theorem bytes_bareDraft (id flags : UInt16) (rcode : Rcode) :
    (bareDraft id flags rcode).bytes = bareHead id flags rcode := by
  rw [bareHead_eq]
  exact List.append_nil _

/-- The draft a reply to a question starts from. -/
def startDraft (q : Query) (n : Dns.Name) : Draft :=
  { id := q.id, flags := replyFlags q.flags .noError, question := some ⟨n.wire, q.qtype, q.qclass⟩,
    records := [], edns := q.edns }

/-- A draft starts with its header and the question. -/
theorem length_startDraft (q : Query) (n : Dns.Name) :
    (startDraft q n).bytes.length = 12 + (n.wire.length + 4) := by
  rw [Draft.length_bytes]
  simp only [Draft.body, startDraft, Option.toList_some, List.flatMap_cons, List.flatMap_nil,
    List.append_nil, Dns.Question.length_bytes]

/-- A buffer that holds a header takes a bare reply. -/
theorem bare_ok (id flags : UInt16) (rcode : Rcode) (limit : Nat) {out : List UInt8}
    (h : HEADER_LEN ≤ min limit out.length) :
    ∃ r, (bare id flags rcode limit).run out = (.ok r, r.buf) ∧ r.len = HEADER_LEN ∧
      r.Shows (min limit out.length) out.length (bareDraft id flags rcode) := by
  unfold HEADER_LEN at h
  -- the header is one write at the start of the buffer
  have hset := List.setRange?_of_le (bareHead id flags rcode)
    (show 0 + 12 ≤ out.length by omega)
  generalize hbuf : out.take 0 ++ bareHead id flags rcode ++ out.drop _ = buf at hset
  refine ⟨⟨buf, HEADER_LEN, min limit out.length, 0, 0, 0, none⟩, ?_, rfl, ?_⟩
  · rw [bare, Method.run_bind_ok _ (Method.run_get out), if_neg (by unfold HEADER_LEN; omega),
      Method.run_bind_ok _ (putSlice_run_ok.mpr hset)]
    rfl
  -- nothing is counted yet, and the twelve bytes are the draft's
  · refine ⟨?_, rfl, rfl, rfl, rfl, rfl, rfl, List.length_setRange? hset, h, Nat.min_le_right _ _⟩
    have htake : buf.take (bareHead id flags rcode).length = bareHead id flags rcode := by
      simpa using List.take_setRange? hset
    rw [bytes_bareDraft]
    exact htake

/-- A buffer that holds no header is left as it was. -/
theorem bare_none (id flags : UInt16) (rcode : Rcode) (limit : Nat) {out : List UInt8}
    (h : min limit out.length < HEADER_LEN) :
    (bare id flags rcode limit).run out = (.error .noRoom, out) := by
  rw [bare, Method.run_bind_ok _ (Method.run_get out), if_pos h]
  rfl

/-- A buffer that holds the question, and the OPT record if there is to be one, takes the
    start of a reply. -/
theorem start_ok {q : Query} {n : Dns.Name} (hq : q.question = questionBytes n q.qtype q.qclass)
    (limit : Nat) {out : List UInt8}
    (h : HEADER_LEN + q.question.length + reserve q.edns ≤ min limit out.length) :
    ∃ r buf, (start q limit).run out = (.ok r, buf) ∧
      r.Shows (min limit out.length) out.length (startDraft q n) := by
  have hmin : min (min limit out.length) out.length = min limit out.length :=
    Nat.min_eq_left (Nat.min_le_right _ _)
  have hlen : q.question.length = n.wire.length + 4 := by rw [hq, length_questionBytes]
  unfold HEADER_LEN at h
  -- a header first, as for a reply without a question
  obtain ⟨r₀, hrun₀, hlen₀, hshow₀⟩ := @bare_ok q.id q.flags .noError (min limit out.length) out
    (by rw [hmin]; unfold HEADER_LEN; omega)
  rw [hmin] at hshow₀
  -- the question goes behind it
  have hset := List.setRange?_of_le q.question
    (show HEADER_LEN + q.question.length ≤ r₀.buf.length by
      rw [hshow₀.size_eq]; unfold HEADER_LEN; omega)
  generalize hbuf₁ : r₀.buf.take HEADER_LEN ++ q.question ++ r₀.buf.drop _ = buf₁ at hset
  have htake := List.take_setRange? hset
  have hsize₁ := (List.length_setRange? hset).trans hshow₀.size_eq
  -- the header's count of questions is set to one
  obtain ⟨buf₂, hcount, hsize₂, htake₂⟩ := @setCount_eq
    { r₀ with buf := buf₁, len := 12 + q.question.length } 4 1
    (show 4 + 2 ≤ 12 + q.question.length by omega)
    (show 12 + q.question.length ≤ buf₁.length by omega)
  refine ⟨{ r₀ with buf := buf₂, len := 12 + q.question.length, edns := q.edns }, buf₁, ?_, ?_⟩
  · rw [start, Method.run_bind_ok _ (Method.run_get out)]
    simp only
    rw [Method.run_bind_ok _ hrun₀, if_neg (by rw [hshow₀.limit_eq]; unfold HEADER_LEN; omega),
      Method.run_bind_ok _ (putSlice_run_ok.mpr hset), Method.run_bind_ok _ (Method.run_get buf₁)]
    simp only [HEADER_LEN, hcount, Method.run_pure]
  -- header, question and count together are the draft's bytes
  · have hbytes : buf₂.take (12 + q.question.length) = (startDraft q n).bytes := by
      have htake₂ : buf₂.take (12 + q.question.length) =
          (buf₁.take (12 + q.question.length)).take 4 ++ (1 : UInt16).toBytesBE ++
            (buf₁.take (12 + q.question.length)).drop 6 := htake₂
      have hhead : r₀.buf.take HEADER_LEN = bareHead q.id q.flags .noError := by
        rw [← bytes_bareDraft, ← hshow₀.bytes, hlen₀]
      have htake₁ : buf₁.take (12 + q.question.length) = _ := htake
      rw [htake₂, htake₁, hhead, hq]
      simp only [Draft.bytes, Draft.body, startDraft, Option.toList_some, List.flatMap_cons,
        List.flatMap_nil, List.append_nil, bareHead_eq, List.append_assoc]
      rfl
    refine ⟨hbytes, ?_, hshow₀.an, hshow₀.ns, hshow₀.ar, rfl, hshow₀.limit_eq,
      hsize₂.trans hsize₁, ?_, Nat.min_le_right _ _⟩
    · rw [length_startDraft, ← hlen]
    · rw [length_startDraft, ← hlen]
      exact h

/-- Any other buffer is refused. -/
theorem start_none (q : Query) (limit : Nat) {out : List UInt8}
    (h : min limit out.length < HEADER_LEN + q.question.length + reserve q.edns) :
    ∃ e buf, (start q limit).run out = (.error e, buf) := by
  have hmin : min (min limit out.length) out.length = min limit out.length :=
    Nat.min_eq_left (Nat.min_le_right _ _)
  rw [start, Method.run_bind_ok _ (Method.run_get out)]
  simp only
  by_cases hhead : min limit out.length < HEADER_LEN
  · exact ⟨_, _, Method.run_bind_error _ (bare_none _ _ _ _ (by rwa [hmin]))⟩
  · obtain ⟨r, hrun, -, hshow⟩ := @bare_ok q.id q.flags .noError (min limit out.length) out
      (by rw [hmin]; omega)
    rw [Method.run_bind_ok _ hrun, hshow.limit_eq, hmin, if_pos h]
    exact ⟨_, _, rfl⟩

end Reply

/-! ## The finished message -/

namespace Draft

/-- The OPT record of a reply. -/
def opt : Dns.Record := ⟨[0], rtype.OPT, UInt16.ofNat EDNS_MAX, 0, []⟩

/-- The records after the answers and the authority: an OPT record, if the question spoke
    EDNS. -/
def additional (d : Draft) : List Dns.Record := if d.edns.isSome then [opt] else []

/-- The records of a section. -/
def inSection (d : Draft) (s : Section) : List Dns.Record :=
  (d.records.filter fun r => r.1 = s).map fun r => r.2

/-- The message of a draft. -/
def message (d : Draft) : Dns.Message where
  id := d.id
  flags := d.flags
  questions := d.question.toList
  answers := d.inSection .answer
  authority := d.inSection .authority
  additional := d.additional

/-- The bytes of the draft with its OPT record. -/
def closed (d : Draft) : List UInt8 :=
  Dns.headerBytes d.id d.flags (UInt16.ofNat d.question.toList.length)
    (UInt16.ofNat (d.count .answer)) (UInt16.ofNat (d.count .authority))
    (UInt16.ofNat d.additional.length) ++ (d.body ++ d.additional.flatMap Dns.Record.bytes)

/-- What is closed is longer by the OPT record, where there is one. -/
theorem length_closed (d : Draft) :
    d.closed.length = d.bytes.length + Reply.reserve d.edns := by
  rw [length_bytes, closed, List.length_append, List.length_append, Dns.length_headerBytes,
    additional, Reply.reserve]
  split
  · rw [List.flatMap_cons, List.flatMap_nil, List.append_nil, Dns.Record.length_bytes,
      Nat.add_assoc]
    rfl
  · rw [List.flatMap_nil, List.length_nil]
    omega

private theorem optRecord_eq : optRecord (UInt16.ofNat EDNS_MAX) = opt.bytes := by decide

/-- The answers come before the authority. -/
def Ordered (d : Draft) : Prop :=
  d.records = (d.inSection .answer).map (Section.answer, ·) ++
    (d.inSection .authority).map (Section.authority, ·)

/-- The counter of a section is the number of its records. -/
theorem length_inSection (d : Draft) (s : Section) : (d.inSection s).length = d.count s :=
  List.length_map _

/-- A draft in order closes to the bytes of its message. -/
theorem closed_eq (d : Draft) (h : d.Ordered) : d.closed = d.message.bytes := by
  have hbody : d.records.flatMap (fun r => r.2.bytes) =
      (d.inSection .answer).flatMap Dns.Record.bytes ++
        (d.inSection .authority).flatMap Dns.Record.bytes := by
    refine (congrArg (fun l => List.flatMap (fun r => r.2.bytes) l) h).trans ?_
    rw [List.flatMap_append, List.flatMap_map, List.flatMap_map]
  rw [closed, Dns.Message.bytes, body, hbody]
  simp only [message, length_inSection, List.append_assoc]

end Draft

/-- The finished buffer starts with the closed draft, and is as long as it was. -/
theorem Reply.finish_eq {r : Reply} {limit size : Nat} {d : Draft} (h : r.Shows limit size d) :
    ∃ buf, r.finish = (d.closed.length, buf) ∧ buf.length = size ∧
      buf.take d.closed.length = d.closed := by
  have hclosed := d.length_closed
  have hfits := h.fits
  have hle := h.limit_le
  -- with EDNS the reserved bytes are filled and counted; without it the reply ends as it is
  by_cases hedns : r.edns.isSome
  · have hreserve : reserve d.edns = 11 := by
      rw [reserve, ← h.edns, if_pos hedns]
      rfl
    have hadditional : d.additional = [Draft.opt] := by
      rw [Draft.additional, ← h.edns, if_pos hedns]
    -- the record goes behind the last one
    have hset := List.setRange?_of_le (optRecord (UInt16.ofNat EDNS_MAX))
      (show r.len + 11 ≤ r.buf.length by rw [h.len, h.size_eq]; omega)
    generalize htmp : r.buf.take r.len ++ _ ++ r.buf.drop _ = buf₁ at hset
    have htake : buf₁.take (r.len + 11) = _ := List.take_setRange? hset
    have hsize₁ := (List.length_setRange? hset).trans h.size_eq
    -- the header's count of additional records goes up by one
    obtain ⟨buf₂, hcount, hsize₂, htake₂⟩ := @setCount_eq
      { r with buf := buf₁, len := r.len + 11, ar := r.ar + 1 } 10 (r.ar + 1)
      (show 10 + 2 ≤ r.len + 11 by rw [h.len, d.length_bytes]; omega)
      (show r.len + 11 ≤ buf₁.length by rw [h.len, hsize₁]; omega)
    refine ⟨buf₂, ?_, hsize₂.trans hsize₁, ?_⟩
    · rw [finish, if_pos hedns, hset]
      simp only [OPT_LEN, hcount]
      rw [h.len, hclosed, hreserve]
    · have hlen : r.len + 11 = d.closed.length := by rw [h.len, hclosed, hreserve]
      have htake₂ : buf₂.take (r.len + 11) =
          (buf₁.take (r.len + 11)).take 10 ++ (r.ar + 1).toBytesBE ++
            (buf₁.take (r.len + 11)).drop 12 := htake₂
      rw [← hlen, htake₂, htake, h.bytes, h.ar, Draft.optRecord_eq, Draft.closed, Draft.bytes,
        hadditional]
      simp only [List.append_assoc, List.flatMap_cons, List.flatMap_nil, List.append_nil]
      rfl
  · have hreserve : reserve d.edns = 0 := by rw [reserve, ← h.edns, if_neg hedns]
    have hadditional : d.additional = [] := by rw [Draft.additional, ← h.edns, if_neg hedns]
    have hbytes : d.closed = d.bytes := by
      rw [Draft.closed, Draft.bytes, hadditional, List.flatMap_nil, List.append_nil]
      rfl
    refine ⟨r.buf, ?_, h.size_eq, ?_⟩
    · rw [finish, if_neg hedns, hbytes, h.len]
    · rw [hbytes, ← h.len, h.bytes]

end HopDns

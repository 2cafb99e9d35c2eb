import HopDns.Spec.QueryGrammar

/-!
# The search for EDNS

`find_opt` over whatever stands behind the question: the records it passes over, the
OPT record it stops at, and the tails it gives up on.

## Key results

- `skipName_eq_some`, `recordAt_eq_some`: what counts as a name, and as a record
- `findOpt_records`, `findOpt_broken`: the search over records, and over records that
  break off
- `findOpt_eq_findSome?`: the search as a list of visited places
- `parseQuery_edns`: EDNS of an accepted question with any tail
-/

namespace HopDns

open ForStd

/-! ## One record -/

/-- The end of the name that stands at a place. -/
theorem skipName_of_hasAt {msg owner : List UInt8} {pos : Nat} (h : Dns.NameBytes owner)
    (hat : msg.HasAt pos owner) : skipName msg pos = some (pos + owner.length) := by
  -- the induction is on how the name is built
  induction h generalizing pos with
  | root =>
    obtain ⟨hb, -⟩ := List.hasAt_cons.mp hat
    rw [skipName_some hb, if_pos UInt8.toNat_zero]
    rfl
  | pointer b₀ b₁ hb₀ =>
    obtain ⟨hb, hat⟩ := List.hasAt_cons.mp hat
    obtain ⟨hb', -⟩ := List.hasAt_cons.mp hat
    rw [skipName_some hb, if_neg (by omega), if_neg (by omega), if_pos hb₀, hb']
    rfl
  | @label l n hl _ ih =>
    -- the length byte, the label, and the rest of the name
    rw [Dns.labelBytes, List.cons_append] at hat
    obtain ⟨hb, hat⟩ := List.hasAt_cons.mp hat
    obtain ⟨-, hrest⟩ := List.hasAt_append.mp hat
    have hlen := hl.toNat_ofNat
    have hl' := hl
    unfold Dns.LegalLabel at hl'
    rw [skipName_some hb, hlen, if_neg (by omega), if_pos (by omega), ih hrest,
      List.length_append, Dns.length_labelBytes]
    congr 1
    omega

/-- Where the search finds an end of a name, a name stands. -/
private theorem exists_of_skipName {msg : List UInt8} {pos e : Nat}
    (h : skipName msg pos = some e) :
    ∃ owner, Dns.NameBytes owner ∧ msg.HasAt pos owner ∧ e = pos + owner.length := by
  -- the cases are those of the loop
  induction pos using skipName.induct msg with
  | case1 pos hnone =>
    rw [skipName] at h
    split at h
    · cases h
    · rename_i b hb
      cases hnone.symm.trans hb
  -- the empty label
  | case2 pos b hb hzero =>
    rw [skipName_some hb, if_pos hzero] at h
    obtain rfl := Option.some.inj h
    refine ⟨[0], .root, ?_, rfl⟩
    rw [List.hasAt_cons, hb, eq_zero_of_toNat hzero]
    exact ⟨rfl, List.hasAt_nil _ _⟩
  -- a label
  | case3 pos b hb hzero hle ih =>
    rw [skipName_some hb, if_neg hzero, if_pos hle] at h
    obtain ⟨owner, hname, hat, rfl⟩ := ih h
    have hlt := hat.lt hname.ne_nil
    have hlen : ((msg.drop (pos + 1)).take b.toNat).length = b.toNat := by
      rw [List.length_take, List.length_drop]
      omega
    refine ⟨Dns.labelBytes ((msg.drop (pos + 1)).take b.toNat) ++ owner,
      .label _ ⟨by omega, by omega⟩ hname, ?_, ?_⟩
    · rw [Dns.labelBytes, List.cons_append, List.hasAt_cons, hlen, hb, UInt8.ofNat_toNat,
        List.hasAt_append, hlen]
      exact ⟨rfl, List.take_prefix _ _, hat⟩
    · rw [List.length_append, Dns.length_labelBytes, hlen]
      omega
  -- a pointer, with its second byte
  | case4 pos b hb hzero hle hbig hnone =>
    rw [skipName_some hb, if_neg hzero, if_neg hle, if_pos hbig, hnone] at h
    cases h
  | case5 pos b hb hzero hle hbig b₁ hb₁ =>
    rw [skipName_some hb, if_neg hzero, if_neg hle, if_pos hbig, hb₁] at h
    obtain rfl := Option.some.inj h
    exact ⟨[b, b₁], .pointer b b₁ hbig,
      List.hasAt_cons.mpr ⟨hb, List.hasAt_cons.mpr ⟨hb₁, List.hasAt_nil _ _⟩⟩, rfl⟩
  -- a reserved form
  | case6 pos b hb hzero hle hbig =>
    rw [skipName_some hb, if_neg hzero, if_neg hle, if_neg hbig] at h
    cases h

/-- The search finds the end of exactly the names, with or without a pointer. -/
theorem skipName_eq_some {msg : List UInt8} {pos e : Nat} :
    skipName msg pos = some e ↔
      ∃ owner, Dns.NameBytes owner ∧ msg.HasAt pos owner ∧ e = pos + owner.length := by
  constructor
  · exact exists_of_skipName
  · rintro ⟨owner, hname, hat, rfl⟩
    exact skipName_of_hasAt hname hat

/-- The record at `pos`, as the search reads it: its type, its class, and where its data ends. -/
def recordAt (msg : List UInt8) (pos : Nat) : Option (UInt16 × UInt16 × Nat) := do
  let nameEnd ← skipName msg pos
  let type ← be16 msg nameEnd
  let rclass ← be16 msg (nameEnd + 2)
  let rdlen ← be16 msg (nameEnd + 8)
  return (type, rclass, nameEnd + 10 + rdlen.toNat)

/-- One turn of the search. -/
private theorem findOpt_succ (msg : List UInt8) (pos count : Nat) :
    findOpt msg pos (count + 1) = (recordAt msg pos).bind fun (type, size, next) =>
      if type = rtype.OPT then some size else findOpt msg next count := by
  simp only [findOpt, recordAt, Option.bind_eq_bind, Option.pure_def, Option.bind_assoc,
    Option.bind_some]

/-- The head of a record stands at a place. -/
def HeadAt (msg : List UInt8) (pos : Nat) (h : Dns.RecordHead) : Prop :=
  Dns.NameBytes h.owner ∧ msg.HasAt pos h.bytes

/-- The head of a record, field by field. -/
private theorem headAt_iff {msg : List UInt8} {pos : Nat} {h : Dns.RecordHead} :
    HeadAt msg pos h ↔ Dns.NameBytes h.owner ∧ msg.HasAt pos h.owner ∧
      be16 msg (pos + h.owner.length) = some h.rtype ∧
        be16 msg (pos + h.owner.length + 2) = some h.rclass ∧
          msg.HasAt (pos + h.owner.length + 4) h.ttl.toBytesBE ∧
            be16 msg (pos + h.owner.length + 8) = some h.rdlen := by
  simp only [HeadAt, Dns.RecordHead.bytes, List.hasAt_append, be16_eq_some,
    UInt16.length_toBytesBE, UInt32.length_toBytesBE, Nat.add_assoc, Nat.reduceAdd]

/-- The search reads a record exactly where the head of one stands. Its data may be cut off. -/
theorem recordAt_eq_some {msg : List UInt8} {pos next : Nat} {type rclass : UInt16} :
    recordAt msg pos = some (type, rclass, next) ↔
      ∃ h, HeadAt msg pos h ∧ h.rtype = type ∧ h.rclass = rclass ∧
        next = pos + h.bytes.length + h.rdlen.toNat := by
  simp only [recordAt, Option.bind_eq_bind, Option.pure_def, Option.bind_eq_some_iff,
    Option.some.injEq, Prod.mk.injEq]
  constructor
  · rintro ⟨e, he, _, htype, _, hclass, rdlen, hrdlen, rfl, rfl, rfl⟩
    -- the owner, and behind it the ten bytes of fixed fields
    obtain ⟨owner, hname, hat, rfl⟩ := skipName_eq_some.mp he
    -- the time to live is not read, but the length behind it is
    have hlen := (be16_eq_some.mp hrdlen).lt (List.ne_nil_of_length_pos (by simp))
    obtain ⟨ttl, httl⟩ :=
      @UInt32.exists_toBytesBE ((msg.drop (pos + owner.length + 4)).take 4)
        (by rw [List.length_take, List.length_drop]; omega)
    refine ⟨⟨owner, _, _, ttl, rdlen⟩, headAt_iff.mpr ⟨hname, hat, htype, hclass, ?_, hrdlen⟩,
      rfl, rfl, ?_⟩
    · rw [httl]
      exact List.take_prefix _ _
    · simp only [Dns.RecordHead.length_bytes]
      omega
  -- the head gives back the place of each field
  · rintro ⟨h, hhead, rfl, rfl, rfl⟩
    obtain ⟨hname, hat, htype, hclass, -, hrdlen⟩ := headAt_iff.mp hhead
    refine ⟨_, skipName_of_hasAt hname hat, _, htype, _, hclass, _, hrdlen, rfl, rfl, ?_⟩
    rw [Dns.RecordHead.length_bytes]
    omega

/-- A well-formed record that stands at a place is read there, up to its end. -/
private theorem recordAt_of_hasAt {msg : List UInt8} {pos : Nat} {r : Dns.Record}
    (hwf : r.WellFormed) (hat : msg.HasAt pos r.bytes) :
    recordAt msg pos = some (r.rtype, r.rclass, pos + r.bytes.length) := by
  refine recordAt_eq_some.mpr ⟨r.head, ⟨hwf.1, ?_⟩, rfl, rfl, ?_⟩
  · rw [r.bytes_eq] at hat
    exact (List.hasAt_append.mp hat).1
  · rw [Dns.Record.length_bytes_eq hwf, Nat.add_assoc]

/-- Behind the end of the message there is no record. -/
private theorem recordAt_of_le {msg : List UInt8} {pos : Nat} (h : msg.length ≤ pos) :
    recordAt msg pos = none := by
  cases hrecord : recordAt msg pos with
  | none => rfl
  | some r =>
    obtain ⟨head, ⟨hname, hat⟩, -⟩ := recordAt_eq_some.mp hrecord
    have hlt := hat.lt (by simp [Dns.RecordHead.bytes, hname.ne_nil])
    omega

/-! ## The records of a tail -/

/-- The size of the first OPT record among these. -/
def firstOpt (records : List Dns.Record) : Option UInt16 :=
  (records.find? fun r => r.rtype = rtype.OPT).map Dns.Record.rclass

/-- Over records that stand in a row the search finds the first OPT record, or goes on behind
    them. -/
private theorem findOpt_flatMap {msg : List UInt8} {pos : Nat} {records : List Dns.Record}
    (hwf : ∀ r ∈ records, r.WellFormed) (hat : msg.HasAt pos (records.flatMap Dns.Record.bytes))
    (count : Nat) : findOpt msg pos (records.length + count) =
      (firstOpt records).or
        (findOpt msg (pos + (records.flatMap Dns.Record.bytes).length) count) := by
  -- the induction is on the records, each of which starts where the one before it ends
  induction records generalizing pos with
  | nil => simp [firstOpt]
  | cons r records ih =>
    rw [List.flatMap_cons] at hat
    obtain ⟨hr, hrest⟩ := List.hasAt_append.mp hat
    rw [List.length_cons, show records.length + 1 + count = records.length + count + 1 by omega,
      findOpt_succ, recordAt_of_hasAt (hwf r List.mem_cons_self) hr, Option.bind_some]
    dsimp only
    -- this record is the one, or the search goes on behind it
    by_cases hopt : r.rtype = rtype.OPT
    · rw [if_pos hopt, firstOpt, List.find?_cons_of_pos (by simpa using hopt), Option.map_some,
        Option.some_or]
    · rw [if_neg hopt, ih (fun r' hr' => hwf r' (List.mem_cons_of_mem r hr')) hrest, firstOpt,
        firstOpt, List.find?_cons_of_neg (by simpa using hopt), List.flatMap_cons,
        List.length_append, Nat.add_assoc]

/-- Bytes that break off in a record: no whole record stands at their start, and not the head
    of an OPT record. -/
structure BreaksOff (rest : List UInt8) : Prop where
  cut : ∀ r : Dns.Record, r.WellFormed → ¬r.bytes <+: rest
  notOpt : ∀ h : Dns.RecordHead, Dns.NameBytes h.owner → h.bytes <+: rest → h.rtype ≠ rtype.OPT

/-- A record is as long as its head and the length of its data say. -/
private theorem exists_record {msg : List UInt8} {pos : Nat} {h : Dns.RecordHead}
    (hhead : HeadAt msg pos h) (hlen : pos + h.bytes.length + h.rdlen.toNat ≤ msg.length) :
    ∃ r : Dns.Record, r.WellFormed ∧ r.head = h ∧ msg.HasAt pos r.bytes := by
  -- the data is there, so the head and the data make a record
  let data := (msg.drop (pos + h.bytes.length)).take h.rdlen.toNat
  have hdata : data.length = h.rdlen.toNat := by
    rw [List.length_take, List.length_drop]
    omega
  let r : Dns.Record := ⟨h.owner, h.rtype, h.rclass, h.ttl, data⟩
  have hr : r.head = h := by rw [Dns.Record.head, hdata, UInt16.ofNat_toNat]
  have hfits : data.length < 65536 := hdata ▸ h.rdlen.toNat_lt
  refine ⟨r, ⟨hhead.1, hfits⟩, hr, ?_⟩
  rw [r.bytes_eq, hr, List.hasAt_append]
  exact ⟨hhead.2, List.take_prefix _ _⟩

/-- The search gives up where the bytes break off. -/
private theorem findOpt_breaksOff {msg : List UInt8} {pos : Nat} (h : BreaksOff (msg.drop pos))
    (count : Nat) : findOpt msg pos count = none := by
  -- nothing is searched, or the record at this place is no OPT record
  cases count with
  | zero => rfl
  | succ count =>
    rw [findOpt_succ]
    cases hrecord : recordAt msg pos with
    | none => rfl
    | some record =>
      obtain ⟨type, rclass, next⟩ := record
      obtain ⟨head, hhead, rfl, rfl, rfl⟩ := recordAt_eq_some.mp hrecord
      rw [Option.bind_some]
      dsimp only
      rw [if_neg (h.notOpt head hhead.1 hhead.2)]
      -- the data of this record would go past the end, so no record is read behind it
      have hpast : msg.length ≤ pos + head.bytes.length + head.rdlen.toNat := by
        refine Nat.le_of_not_le fun hle => ?_
        obtain ⟨r, hwf, -, hat⟩ := exists_record hhead hle
        exact h.cut r hwf hat
      cases count with
      | zero => rfl
      | succ count => rw [findOpt_succ, recordAt_of_le hpast, Option.bind_none]

/-! ## The places the search visits -/

/-- The places of the records the search reads, in order. -/
def visited (msg : List UInt8) (pos : Nat) : Nat → List Nat
  | 0 => []
  | count + 1 => pos :: match recordAt msg pos with
    | none => []
    | some (type, _, next) => if type = rtype.OPT then [] else visited msg next count

/-- The size of the record at `pos`, if it is an OPT record. -/
def optAt (msg : List UInt8) (pos : Nat) : Option UInt16 :=
  (recordAt msg pos).bind fun (type, size, _) => if type = rtype.OPT then some size else none

/-- The search asks each visited place for an OPT record, and takes the first one. -/
theorem findOpt_eq_findSome? (msg : List UInt8) (pos count : Nat) :
    findOpt msg pos count = (visited msg pos count).findSome? (optAt msg) := by
  -- the induction is on the count; the search stops where the list of places does
  induction count generalizing pos with
  | zero => rfl
  | succ count ih =>
    rw [findOpt_succ, visited, List.findSome?_cons, optAt]
    cases recordAt msg pos with
    | none => rfl
    | some record =>
      obtain ⟨type, size, next⟩ := record
      simp only [Option.bind_some]
      by_cases hopt : type = rtype.OPT
      · rw [if_pos hopt, if_pos hopt]
      · rw [if_neg hopt, if_neg hopt, if_neg hopt, ih next]

/-- The search visits no more places than there are records. -/
private theorem length_visited_le (msg : List UInt8) (pos count : Nat) :
    (visited msg pos count).length ≤ count := by
  -- each turn visits one place more
  induction count generalizing pos with
  | zero => exact Nat.le_refl 0
  | succ count ih =>
    rw [visited, List.length_cons]
    cases recordAt msg pos with
    | none => exact Nat.succ_le_succ (Nat.zero_le count)
    | some record =>
      dsimp only
      split
      · exact Nat.succ_le_succ (Nat.zero_le count)
      · exact Nat.succ_le_succ (ih _)

/-- The next record starts behind this one's head, and at most its data behind the message. -/
private theorem recordAt_next {msg : List UInt8} {pos next : Nat} {type rclass : UInt16}
    (h : recordAt msg pos = some (type, rclass, next)) :
    pos + 11 ≤ next ∧ next ≤ msg.length + 65535 := by
  obtain ⟨head, ⟨hname, hat⟩, -, -, rfl⟩ := recordAt_eq_some.mp h
  have hne := List.length_pos_iff.mpr hname.ne_nil
  have hlen := head.length_bytes
  have hdata := head.rdlen.toNat_lt
  have hle := hat.length_le (Nat.le_of_lt (hat.lt (List.ne_nil_of_length_pos (by omega))))
  omega

/-- No visited place is before the first one. -/
private theorem le_of_mem_visited {msg : List UInt8} {pos count p : Nat}
    (h : p ∈ visited msg pos count) :
    pos ≤ p := by
  -- each place is behind the one before it
  induction count generalizing pos with
  | zero => cases h
  | succ count ih =>
    rw [visited] at h
    obtain rfl | h := List.mem_cons.mp h
    · exact Nat.le_refl p
    · split at h
      · cases h
      · rename_i type rclass next hrecord
        split at h
        · cases h
        · have := ih h
          have := (recordAt_next hrecord).1
          omega

/-- How the search goes through a message: forward, over whole records, and no further than
    the data of one record behind the end. -/
structure Forward (msg : List UInt8) (places : List Nat) : Prop where
  /-- each place is at least a record's head behind the one before -/
  ascending : places.Pairwise fun p p' => p + 11 ≤ p'
  /-- at every place but the last the whole head of a record stands -/
  whole : ∀ p ∈ places.dropLast, ∃ h, HeadAt msg p h ∧ p + h.bytes.length ≤ msg.length
  bounded : ∀ p ∈ places, p ≤ msg.length + 65535

theorem Forward.nil (msg : List UInt8) : Forward msg [] := ⟨.nil, nofun, nofun⟩

/-- A search that starts within reach goes forward. -/
theorem Forward.singleton {msg : List UInt8} {pos : Nat} (h : pos ≤ msg.length + 65535) :
    Forward msg [pos] where
  ascending := List.pairwise_singleton _ _
  whole := nofun
  bounded _ hp := List.mem_singleton.mp hp ▸ h

/-- A record's head within the message may come before the places behind it. -/
theorem Forward.cons {msg : List UInt8} {pos : Nat} {places : List Nat} {h : Dns.RecordHead}
    (hhead : HeadAt msg pos h) (hle : ∀ p ∈ places, pos + 11 ≤ p) (hplaces : Forward msg places) :
    Forward msg (pos :: places) := by
  have hne : h.bytes ≠ [] := by simp [Dns.RecordHead.bytes, hhead.1.ne_nil]
  have hlt := hhead.2.lt hne
  refine ⟨List.pairwise_cons.mpr ⟨hle, hplaces.ascending⟩, fun p hp => ?_,
    List.forall_mem_cons.mpr ⟨by omega, hplaces.bounded⟩⟩
  -- every place but the last has a whole head
  cases places with
  | nil => cases hp
  | cons p' places =>
    rw [List.dropLast_cons_cons] at hp
    obtain rfl | hp := List.mem_cons.mp hp
    · exact ⟨h, hhead, hhead.2.length_le (Nat.le_of_lt hlt)⟩
    · exact hplaces.whole p hp

/-- Every place that is visited lies behind the one before. -/
private theorem visited_forward {msg : List UInt8} {pos : Nat} (h : pos ≤ msg.length + 65535)
    (count : Nat) : Forward msg (visited msg pos count) := by
  -- the induction is on the count
  induction count generalizing pos with
  | zero => exact .nil msg
  | succ count ih =>
    rw [visited]
    -- no record, an OPT record, or another one behind which the search goes on
    split
    · exact .singleton h
    · rename_i type rclass next hrecord
      split
      · exact .singleton h
      · obtain ⟨hnext, hbound⟩ := recordAt_next hrecord
        obtain ⟨head, hhead, -⟩ := recordAt_eq_some.mp hrecord
        exact .cons hhead (fun p hp => Nat.le_trans hnext (le_of_mem_visited hp)) (ih hbound)

/-- The places at which records start when they stand in a row from `pos` on. -/
def starts (pos : Nat) : List Dns.Record → List Nat
  | [] => []
  | r :: records => pos :: starts (pos + r.bytes.length) records

/-- Over records that stand in a row the search visits them one by one, none twice and none
    passed over. -/
private theorem visited_prefix {msg : List UInt8} {pos count : Nat} {records : List Dns.Record}
    (hwf : ∀ r ∈ records, r.WellFormed) (hat : msg.HasAt pos (records.flatMap Dns.Record.bytes))
    (hcount : count ≤ records.length) : visited msg pos count <+: starts pos records := by
  -- the induction is on the records
  induction records generalizing pos count with
  | nil =>
    rw [Nat.le_zero.mp hcount]
    exact List.prefix_rfl
  | cons r records ih =>
    cases count with
    | zero => exact List.nil_prefix
    | succ count =>
      rw [List.flatMap_cons] at hat
      obtain ⟨hr, hrest⟩ := List.hasAt_append.mp hat
      rw [visited, starts, recordAt_of_hasAt (hwf r List.mem_cons_self) hr, List.prefix_cons_inj]
      dsimp only
      split
      · exact List.nil_prefix
      · exact ih (fun r' hr' => hwf r' (List.mem_cons_of_mem r hr')) hrest
          (Nat.le_of_succ_le_succ hcount)

/-! ## EDNS of an accepted question -/

/-- What is found behind the question `q`, which ends where `front` does, when the header counts
    `count` records. -/
structure EdnsOf (q : Query) (front : List UInt8) (count : Nat) : Prop where
  /-- enough records: the first OPT record among the counted ones -/
  whole : ∀ (records : List Dns.Record) (rest : List UInt8), (∀ r ∈ records, r.WellFormed) →
    count ≤ records.length →
      let msg := front ++ (records.flatMap Dns.Record.bytes ++ rest)
      parseQuery msg = .ok { q with edns := firstOpt (records.take count) } ∧
        visited msg front.length count <+: starts front.length records
  /-- records that break off before any OPT record: none, and the question stands -/
  broken : ∀ (records : List Dns.Record) (rest : List UInt8),
    (∀ r ∈ records, r.WellFormed ∧ r.rtype ≠ rtype.OPT) → records.length < count →
      BreaksOff rest → parseQuery (front ++ (records.flatMap Dns.Record.bytes ++ rest)) =
        .ok { q with edns := none }
  /-- any tail: the search goes forward through the message, at most `count` records -/
  forward : ∀ tail : List UInt8,
    let places := visited (front ++ tail) front.length count
    parseQuery (front ++ tail) = .ok { q with edns := places.findSome? (optAt (front ++ tail)) } ∧
      places.length ≤ count ∧ Forward (front ++ tail) places

/-- The search alone decides what is found behind a question. -/
private theorem EdnsOf.of_findOpt {q : Query} {front : List UInt8} {count : Nat}
    (h : ∀ tail, parseQuery (front ++ tail) =
      .ok { q with edns := findOpt (front ++ tail) front.length count }) :
    EdnsOf q front count where
  whole := by
    intro records rest hwf hcount
    dsimp only
    have hat := List.hasAt_middle front (records.flatMap Dns.Record.bytes) rest
    refine ⟨?_, visited_prefix hwf hat hcount⟩
    -- only the counted records are searched
    have htaken : (front ++ (records.flatMap Dns.Record.bytes ++ rest)).HasAt front.length
        ((records.take count).flatMap Dns.Record.bytes) := by
      have hsplit := congrArg (List.flatMap Dns.Record.bytes) (List.take_append_drop count records)
      rw [List.flatMap_append] at hsplit
      exact List.IsPrefix.trans ⟨_, hsplit⟩ hat
    have hfind := findOpt_flatMap (fun r hr => hwf r (List.mem_of_mem_take hr)) htaken 0
    rw [List.length_take, Nat.min_eq_left hcount, Nat.add_zero, findOpt, Option.or_none] at hfind
    rw [h, hfind]
  broken := by
    intro records rest hwf hcount hbroken
    have hat := List.hasAt_middle front (records.flatMap Dns.Record.bytes) rest
    -- the record that is broken off is among the counted ones
    obtain ⟨k, rfl⟩ := Nat.exists_eq_add_of_lt hcount
    -- the whole records before it hold no OPT record
    have hnone : firstOpt records = none := by
      rw [firstOpt, List.find?_eq_none.mpr fun r hr => by simpa using (hwf r hr).2]
      rfl
    have hdrop : (front ++ (records.flatMap Dns.Record.bytes ++ rest)).drop
        (front.length + (records.flatMap Dns.Record.bytes).length) = rest := by
      rw [← List.append_assoc]
      exact List.drop_left' List.length_append
    rw [h, Nat.add_assoc, findOpt_flatMap (fun r hr => (hwf r hr).1) hat, hnone, Option.none_or,
      findOpt_breaksOff (by rwa [hdrop])]
  -- whatever follows, the places only go forward
  forward := by
    intro tail
    dsimp only
    have hlen : front.length ≤ (front ++ tail).length + 65535 := by
      rw [List.length_append]
      omega
    exact ⟨findOpt_eq_findSome? _ _ count ▸ h tail, length_visited_le _ _ count,
      visited_forward hlen count⟩

/-- EDNS of an accepted question, whatever stands behind it. -/
theorem parseQuery_edns {msg : List UInt8} {q : Query} (h : parseQuery msg = .ok q) :
    ∃ an ns ar : UInt16, be16 msg 6 = some an ∧ be16 msg 8 = some ns ∧ be16 msg 10 = some ar ∧
      EdnsOf q (msg.take (HEADER_LEN + q.question.length))
        (an.toNat + ns.toNat + ar.toNat) := by
  obtain ⟨an, ns, ar, han, hns, har, htake⟩ := exists_front h
  refine ⟨an, ns, ar, han, hns, har, .of_findOpt fun tail => ?_⟩
  have hfront : (msg.take (HEADER_LEN + q.question.length)).length =
      HEADER_LEN + q.question.length := by
    rw [htake, List.length_append, Dns.length_headerBytes]
    rfl
  rw [parseQuery_tail h han hns har tail, hfront]

/-- The question for "w" with EDNS is accepted, with one record counted behind it. -/
theorem parseQuery_edns_queryFor :
    let n : Dns.Name := ⟨[[119]], by decide, by decide⟩
    ∃ an ns ar : UInt16, be16 (queryFor n rtype.A) 6 = some an ∧
      be16 (queryFor n rtype.A) 8 = some ns ∧ be16 (queryFor n rtype.A) 10 = some ar ∧
        EdnsOf (queryOf n rtype.A)
          ((queryFor n rtype.A).take (HEADER_LEN + (queryOf n rtype.A).question.length))
          (an.toNat + ns.toNat + ar.toNat) :=
  parseQuery_edns (parseQuery_queryFor _ _)

end HopDns

import Mathlib.Data.List.Forall2
import HopDns.Spec.ReadEnds

/-!
# The data of a record

A record says how long its data is, and the next record is read from there on. Its
names are read from the message, wherever they end: only the data of an A record is
held against that length.

## Key results

- `readRecord_eq_ok`: what a record that was read consists of
- `decode_places`: the records of a message, each at its place
- `decode_inside_iff`: when the data that is read is the data of the record
-/

namespace HopDns

open ForStd

/-! ## One record -/

/-- The record at a place: its type, where its data starts, and where it says that it ends. -/
def dataAt (msg : List UInt8) (pos : Nat) : Option (UInt16 × Nat × Nat) := do
  let nameEnd ← skipName msg pos
  let type ← be16 msg nameEnd
  let rdlen ← be16 msg (nameEnd + 8)
  return (type, nameEnd + 10, nameEnd + 10 + rdlen.toNat)

/-- What was returned is what is yielded, of a function that comes to an end. -/
private theorem Ends.yields_of_run {α : Type} {x : Fallible α} (h : Ends x) {mem mem' : Mem} {a : α}
    (hrun : x.run mem = (.ok a, mem')) : Yields x (.ok a) := by
  obtain ⟨r, hyields, -⟩ := h
  exact hyields.eq_of_ok hrun ▸ hyields

/-- The parts of a record that was read. -/
theorem readRecord_eq_ok {msg : List UInt8} {pos next : Nat} {r : Record} {mem mem' : Mem}
    (h : (readRecord msg pos).run mem = (.ok (r, next), mem')) :
    ∃ rd rdata, dataAt msg pos = some (r.rtype, rd, next) ∧ msg.getRange? rd next = some rdata ∧
      Yields (readData msg r.rtype rd rdata) (.ok r.data) := by
  rw [readRecord_eq] at h
  -- the steps of `read_record` in their order, each of which has succeeded
  obtain ⟨⟨name, nameEnd⟩, s₁, hname, h⟩ := Method.run_bind_eq_ok.mp h
  obtain ⟨type, s₂, htype, h⟩ := Method.run_bind_eq_ok.mp h
  obtain ⟨ttl, s₃, -, h⟩ := Method.run_bind_eq_ok.mp h
  obtain ⟨rdlen, s₄, hrdlen, h⟩ := Method.run_bind_eq_ok.mp h
  obtain ⟨rdata, s₅, hrdata, h⟩ := Method.run_bind_eq_ok.mp h
  obtain ⟨data, s₆, hdata, h⟩ := Method.run_bind_eq_ok.mp h
  obtain ⟨rfl, rfl⟩ := Prod.mk.inj (Except.ok.inj (Prod.mk.inj h).1)
  refine ⟨nameEnd + 10, rdata, ?_, (Method.run_okOr_eq_ok.mp hrdata).1,
    (readData_ends msg type _ rdata).yields_of_run hdata⟩
  -- `dataAt` takes the same steps, with the name skipped and not kept
  rw [dataAt, skipName_of_readName hname]
  simp only [Option.bind_eq_bind, Option.bind_some, (Method.run_okOr_eq_ok.mp htype).1,
    (Method.run_okOr_eq_ok.mp hrdlen).1, Option.pure_def]

/-- A name is read from the message at a place and ends there. -/
def NameEnds (msg : List UInt8) (pos e : Nat) : Prop :=
  ∃ name, Yields (readName msg pos) (.ok (name, e))

/-- The data of the record at a place is read from within the data: the name of a CNAME record
    ends where the data does, and the two names of a SOA record leave room for five numbers. -/
def ReadsInside (msg : List UInt8) (pos : Nat) : Prop :=
  ∀ type rd stop, dataAt msg pos = some (type, rd, stop) →
    (type = rtype.CNAME → NameEnds msg rd stop) ∧
    (type = rtype.SOA → ∃ p p', NameEnds msg rd p ∧ NameEnds msg p p' ∧ p' + 20 = stop)

/-- The data of the record at a place is what its type says: a name on the wire in a CNAME
    record, and two names and twenty bytes in a SOA record. -/
def FillsData (msg : List UInt8) (pos : Nat) : Prop :=
  ∀ type rd stop, dataAt msg pos = some (type, rd, stop) →
    (type = rtype.CNAME → ∃ target, Dns.NameBytes target ∧ msg.getRange? rd stop = some target) ∧
    (type = rtype.SOA → ∃ mname rname numbers, Dns.NameBytes mname ∧ Dns.NameBytes rname ∧
      numbers.length = 20 ∧ msg.getRange? rd stop = some (mname ++ rname ++ numbers))

/-- Where a name ends the search for its end finds it. -/
theorem NameEnds.skipName {msg : List UInt8} {pos e : Nat} (h : NameEnds msg pos e) :
    skipName msg pos = some e := by
  obtain ⟨name, hyields⟩ := h
  exact skipName_of_readName hyields.ample

/-- Where a name was read, its end is that of the name on the wire. -/
theorem NameEnds.exists_bytes {msg : List UInt8} {pos e : Nat} (h : NameEnds msg pos e) :
    ∃ owner, Dns.NameBytes owner ∧ msg.getRange? pos e = some owner := by
  obtain ⟨owner, howner, hat, rfl⟩ := skipName_eq_some.mp h.skipName
  exact ⟨owner, howner, List.getRange?_eq_some_iff.mpr ⟨rfl, skipName_le h.skipName, hat⟩⟩

/-- A name of the wire that stands at the place of one that was read is that one. -/
private theorem NameEnds.eq_of_hasAt {msg owner : List UInt8} {pos e : Nat} (h : NameEnds msg pos e)
    (howner : Dns.NameBytes owner) (hat : msg.HasAt pos owner) : e = pos + owner.length :=
  Option.some.inj (h.skipName.symm.trans (skipName_of_hasAt howner hat))

/-- A CNAME record that was read holds a name. -/
private theorem nameEnds_of_cname {msg rdata : List UInt8} {rd : Nat} {data : Rdata}
    (h : Yields (readData msg rtype.CNAME rd rdata) (.ok data)) : ∃ e, NameEnds msg rd e := by
  unfold readData at h
  rw [if_neg (by decide), if_pos rfl] at h
  obtain ⟨⟨target, e⟩, s, hname, -⟩ := Method.run_bind_eq_ok.mp h.ample
  exact ⟨e, target, (readName_ends msg rd).yields_of_run hname⟩

/-- A SOA record that was read holds two names. -/
private theorem nameEnds_of_soa {msg rdata : List UInt8} {rd : Nat} {data : Rdata}
    (h : Yields (readData msg rtype.SOA rd rdata) (.ok data)) :
    ∃ p p', NameEnds msg rd p ∧ NameEnds msg p p' := by
  unfold readData at h
  rw [if_neg (by decide), if_neg (by decide), if_pos rfl] at h
  obtain ⟨⟨mname, p⟩, s, hmname, h⟩ := Method.run_bind_eq_ok.mp h.ample
  obtain ⟨⟨rname, p'⟩, s', hrname, -⟩ := Method.run_bind_eq_ok.mp h
  exact ⟨p, p', ⟨mname, (readName_ends msg rd).yields_of_run hmname⟩,
    ⟨rname, (readName_ends msg p).yields_of_run hrname⟩⟩

/-- The name in a CNAME record ends where the data does when the data is a name. -/
private theorem nameEnds_iff {msg : List UInt8} {rd stop : Nat}
    (hread : ∃ e, NameEnds msg rd e) : NameEnds msg rd stop ↔
      ∃ target, Dns.NameBytes target ∧ msg.getRange? rd stop = some target := by
  constructor
  · exact NameEnds.exists_bytes
  · rintro ⟨target, htarget, hrange⟩
    obtain ⟨rfl, -, hat⟩ := List.getRange?_eq_some_iff.mp hrange
    obtain ⟨e, hends⟩ := hread
    exact hends.eq_of_hasAt htarget hat ▸ hends

/-- The two names in a SOA record leave the room of the numbers when the data consists of both. -/
private theorem twoNames_iff {msg : List UInt8} {rd stop : Nat} (hstop : stop ≤ msg.length)
    (hread : ∃ p p', NameEnds msg rd p ∧ NameEnds msg p p') :
    (∃ p p', NameEnds msg rd p ∧ NameEnds msg p p' ∧ p' + 20 = stop) ↔
      ∃ mname rname numbers, Dns.NameBytes mname ∧ Dns.NameBytes rname ∧ numbers.length = 20 ∧
        msg.getRange? rd stop = some (mname ++ rname ++ numbers) := by
  constructor
  -- two names and twenty bytes by place are the same by their bytes
  · rintro ⟨p, p', hp, hp', rfl⟩
    obtain ⟨mname, hmname, hrange⟩ := hp.exists_bytes
    obtain ⟨rname, hrname, hrange'⟩ := hp'.exists_bytes
    obtain ⟨rfl, -, hat⟩ := List.getRange?_eq_some_iff.mp hrange
    obtain ⟨rfl, -, hat'⟩ := List.getRange?_eq_some_iff.mp hrange'
    -- what is left behind the two names is twenty bytes long
    have hnumbers : ((msg.drop (rd + mname.length + rname.length)).take 20).length = 20 := by
      rw [List.length_take, List.length_drop]
      omega
    refine ⟨mname, rname, _, hmname, hrname, hnumbers,
      List.getRange?_eq_some_iff.mpr ⟨?_, hstop, ?_⟩⟩
    · rw [List.length_append, List.length_append, hnumbers]
      omega
    · rw [List.hasAt_append, List.hasAt_append, List.length_append, ← Nat.add_assoc]
      exact ⟨⟨hat, hat'⟩, List.take_prefix _ _⟩
  -- for the other direction a name that is read ends where its bytes do
  · rintro ⟨mname, rname, numbers, hmname, hrname, hnumbers, hrange⟩
    obtain ⟨rfl, -, hat⟩ := List.getRange?_eq_some_iff.mp hrange
    rw [List.append_assoc, List.hasAt_append, List.hasAt_append] at hat
    obtain ⟨hat, hat', -⟩ := hat
    obtain ⟨p, p', hp, hp'⟩ := hread
    obtain rfl := hp.eq_of_hasAt hmname hat
    obtain rfl := hp'.eq_of_hasAt hrname hat'
    refine ⟨_, _, hp, hp', ?_⟩
    rw [List.length_append, List.length_append, hnumbers]
    omega

/-- A record that was read is read from within its data exactly when its data is what its type
    says. -/
private theorem readsInside_iff {msg : List UInt8} {pos next : Nat} {r : Record}
    (h : Yields (readRecord msg pos) (.ok (r, next))) :
    ReadsInside msg pos ↔ FillsData msg pos := by
  obtain ⟨rd, rdata, hdata, hrange, hyields⟩ := readRecord_eq_ok h.ample
  have hstop := (List.getRange?_eq_some_iff.mp hrange).2.1
  refine forall_congr' fun type => forall_congr' fun rd' => forall_congr' fun stop =>
    imp_congr_right fun hat => ?_
  obtain ⟨rfl, rfl, rfl⟩ : type = r.rtype ∧ rd' = rd ∧ stop = next := by
    simpa using hat.symm.trans hdata
  refine and_congr (imp_congr_right fun htype => ?_) (imp_congr_right fun htype => ?_)
  · rw [htype] at hyields
    exact nameEnds_iff (nameEnds_of_cname hyields)
  · rw [htype] at hyields
    exact twoNames_iff hstop (nameEnds_of_soa hyields)

/-! ## The records of a message -/

/-- The place behind `count` questions. -/
def questionsEnd (msg : List UInt8) (pos : Nat) : Nat → Option Nat
  | 0 => some pos
  | count + 1 => do
    let e ← skipName msg pos
    questionsEnd msg (e + 4) count

/-- The places of `count` records, each where the one before it says that it ends, and the place
    behind them. -/
def placesFrom (msg : List UInt8) (pos : Nat) : Nat → Option (List Nat × Nat)
  | 0 => some ([], pos)
  | count + 1 => do
    let (_, _, stop) ← dataAt msg pos
    let (places, e) ← placesFrom msg stop count
    return (pos :: places, e)

/-- The places of the answers and of the records of the authority. -/
def recordPlaces (msg : List UInt8) : Option (List Nat) := do
  let qd ← be16 msg 4
  let an ← be16 msg 6
  let ns ← be16 msg 8
  let pos ← questionsEnd msg HEADER_LEN qd.toNat
  let (answers, pos) ← placesFrom msg pos an.toNat
  let (authority, _) ← placesFrom msg pos ns.toNat
  return answers ++ authority

/-- The record is read at the place. -/
def ReadAt (msg : List UInt8) (pos : Nat) (r : Record) : Prop :=
  ∃ next, Yields (readRecord msg pos) (.ok (r, next))

/-- The questions that were passed over end at one place. -/
theorem questionsEnd_of_run {msg : List UInt8} {pos count e : Nat} {mem mem' : Mem}
    (h : (skipQuestions msg pos count).run mem = (.ok e, mem')) :
    questionsEnd msg pos count = some e := by
  induction count generalizing pos mem with
  | zero => exact congrArg some (Except.ok.inj (Prod.mk.inj h).1)
  | succ count ih =>
    rw [skipQuestions] at h
    obtain ⟨e', s, he', hrest⟩ := Method.run_bind_eq_ok.mp h
    rw [questionsEnd, (Method.run_okOr_eq_ok.mp he').1, Option.bind_eq_bind, Option.bind_some]
    exact ih hrest

/-- Records that were read in a row have their places. -/
private theorem placesFrom_of_run {msg : List UInt8} {pos count e : Nat} {out rs : List Record}
    {mem mem' : Mem} (h : (readRecords msg pos out count).run mem = (.ok (rs, e), mem')) :
    ∃ places rs', placesFrom msg pos count = some (places, e) ∧ rs = out ++ rs' ∧
      List.Forall₂ (ReadAt msg) places rs' := by
  -- the induction is on the count; the list read so far only grows at its end
  induction count generalizing pos out mem with
  | zero =>
    obtain ⟨rfl, rfl⟩ := Prod.mk.inj (Except.ok.inj (Prod.mk.inj h).1)
    exact ⟨[], [], rfl, (List.append_nil out).symm, .nil⟩
  | succ count ih =>
    rw [readRecords] at h
    obtain ⟨⟨r, next⟩, s, hr, h⟩ := Method.run_bind_eq_ok.mp h
    obtain ⟨_, s', -, h⟩ := Method.run_bind_eq_ok.mp h
    obtain ⟨places, rs', hplaces, rfl, hreads⟩ := ih h
    obtain ⟨rd, rdata, hdata, -⟩ := readRecord_eq_ok hr
    -- the place of this record stands first, with the record that was read from it
    refine ⟨pos :: places, r :: rs', ?_, ?_, .cons ?_ hreads⟩
    · simp only [placesFrom, hdata, hplaces, Option.bind_eq_bind, Option.bind_some,
        Option.pure_def]
    · simp only [List.append_assoc, List.singleton_append]
    · exact ⟨next, (readRecord_ends msg pos).yields_of_run hr⟩

/-- The records of a message that was read, each at its place. -/
theorem decode_places {msg : List UInt8} {m : Message} (h : Yields (decode msg) (.ok m)) :
    ∃ places, recordPlaces msg = some places ∧
      List.Forall₂ (ReadAt msg) places (m.answers ++ m.authority) := by
  -- with memory in plenty the run is the one that is looked at
  have hrun := h.ample
  rw [decode] at hrun
  -- the six numbers of the header, then the questions and the two sections
  obtain ⟨id, s₀, -, hrun⟩ := Method.run_bind_eq_ok.mp hrun
  obtain ⟨flags, s₁, -, hrun⟩ := Method.run_bind_eq_ok.mp hrun
  obtain ⟨ar, s₂, -, hrun⟩ := Method.run_bind_eq_ok.mp hrun
  obtain ⟨qd, s₃, hqd, hrun⟩ := Method.run_bind_eq_ok.mp hrun
  obtain ⟨an, s₄, han, hrun⟩ := Method.run_bind_eq_ok.mp hrun
  obtain ⟨ns, s₅, hns, hrun⟩ := Method.run_bind_eq_ok.mp hrun
  obtain ⟨pos, s₆, hpos, hrun⟩ := Method.run_bind_eq_ok.mp hrun
  obtain ⟨⟨answers, pos'⟩, s₇, hanswers, hrun⟩ := Method.run_bind_eq_ok.mp hrun
  obtain ⟨⟨authority, e⟩, s₈, hauthority, hrun⟩ := Method.run_bind_eq_ok.mp hrun
  obtain rfl := Except.ok.inj (Prod.mk.inj hrun).1
  obtain ⟨places, rs, hplaces, rfl, hreads⟩ := placesFrom_of_run hanswers
  obtain ⟨places', rs', hplaces', rfl, hreads'⟩ := placesFrom_of_run hauthority
  -- the places of the two sections, one behind the other
  refine ⟨places ++ places', ?_, ?_⟩
  · simp only [recordPlaces, (Method.run_okOr_eq_ok.mp hqd).1, (Method.run_okOr_eq_ok.mp han).1,
      (Method.run_okOr_eq_ok.mp hns).1, questionsEnd_of_run hpos, hplaces, hplaces',
      Option.bind_eq_bind, Option.bind_some, Option.pure_def]
  · exact List.rel_append hreads hreads'

/-- A place of a record that was read. -/
private theorem exists_readAt {msg : List UInt8} {places : List Nat} {rs : List Record}
    (h : List.Forall₂ (ReadAt msg) places rs) {pos : Nat} (hpos : pos ∈ places) :
    ∃ r, ReadAt msg pos r := by
  induction h with
  | nil => exact absurd hpos List.not_mem_nil
  | @cons p r places rs hread _ ih =>
    obtain rfl | hpos := List.mem_cons.mp hpos
    · exact ⟨r, hread⟩
    · exact ih hpos

/-- The data that is read from a message is the data of its records exactly when each CNAME
    record holds a name, and each SOA record two names and twenty bytes, and nothing more. -/
theorem decode_inside_iff {msg : List UInt8} {m : Message} (h : Yields (decode msg) (.ok m)) :
    ∃ places, recordPlaces msg = some places ∧
      List.Forall₂ (ReadAt msg) places (m.answers ++ m.authority) ∧
      ((∀ pos ∈ places, ReadsInside msg pos) ↔ ∀ pos ∈ places, FillsData msg pos) := by
  obtain ⟨places, hplaces, hreads⟩ := decode_places h
  refine ⟨places, hplaces, hreads, forall₂_congr fun pos hpos => ?_⟩
  obtain ⟨r, next, hread⟩ := exists_readAt hreads hpos
  exact readsInside_iff hread

/-- A message with a CNAME record without data in front of an A record of `a`. -/
def contradicting : List UInt8 :=
  [0, 0, 0x80, 0, 0, 0, 0, 1, 0, 1, 0, 0] ++ [0, 0, 5, 0, 1, 0, 0, 0, 0, 0, 0] ++
    [1, 0x61, 0, 0, 1, 0, 1, 0, 0, 0, 0, 0, 4, 10, 0, 0, 1]

/-- The records of that message on the wire. -/
def emptyCname : Dns.Record := ⟨[0], rtype.CNAME, CLASS_IN, 0, []⟩

/-- The record behind it. -/
def nextRecord : Dns.Record := ⟨[1, 0x61, 0], rtype.A, CLASS_IN, 0, [10, 0, 0, 1]⟩

/-- What stands at a place of that message. -/
private theorem hasAt_contradicting {pos : Nat} {xs : List UInt8}
    (h : xs.isPrefixOf (contradicting.drop pos) = true) : contradicting.HasAt pos xs :=
  List.isPrefixOf_iff_prefix.mp h

/-- The target that is reported is the name of the record behind. -/
private theorem decode_contradicting : Yields (decode contradicting)
    (.ok ⟨0, 0x8000, [⟨[dot], rtype.CNAME, 0, .cname (str "a.")⟩],
      [⟨str "a.", rtype.A, 0, .a ⟨10, 0, 0, 1⟩⟩], 0⟩) := by
  -- the empty owner name, and the name `a` behind the empty data
  have hroot : Yields (readName contradicting 12) (.ok ([dot], 13)) :=
    readName_wire Dns.legal_nil (by decide) (hasAt_contradicting (by decide)) (by decide)
  have hlegal : Dns.Legal [str "a"] := by decide
  have hname : Yields (readName contradicting 23) (.ok (str "a.", 26)) :=
    readName_wire hlegal (by decide +kernel) (hasAt_contradicting (by decide)) (by decide)
  -- the target is read at 23, where the data has ended, so it is the next record's name
  have htarget : Yields (readData contradicting rtype.CNAME 23 []) (.ok (.cname (str "a."))) := by
    unfold readData
    rw [if_neg (by decide), if_pos rfl]
    exact hname.bind (Computes.pure _)
  have hempty : contradicting.HasAt 12 emptyCname.bytes := hasAt_contradicting (by decide)
  have hcname : Yields (readRecord contradicting 12)
      (.ok (⟨[dot], rtype.CNAME, 0, .cname (str "a.")⟩, 23)) :=
    readRecord_yields hempty (by decide) hroot htarget
  have hbehind : contradicting.HasAt 23 nextRecord.bytes := hasAt_contradicting (by decide)
  have hnext : Yields (readRecord contradicting 23)
      (.ok (⟨str "a.", rtype.A, 0, .a ⟨10, 0, 0, 1⟩⟩, 40)) :=
    readRecord_yields hbehind (by decide) hname (Computes.pure _)
  have hanswers : Yields (readRecords contradicting 12 [] 1) _ :=
    hcname.bind (tryReserve_yields.bind (Computes.pure _))
  have hauthority : Yields (readRecords contradicting 23 [] 1) _ :=
    hnext.bind (tryReserve_yields.bind (Computes.pure _))
  -- the header is read field by field
  unfold decode
  refine (okOr_yields (a := 0) (by decide) _).bind ?_
  refine (okOr_yields (a := 0x8000) (by decide) _).bind ?_
  refine (okOr_yields (a := 0) (by decide) _).bind ?_
  refine (okOr_yields (a := 0) (by decide) _).bind ?_
  refine (okOr_yields (a := 1) (by decide) _).bind ?_
  refine (okOr_yields (a := 1) (by decide) _).bind ?_
  refine Computes.bind (a := 12) (Computes.pure _) ?_
  exact hanswers.bind (hauthority.bind (Computes.pure _))

/-- The message is accepted though its CNAME record has no data, and the name of the record
    behind it is reported as the target. -/
theorem contradicting_accepted :
    (∃ m, Yields (decode contradicting) (.ok m) ∧
      m.answers.map Record.data = [.cname (str "a.")]) ∧
    recordPlaces contradicting = some [12, 23] ∧
    dataAt contradicting 12 = some (rtype.CNAME, 23, 23) ∧ ¬ReadsInside contradicting 12 := by
  -- the first record's name ends at 13 and its data, of length zero, at 23
  have hroot : skipName contradicting 12 = some 13 :=
    skipName_of_hasAt .root (hasAt_contradicting (by decide))
  have hlegal : Dns.Legal [str "a"] := by decide
  have hname : skipName contradicting 23 = some 26 :=
    skipName_wire hlegal (hasAt_contradicting (by decide))
  have hdata : dataAt contradicting 12 = some (rtype.CNAME, 23, 23) := by
    rw [dataAt, hroot]
    decide
  have hdata' : dataAt contradicting 23 = some (rtype.A, 36, 40) := by
    rw [dataAt, hname]
    decide
  -- the one-record answer is read; the places and the data follow; the target is the name at 23
  refine ⟨⟨_, decode_contradicting, rfl⟩, ?_, hdata, fun hinside => ?_⟩
  · have hcounts : be16 contradicting 4 = some 0 ∧ be16 contradicting 6 = some 1 ∧
        be16 contradicting 8 = some 1 := by decide
    obtain ⟨hqd, han, hns⟩ := hcounts
    have hplaces : placesFrom contradicting 12 1 = some ([12], 23) := by
      rw [placesFrom, hdata]
      rfl
    have hplaces' : placesFrom contradicting 23 1 = some ([23], 40) := by
      rw [placesFrom, hdata']
      rfl
    rw [recordPlaces, hqd, han, hns]
    show ((placesFrom contradicting 12 1).bind fun p =>
      (placesFrom contradicting p.2 1).bind fun q => some (p.1 ++ q.1)) = _
    rw [hplaces, Option.bind_some, hplaces', Option.bind_some]
    exact rfl
  -- a target inside the data would have to end at 23, and the name that is read there ends at 26
  · have hends := ((hinside _ _ _ hdata).1 rfl).skipName
    rw [hname] at hends
    exact absurd hends (by decide)

/-- What is said of a message that was read holds of that one. -/
theorem decode_inside_iff_contradicting :
    ∃ places, recordPlaces contradicting = some places ∧
      List.Forall₂ (ReadAt contradicting) places
        [⟨[dot], rtype.CNAME, 0, .cname (str "a.")⟩, ⟨str "a.", rtype.A, 0, .a ⟨10, 0, 0, 1⟩⟩] ∧
      ((∀ pos ∈ places, ReadsInside contradicting pos) ↔
        ∀ pos ∈ places, FillsData contradicting pos) :=
  decode_inside_iff decode_contradicting

end HopDns

import HopDns.ForStd.Run
import HopDns.Native.Checked
import HopDns.Spec.DecodeCorrect
import HopDns.Spec.EdnsScan

/-!
# Reading ends

A pointer goes back, and the labels behind its target may lead to it again. What ends
the loop over a name is that it then grows: a turn makes the name longer, or leaves it
and goes back. And no sum on the way is larger than the message and a little.

## Key results

- `readNameFrom_turn`, `nameTurn_outcome`: the loop, and what one turn of it does
- `skipName_of_readName`: a name that is read ends where the one that is skipped does
- `Checked.decode_eq`: with checked sums the reader does the same
- `reading_ends`: every name and every message is read to an end
-/

namespace HopDns

open ForStd

/-! ## One turn of the loop -/

/-- Where the loop of `read_name` stands. -/
structure NameState where
  name : Str
  pos : Nat
  stop : Option Nat

/-- One turn of the loop: where it stands then, or the name and its end. -/
def nameTurn (msg : List UInt8) (s : NameState) : Fallible (NameState ⊕ Str × Nat) :=
  match msg[s.pos]? with
  | none => Method.throw .malformed
  | some b =>
    if b.toNat = 0 then
      if s.name.isEmpty then do
        tryReserve
        return .inr ([dot], s.stop.getD (s.pos + 1))
      else return .inr (s.name, s.stop.getD (s.pos + 1))
    else if b.toNat ≤ 63 then do
      let label ← Method.okOr (msg.getRange? (s.pos + 1) (s.pos + 1 + b.toNat)) .malformed
      tryReserve
      let longer := s.name ++ label.flatMap charFrom ++ [dot]
      if longer.length > NAME_MAX then Method.throw .malformed
      else return .inl ⟨longer, s.pos + 1 + b.toNat, s.stop⟩
    else if 0xC0 ≤ b.toNat then
      match be16 msg s.pos with
      | none => Method.throw .malformed
      | some v =>
        let target := (v &&& 0x3FFF).toNat
        if target ≥ s.pos then Method.throw .malformed
        else return .inl ⟨s.name, target, some (s.stop.getD (s.pos + 2))⟩
    else Method.throw .malformed

/-- The loop from where it stands, or what it came to. -/
def goOn (msg : List UInt8) : NameState ⊕ Str × Nat → Fallible (Str × Nat)
  | .inl s => readNameFrom msg s.name s.pos s.stop
  | .inr r => pure r

/-- The loop is one turn after another. -/
theorem readNameFrom_turn (msg : List UInt8) (s : NameState) :
    readNameFrom msg s.name s.pos s.stop = nameTurn msg s >>= goOn msg := by
  -- both sides take the same branches; where the loop goes on, the turn hands over its state
  rw [readNameFrom, nameTurn]
  cases msg[s.pos]? with
  | none => rfl
  | some b =>
    dsimp only
    split
    · split
      · simp only [bind_assoc, pure_bind, goOn]
      · rfl
    -- a label, with its three ways to fail
    · split
      · simp only [bind_assoc]
        refine bind_congr fun label => bind_congr fun _ => ?_
        split
        · rfl
        · rfl
      -- a pointer, which has to lead back
      · split
        · cases be16 msg s.pos with
          | none => rfl
          | some v =>
            dsimp only
            split
            · rfl
            · rfl
        · rfl

/-- The turns that do not end the loop: a label is added to the name, or a pointer is followed
    back. -/
inductive Turn (msg : List UInt8) : NameState → NameState → Prop
  | label {s : NameState} {b : UInt8} {l : Str} (hb : msg[s.pos]? = some b) (hzero : b.toNat ≠ 0)
      (hmax : b.toNat ≤ 63) (hl : msg.getRange? (s.pos + 1) (s.pos + 1 + b.toNat) = some l)
      (hfits : (s.name ++ l.flatMap charFrom ++ [dot]).length ≤ NAME_MAX) :
      Turn msg s ⟨s.name ++ l.flatMap charFrom ++ [dot], s.pos + 1 + b.toNat, s.stop⟩
  | pointer {s : NameState} {b : UInt8} {v : UInt16} (hb : msg[s.pos]? = some b)
      (hptr : 0xC0 ≤ b.toNat) (hv : be16 msg s.pos = some v)
      (hback : (v &&& 0x3FFF).toNat < s.pos) :
      Turn msg s ⟨s.name, (v &&& 0x3FFF).toNat, some (s.stop.getD (s.pos + 2))⟩

/-- What a turn comes to. -/
inductive TurnOutcome (msg : List UInt8) (s : NameState) :
    Except Error (NameState ⊕ Str × Nat) → Prop
  | malformed : TurnOutcome msg s (.error .malformed)
  | ends (hb : msg[s.pos]? = some 0) :
      TurnOutcome msg s
        (.ok (.inr (if s.name = [] then [dot] else s.name, s.stop.getD (s.pos + 1))))
  | turn {s' : NameState} (h : Turn msg s s') : TurnOutcome msg s (.ok (.inl s'))

/-- A turn of the loop ends, whatever the bytes are: in malformed ones, with the name, or before
    another turn. -/
theorem nameTurn_outcome (msg : List UInt8) (s : NameState) :
    ∃ o, Yields (nameTurn msg s) o ∧ TurnOutcome msg s o := by
  unfold nameTurn
  cases hb : msg[s.pos]? with
  -- no byte stands at the place
  | none => exact ⟨_, Computes.throw _, .malformed⟩
  | some b =>
    dsimp only
    split
    -- the empty label
    · rename_i hzero
      obtain rfl := eq_zero_of_toNat hzero
      have hends := TurnOutcome.ends (s := s) hb
      split
      · rename_i hempty
        rw [if_pos (List.isEmpty_iff.mp hempty)] at hends
        exact ⟨_, tryReserve_yields.bind (Computes.pure _), hends⟩
      · rename_i hfull
        rw [if_neg (by simpa using hfull)] at hends
        exact ⟨_, Computes.pure _, hends⟩
    -- a byte that starts a label, a pointer or nothing
    · rename_i hzero
      split
      · rename_i hmax
        cases hl : msg.getRange? (s.pos + 1) (s.pos + 1 + b.toNat) with
        | none => exact ⟨_, Computes.bind_error (Computes.okOr none _), .malformed⟩
        | some l =>
          by_cases hfits : (s.name ++ l.flatMap charFrom ++ [dot]).length > NAME_MAX
          · refine ⟨.error .malformed, (okOr_yields rfl _).bind (tryReserve_yields.bind ?_),
              .malformed⟩
            rw [if_pos hfits]
            exact Computes.throw _
          · refine ⟨_, (okOr_yields rfl _).bind (tryReserve_yields.bind ?_),
              .turn (.label hb hzero hmax hl (Nat.le_of_not_lt hfits))⟩
            rw [if_neg hfits]
            exact Computes.pure _
      -- the byte is a pointer's, or it has one of the two reserved forms
      · split
        · rename_i hptr
          cases hv : be16 msg s.pos with
          | none => exact ⟨_, Computes.throw _, .malformed⟩
          | some v =>
            dsimp only
            split
            · exact ⟨_, Computes.throw _, .malformed⟩
            · rename_i hback
              exact ⟨_, Computes.pure _, .turn (.pointer hb hptr hv (Nat.lt_of_not_le hback))⟩
        · exact ⟨_, Computes.throw _, .malformed⟩

/-- What a turn returned is what it comes to. -/
theorem outcome_of_run {msg : List UInt8} {s : NameState} {mem mem' : Mem}
    {o : NameState ⊕ Str × Nat} (h : (nameTurn msg s).run mem = (.ok o, mem')) :
    TurnOutcome msg s (.ok o) := by
  obtain ⟨o', hyields, hout⟩ := nameTurn_outcome msg s
  exact hyields.eq_of_ok h ▸ hout

/-- A turn makes the name longer by two bytes at least, or leaves it and goes back. -/
private theorem Turn.longer_or_back {msg : List UInt8} {s s' : NameState}
    (h : Turn msg s s') :
    s.name.length + 2 ≤ s'.name.length ∨ s'.name = s.name ∧ s'.pos < s.pos := by
  cases h with
  | @label b l hb hzero hmax hl hfits =>
    left
    have hlen := List.length_getRange? hl
    obtain ⟨a, rest, rfl⟩ := List.exists_cons_of_ne_nil
      (List.ne_nil_of_length_pos (show 0 < l.length by omega))
    have hchar := charFrom_length a
    simp only [List.length_append, List.flatMap_cons, List.length_singleton]
    omega
  | pointer hb hptr hv hback => exact .inr ⟨rfl, hback⟩

/-- What is left to read: the room in the name first, and the place second. -/
def NameState.left (msg : List UInt8) (s : NameState) : Nat :=
  (NAME_MAX - s.name.length) * (msg.length + 65) + s.pos

/-- Every turn leaves less to read. -/
theorem Turn.left_lt {msg : List UInt8} {s s' : NameState} (h : Turn msg s s') :
    s'.left msg < s.left msg := by
  have hgrows := h.longer_or_back
  unfold NameState.left
  -- a label is paid for by the room left for the name, a pointer by the place
  cases h with
  | @label b l hb hzero hmax hl hfits =>
    have hlt := (List.getElem?_eq_some_iff.mp hb).1
    -- a longer name makes up for the place behind the label
    have hroom : NAME_MAX - (s.name ++ l.flatMap charFrom ++ [dot]).length + 1 ≤
        NAME_MAX - s.name.length := by
      obtain hlong | ⟨-, hback⟩ := hgrows
      · simp only at hlong
        omega
      · simp only at hback
        omega
    have hmul := Nat.mul_le_mul_right (msg.length + 65) hroom
    rw [Nat.add_mul, Nat.one_mul] at hmul
    simp only
    omega
  | pointer hb hptr hv hback =>
    simp only
    omega

/-- The loop comes to a name of at most 255 bytes, or to an error. -/
private theorem readNameFrom_ends (msg : List UInt8) (s : NameState)
    (hs : s.name.length ≤ NAME_MAX) :
    ∃ r, Yields (readNameFrom msg s.name s.pos s.stop) r ∧
      (r = .error .malformed ∨ ∃ name e, r = .ok (name, e) ∧ name.length ≤ NAME_MAX) := by
  -- the induction is on what is left, which every turn makes smaller
  induction hn : s.left msg using Nat.strongRecOn generalizing s with
  | ind n ih =>
    rw [readNameFrom_turn]
    obtain ⟨o, hyields, hout⟩ := nameTurn_outcome msg s
    -- malformed, the end of the name, or another turn on a name that still fits
    cases hout with
    | malformed => exact ⟨_, hyields.bind_error, .inl rfl⟩
    | ends hb =>
      refine ⟨_, hyields.bind (Computes.pure _), .inr ⟨_, _, rfl, ?_⟩⟩
      split
      · decide
      · exact hs
    | @turn s' h =>
      have hs' : s'.name.length ≤ NAME_MAX := by
        cases h with
        | label hb hzero hmax hl hfits => exact hfits
        | pointer hb hptr hv hback => exact hs
      obtain ⟨r, hr, hcases⟩ := ih _ (hn ▸ h.left_lt) s' hs' rfl
      exact ⟨r, hyields.bind hr, hcases⟩

/-! ## The end of a name -/

/-- Once a pointer was followed the end is behind the first one; before that it is where the
    name that is skipped ends. -/
private theorem end_of_readNameFrom {msg : List UInt8} (s : NameState) {name : Str} {e : Nat}
    {mem mem' : Mem} (h : (readNameFrom msg s.name s.pos s.stop).run mem = (.ok (name, e), mem')) :
    s.stop.or (skipName msg s.pos) = some e := by
  -- the induction is again on what is left
  induction hn : s.left msg using Nat.strongRecOn generalizing s mem with
  | ind n ih =>
    rw [readNameFrom_turn] at h
    obtain ⟨o, mem₁, hturn, hrest⟩ := Method.run_bind_eq_ok.mp h
    cases outcome_of_run hturn with
    -- the empty label ends the name where a skip of it ends
    | ends hb =>
      obtain ⟨heq, -⟩ := Prod.mk.inj hrest
      obtain ⟨-, rfl⟩ := Prod.mk.inj (Except.ok.inj heq)
      rw [skipName_some hb, if_pos UInt8.toNat_zero]
      cases s.stop <;> rfl
    -- the rest ends where the rest of a skip does, or behind the first pointer
    | @turn s' hstep =>
      have hend := ih _ (hn ▸ hstep.left_lt) s' hrest rfl
      cases hstep with
      | label hb hzero hmax hl hfits =>
        rw [skipName_some hb, if_neg hzero, if_pos hmax]
        exact hend
      -- the first pointer sets the end, and a later one does not move it
      | pointer hb hptr hv hback =>
        have hstop : s.stop.getD (s.pos + 2) = e := Option.some.inj hend
        -- the second byte of the pointer is there
        obtain ⟨b₁, hb₁⟩ : ∃ b₁, msg[s.pos + 1]? = some b₁ := by
          have hat := be16_eq_some.mp hv
          simp only [UInt16.toBytesBE, List.hasAt_cons] at hat
          exact ⟨_, hat.2.1⟩
        rw [skipName_some hb, if_neg (by omega), if_neg (by omega), if_pos hptr, hb₁]
        cases hs : s.stop with
        | none => rw [← hstop, hs]; rfl
        | some stop => rw [← hstop, hs]; rfl

/-- A name that is read ends where the one that is skipped does. -/
theorem skipName_of_readName {msg : List UInt8} {pos : Nat} {name : Str} {e : Nat} {mem mem' : Mem}
    (h : (readName msg pos).run mem = (.ok (name, e), mem')) : skipName msg pos = some e :=
  end_of_readNameFrom ⟨[], pos, none⟩ h

/-- A name ends within the message. -/
theorem skipName_le {msg : List UInt8} {pos e : Nat} (h : skipName msg pos = some e) :
    e ≤ msg.length := by
  obtain ⟨owner, hname, hat, rfl⟩ := skipName_eq_some.mp h
  exact hat.length_le (Nat.le_of_lt (hat.lt hname.ne_nil))

/-! ## Every outcome -/

/-- The function comes to an end: with a value, or with a malformed message. -/
def Ends {α : Type} (x : Fallible α) : Prop :=
  ∃ r, Yields x r ∧ (r = .error .malformed ∨ ∃ a, r = .ok a)

namespace Ends

variable {α β : Type}

theorem pure (a : α) : Ends (Pure.pure a) := ⟨_, Computes.pure a, .inr ⟨a, rfl⟩⟩

theorem throw : Ends (Method.throw .malformed : Fallible α) := ⟨_, Computes.throw _, .inl rfl⟩

theorem okOr (o : Option α) : Ends (Method.okOr o .malformed) := by
  cases o with
  | none => exact throw
  | some a => exact pure a

/-- What follows an end ends where each of its continuations does. -/
theorem bind {x : Fallible α} {f : α → Fallible β} (hx : Ends x) (hf : ∀ a, Ends (f a)) :
    Ends (x >>= f) := by
  obtain ⟨r, hyields, rfl | ⟨a, rfl⟩⟩ := hx
  · exact ⟨_, hyields.bind_error, .inl rfl⟩
  · obtain ⟨r, hr, hcases⟩ := hf a
    exact ⟨r, hyields.bind hr, hcases⟩

end Ends

/-- A name is read, or its bytes are malformed. -/
theorem readName_ends (msg : List UInt8) (pos : Nat) : Ends (readName msg pos) := by
  obtain ⟨r, hr, hbad | ⟨name, e, hok, -⟩⟩ :=
    readNameFrom_ends msg ⟨[], pos, none⟩ (Nat.zero_le _)
  · exact ⟨r, hr, .inl hbad⟩
  · exact ⟨r, hr, .inr ⟨_, hok⟩⟩

/-- The data of a record are read, or their bytes are malformed. -/
theorem readData_ends (msg : List UInt8) (type : UInt16) (rd : Nat) (rdata : List UInt8) :
    Ends (readData msg type rd rdata) := by
  unfold readData
  -- one case for each kind of data; the names and the numbers all end
  split
  · split
    · exact Ends.pure _
    · exact Ends.throw
  · split
    · exact (readName_ends msg rd).bind fun _ => Ends.pure _
    · split
      -- five numbers behind the two names
      · have hfield := fun i p => Ends.okOr (be32 msg (p + 4 * i))
        refine (readName_ends msg rd).bind fun (_, p) => ?_
        refine (readName_ends msg p).bind fun (_, p) => ?_
        refine (hfield 0 p).bind fun _ => (hfield 1 p).bind fun _ => ?_
        refine (hfield 2 p).bind fun _ => (hfield 3 p).bind fun _ => ?_
        exact (hfield 4 p).bind fun _ => Ends.pure _
      · exact Ends.pure _

/-- A record is read, or its bytes are malformed. -/
theorem readRecord_ends (msg : List UInt8) (pos : Nat) : Ends (readRecord msg pos) := by
  rw [readRecord_eq]
  refine (readName_ends msg pos).bind fun (_, pos) => ?_
  refine (Ends.okOr _).bind fun _ => (Ends.okOr _).bind fun _ => ?_
  refine (Ends.okOr _).bind fun _ => (Ends.okOr _).bind fun _ => ?_
  exact (readData_ends msg _ _ _).bind fun _ => Ends.pure _

/-- The questions are passed over, or their bytes are malformed. -/
private theorem skipQuestions_ends (msg : List UInt8) (pos count : Nat) :
    Ends (skipQuestions msg pos count) := by
  induction count generalizing pos with
  | zero => exact Ends.pure pos
  | succ count ih => exact (Ends.okOr _).bind fun e => ih (e + 4)

/-- Records are read one after the other, or the bytes of one of them are malformed. -/
private theorem readRecords_ends (msg : List UInt8) (pos : Nat) (out : List Record) (count : Nat) :
    Ends (readRecords msg pos out count) := by
  induction count generalizing pos out with
  | zero => exact Ends.pure _
  | succ count ih =>
    refine (readRecord_ends msg pos).bind fun (record, next) => ?_
    exact Ends.bind ⟨_, tryReserve_yields, .inr ⟨(), rfl⟩⟩ fun _ => ih next _

/-- Every message is read to its end, or is malformed. -/
theorem decode_ends (msg : List UInt8) : Ends (decode msg) := by
  unfold decode
  refine (Ends.okOr _).bind fun _ => (Ends.okOr _).bind fun _ => ?_
  refine (Ends.okOr _).bind fun _ => (Ends.okOr _).bind fun qd => ?_
  refine (Ends.okOr _).bind fun an => (Ends.okOr _).bind fun ns => ?_
  refine (skipQuestions_ends msg _ _).bind fun pos => ?_
  refine (readRecords_ends msg pos [] _).bind fun (_, pos) => ?_
  exact (readRecords_ends msg pos [] _).bind fun _ => Ends.pure _

/-! ## Checked sums -/

namespace Checked

/-- The run of a function, as one whose sums are checked. -/
def lift {α : Type} (x : Fallible α) : Checked α := Method.mapError Fault.error x

private theorem lift_pure {α : Type} (a : α) : lift (pure a) = pure a := rfl

private theorem lift_throw {α : Type} (e : Error) :
    lift (Method.throw e : Fallible α) = Method.throw (.error e) := rfl

/-- The steps of a method are taken one by one where arithmetic may fault. -/
private theorem lift_bind {α β : Type} (x : Fallible α) (g : α → Fallible β) :
    lift (x >>= g) = lift x >>= fun a => lift (g a) := Method.mapError_bind Fault.error x g

/-- A method without faults comes to a value with the machine's arithmetic exactly when it does
    without. -/
private theorem run_lift_eq_ok {α : Type} {x : Fallible α} {mem mem' : Mem} {a : α} :
    (lift x).run mem = (.ok a, mem') ↔ x.run mem = (.ok a, mem') := by
  rw [lift, Method.run_mapError]
  rcases x.run mem with ⟨_ | _, _⟩
  · simp [Except.mapError]
  · simp [Except.mapError]

private theorem lift_okOr {α : Type} (o : Option α) :
    lift (Method.okOr o .malformed) = Method.okOr o (.error .malformed) := by
  cases o <;> rfl

private theorem lift_tryReserve : lift HopDns.tryReserve = tryReserve := by
  funext mem
  rcases mem with _ | ⟨_ | _, mem⟩ <;> rfl

/-- A name that was read ends within the message. -/
private theorem place_of_readName {msg : List UInt8} {pos e : Nat} {name : Str} {mem mem' : Mem}
    (h : (lift (HopDns.readName msg pos)).run mem = (.ok (name, e), mem')) : e ≤ msg.length :=
  skipName_le (skipName_of_readName (run_lift_eq_ok.mp h))

private theorem add_of_lt {w a b : Nat} (h : a + b < 2 ^ w) : add w a b = pure (a + b) := if_pos h

section

variable {w : Nat} {msg : List UInt8} (hroom : msg.length + 2 ^ 31 ≤ 2 ^ w)
include hroom

/-- What is added to a place in the message does not lead past the end of the numbers. -/
private theorem add_place {pos k : Nat} (hpos : pos ≤ msg.length) (hk : k < 2 ^ 31) :
    add w pos k = pure (pos + k) := add_of_lt (by omega)

/-- The two bytes of a number are at places a word can hold. -/
theorem be16_eq (pos : Nat) : be16 w msg pos = pure (HopDns.be16 msg pos) := by
  unfold be16 HopDns.be16
  cases hb : msg[pos]? with
  | none => rfl
  | some b =>
    have hlt := (List.getElem?_eq_some_iff.mp hb).1
    dsimp only
    rw [add_place hroom (Nat.le_of_lt hlt) (by decide), pure_bind]
    cases msg[pos + 1]? <;> rfl

/-- So are its four. -/
private theorem be32_eq (pos : Nat) : be32 w msg pos = pure (HopDns.be32 msg pos) := by
  unfold be32 HopDns.be32
  -- each of the four places is one number further, which the word has room for
  cases hb : msg[pos]? with
  | none => rfl
  | some b =>
    have hle := Nat.le_of_lt (List.getElem?_eq_some_iff.mp hb).1
    dsimp only
    rw [add_place hroom hle (by decide), pure_bind]
    cases msg[pos + 1]? with
    | none => rfl
    | some b₁ =>
      dsimp only
      rw [add_place hroom hle (by decide), pure_bind]
      cases msg[pos + 2]? with
      | none => rfl
      | some b₂ =>
        dsimp only
        rw [add_place hroom hle (by decide), pure_bind]
        cases msg[pos + 3]? <;> rfl

/-- The checked search for the end of a name never overflows, and finds the same end. -/
private theorem skipName_eq (pos : Nat) : skipName w msg pos = pure (HopDns.skipName msg pos) := by
  -- one case for each branch of the unchecked loop, whose sums all stay in the word
  fun_induction HopDns.skipName msg pos with
  | case1 pos hb => rw [skipName, hb]
  | case2 pos b hb hzero =>
    have hle := Nat.le_of_lt (List.getElem?_eq_some_iff.mp hb).1
    rw [skipName, hb]
    dsimp only
    rw [if_pos hzero, add_place hroom hle (by decide), pure_bind]
  | case3 pos b hb hzero hmax ih =>
    have hle := Nat.le_of_lt (List.getElem?_eq_some_iff.mp hb).1
    rw [skipName, hb]
    dsimp only
    rw [if_neg hzero, if_pos hmax, add_of_lt (show 1 + b.toNat < 2 ^ w by omega), pure_bind,
      add_place hroom hle (by omega), pure_bind, ih]
  | case4 pos b hb hzero hmax hptr hb₁ =>
    have hle := Nat.le_of_lt (List.getElem?_eq_some_iff.mp hb).1
    rw [skipName, hb]
    dsimp only
    rw [if_neg hzero, if_neg hmax, if_pos hptr, add_place hroom hle (by decide), pure_bind, hb₁]
  | case5 pos b hb hzero hmax hptr b₁ hb₁ =>
    have hle := Nat.le_of_lt (List.getElem?_eq_some_iff.mp hb).1
    rw [skipName, hb]
    dsimp only
    rw [if_neg hzero, if_neg hmax, if_pos hptr, add_place hroom hle (by decide), pure_bind, hb₁]
    dsimp only
    rw [add_place hroom hle (by decide), pure_bind]
  | case6 pos b hb hzero hmax hptr =>
    rw [skipName, hb]
    dsimp only
    rw [if_neg hzero, if_neg hmax, if_neg hptr]

/-- The checked loop over the labels of a name never overflows, and it reads the same. -/
private theorem readNameFrom_eq (name : Str) (pos : Nat) (stop : Option Nat) :
    readNameFrom w msg name pos stop = lift (HopDns.readNameFrom msg name pos stop) := by
  -- the checked loop takes the branches of the unchecked one
  fun_induction HopDns.readNameFrom msg name pos stop with
  | case1 name pos stop hb => rw [readNameFrom, hb]; rfl
  | case2 name pos stop b hb hzero hempty =>
    have hle := Nat.le_of_lt (List.getElem?_eq_some_iff.mp hb).1
    rw [readNameFrom, hb]
    dsimp only
    rw [if_pos hzero, if_pos hempty, add_place hroom hle (by decide), lift_bind, lift_tryReserve]
    simp only [pure_bind, lift_pure]
  | case3 name pos stop b hb hzero hfull =>
    have hle := Nat.le_of_lt (List.getElem?_eq_some_iff.mp hb).1
    rw [readNameFrom, hb]
    dsimp only
    rw [if_pos hzero, if_neg hfull, add_place hroom hle (by decide), pure_bind, lift_pure]
  | case4 name pos stop b hb hzero hmax ih =>
    have hle := Nat.le_of_lt (List.getElem?_eq_some_iff.mp hb).1
    rw [readNameFrom, hb]
    dsimp only
    rw [if_neg hzero, if_pos hmax, add_place hroom hle (by decide), pure_bind,
      add_of_lt (show pos + 1 + b.toNat < 2 ^ w by omega), pure_bind, lift_bind, lift_okOr]
    -- the label that was read bounds its length byte
    refine Method.bind_congr_run fun label _ _ hlabel => ?_
    have hlen := List.length_getRange? (Method.run_okOr_eq_ok.mp hlabel).1
    rw [add_of_lt (show label.length + 1 < 2 ^ w by omega), pure_bind, lift_bind, lift_tryReserve]
    refine bind_congr fun _ => ?_
    split
    · rfl
    · rename_i hfits
      rw [add_of_lt (show 1 + b.toNat < 2 ^ w by omega), pure_bind,
        add_of_lt (show pos + (1 + b.toNat) < 2 ^ w by omega), pure_bind]
      exact ih label hfits
  | case5 name pos stop b hb hzero hmax hptr hv =>
    rw [readNameFrom, hb]
    dsimp only
    rw [if_neg hzero, if_neg hmax, if_pos hptr, be16_eq hroom, pure_bind, hv, lift_throw]
  | case6 name pos stop b hb hzero hmax hptr v hv target hback =>
    rw [readNameFrom, hb]
    dsimp only
    rw [if_neg hzero, if_neg hmax, if_pos hptr, be16_eq hroom, pure_bind, hv]
    dsimp only
    rw [dif_pos hback, lift_throw]
  | case7 name pos stop b hb hzero hmax hptr v hv target hback ih =>
    have hle := Nat.le_of_lt (List.getElem?_eq_some_iff.mp hb).1
    rw [readNameFrom, hb]
    dsimp only
    rw [if_neg hzero, if_neg hmax, if_pos hptr, be16_eq hroom, pure_bind, hv]
    dsimp only
    rw [dif_neg hback, add_place hroom hle (by decide), pure_bind]
    exact ih
  | case8 name pos stop b hb hzero hmax hptr =>
    rw [readNameFrom, hb]
    dsimp only
    rw [if_neg hzero, if_neg hmax, if_neg hptr, lift_throw]

/-- The checked reader of names reads what the other reads. -/
private theorem readName_eq (pos : Nat) : readName w msg pos = lift (HopDns.readName msg pos) :=
  readNameFrom_eq hroom [] pos none

/-- A number that must be there is asked for alike on both sides. -/
private theorem need_be16 (pos : Nat) :
    need (be16 w msg pos) = lift (Method.okOr (HopDns.be16 msg pos) .malformed) := by
  rw [need, be16_eq hroom, pure_bind, lift_okOr]

private theorem need_be32 (pos : Nat) :
    need (be32 w msg pos) = lift (Method.okOr (HopDns.be32 msg pos) .malformed) := by
  rw [need, be32_eq hroom, pure_bind, lift_okOr]

/-- A field of the SOA record behind a name that was read. -/
private theorem field_eq {p : Nat} (hp : p ≤ msg.length) {i : Nat} (hi : i < 5) :
    (do let field ← add w p (4 * i); need (be32 w msg field)) =
      lift (Method.okOr (HopDns.be32 msg (p + 4 * i)) .malformed) := by
  rw [add_place hroom hp (by omega), pure_bind, need_be32 hroom]

/-- The checked reader of the data of a record reads what the other reads. -/
private theorem readData_eq (type : UInt16) (rd : Nat) (rdata : List UInt8) :
    readData w msg type rd rdata = lift (HopDns.readData msg type rd rdata) := by
  unfold readData HopDns.readData
  split
  -- the four bytes of an address; no sum is made
  · rcases rdata with _ | ⟨a, _ | ⟨b, _ | ⟨c, _ | ⟨d, _ | ⟨e, rest⟩⟩⟩⟩⟩ <;> rfl
  · split
    · rw [readName_eq hroom, lift_bind]
      rfl
    · split
      -- the second name starts at a place inside the message
      · rw [readName_eq hroom, lift_bind]
        refine bind_congr fun (mname, p) => ?_
        dsimp only
        rw [readName_eq hroom, lift_bind]
        refine Method.bind_congr_run fun (rname, p) s s' hname => ?_
        dsimp only
        have hp := place_of_readName hname
        rw [field_eq hroom hp (by decide), field_eq hroom hp (by decide),
          field_eq hroom hp (by decide), field_eq hroom hp (by decide),
          field_eq hroom hp (by decide)]
        simp only [lift_bind, lift_pure]
      · rfl

/-- The checked reader of records reads what the other reads. -/
theorem readRecord_eq (pos : Nat) : readRecord w msg pos = lift (HopDns.readRecord msg pos) := by
  rw [HopDns.readRecord_eq, readRecord, readName_eq hroom, lift_bind]
  refine Method.bind_congr_run fun (name, pos) s s' hname => ?_
  -- the name ends in the message, so the next sums have room
  have hpos := place_of_readName hname
  dsimp only
  rw [need_be16 hroom, lift_bind]
  refine bind_congr fun type => ?_
  rw [add_place hroom hpos (by decide), pure_bind, need_be32 hroom, lift_bind]
  refine bind_congr fun ttl => ?_
  rw [add_place hroom hpos (by decide), pure_bind, need_be16 hroom, lift_bind]
  refine bind_congr fun rdlen => ?_
  -- the length of the data has 16 bits, so its end is a number, in the message or not
  have hrdlen := rdlen.toNat_lt
  rw [add_place hroom hpos (by decide), pure_bind,
    add_of_lt (show pos + 10 + rdlen.toNat < 2 ^ w by omega), pure_bind, lift_bind, lift_okOr]
  refine bind_congr fun rdata => ?_
  rw [readData_eq hroom, lift_bind]
  refine bind_congr fun data => ?_
  rw [pure_bind, lift_pure]

/-- The checked loop over the questions passes over the same bytes. -/
private theorem skipQuestions_eq (pos count : Nat) :
    skipQuestions w msg pos count = lift (HopDns.skipQuestions msg pos count) := by
  induction count generalizing pos with
  | zero => rfl
  | succ count ih =>
    rw [skipQuestions, HopDns.skipQuestions, need, skipName_eq hroom, pure_bind, lift_bind,
      lift_okOr]
    refine Method.bind_congr_run fun e s s' he => ?_
    have hle := skipName_le (Method.run_okOr_eq_ok.mp he).1
    rw [add_place hroom hle (by decide), pure_bind, ih]

/-- The checked loop over the records reads the same records. -/
private theorem readRecords_eq (pos : Nat) (out : List Record) (count : Nat) :
    readRecords w msg pos out count = lift (HopDns.readRecords msg pos out count) := by
  induction count generalizing pos out with
  | zero => rfl
  | succ count ih =>
    rw [readRecords, HopDns.readRecords, readRecord_eq hroom, lift_bind]
    refine bind_congr fun r => ?_
    obtain ⟨record, next⟩ := r
    dsimp only
    rw [lift_bind, lift_tryReserve]
    exact bind_congr fun _ => ih next _

/-- With checked sums the reader does what it does without. -/
theorem decode_eq : decode w msg = lift (HopDns.decode msg) := by
  unfold decode HopDns.decode
  simp only [need_be16 hroom, skipQuestions_eq hroom, readRecords_eq hroom, lift_bind, lift_pure]

end

end Checked

/-! ## Reading as a whole -/

/-- The loop makes a turn that does not end it. -/
def Iterates (msg : List UInt8) (s : NameState) (_ : Unit) (s' : NameState) : Prop :=
  ∃ mem mem', (nameTurn msg s).run mem = (.ok (.inl s'), mem')

/-- An iteration of the checked loop is a turn of the one above. -/
theorem Iterates.turn {msg : List UInt8} {s s' : NameState} {l : Unit} (h : Iterates msg s l s') :
    Turn msg s s' := by
  obtain ⟨mem, mem', hrun⟩ := h
  cases outcome_of_run hrun with
  | turn h => exact h

/-- Every name and every message is read to an end. The loop over a name makes it longer by
    two bytes in a turn or goes back, so its turns are bounded, though it may come to the same
    pointer again; and with sums that are checked on `w` bits, of which a slice has half the
    numbers at most, the reader does the same, so that none overflows. -/
theorem reading_ends :
    (∀ msg pos, ∃ r, Yields (readName msg pos) r ∧
      (r = .error .malformed ∨ ∃ name e, r = .ok (name, e) ∧ name.length ≤ 255)) ∧
    (∀ msg s, readNameFrom msg s.name s.pos s.stop = nameTurn msg s >>= goOn msg) ∧
    (∀ msg s l s', Iterates msg s l s' →
      s.name.length + 2 ≤ s'.name.length ∨ s'.name = s.name ∧ s'.pos < s.pos) ∧
    (∀ msg pos ls s, Run (Iterates msg) ⟨[], pos, none⟩ ls s →
      ls.length ≤ 255 * (msg.length + 65) + pos) ∧
    (∃ msg s, Run (Iterates msg) ⟨[], 2, none⟩ [(), ()] s ∧ s.pos = 2) ∧
    (∀ msg, ∃ r, Yields (decode msg) r ∧ (r = .error .malformed ∨ ∃ m, r = .ok m)) ∧
    ∀ w msg, 32 ≤ w → msg.length < 2 ^ (w - 1) →
      (∀ pos, Checked.readName w msg pos = Checked.lift (readName msg pos)) ∧
      Checked.decode w msg = Checked.lift (decode msg) ∧
      ∀ mem, ((Checked.decode w msg).run mem).1 ≠ .error .overflow := by
  refine ⟨fun msg pos => readNameFrom_ends msg ⟨[], pos, none⟩ (Nat.zero_le _),
    readNameFrom_turn, fun msg s l s' h => h.turn.longer_or_back, ?_, ?_, decode_ends, ?_⟩
  -- every turn makes what is left smaller, and this is what is left at the start
  · intro msg pos ls s hrun
    have hle := hrun.length_le (μ := NameState.left msg) fun s l t h => h.turn.left_lt
    have hleft : NameState.left msg ⟨[], pos, none⟩ = 255 * (msg.length + 65) + pos := rfl
    omega
  · -- a pointer to the label before it
    let msg : List UInt8 := [1, 0x61, 0xC0, 0x00]
    have hback : Iterates msg ⟨[], 2, none⟩ () ⟨[], 0, some 4⟩ := ⟨[], [], rfl⟩
    have hlabel : Iterates msg ⟨[], 0, some 4⟩ () ⟨[0x61, dot], 2, some 4⟩ := ⟨[], [], rfl⟩
    exact ⟨msg, _, .cons hback (.cons hlabel (.nil _)), rfl⟩
  · intro w msg hw hlen
    -- a message under half of the word leaves room for every sum that is made
    have hroom : msg.length + 2 ^ 31 ≤ 2 ^ w := by
      have hhalf : 2 ^ 31 ≤ 2 ^ (w - 1) := Nat.pow_le_pow_right (by decide) (by omega)
      have htwice : 2 ^ w = 2 ^ (w - 1) * 2 := by
        rw [← Nat.pow_succ, show (w - 1).succ = w by omega]
      omega
    refine ⟨Checked.readName_eq hroom, Checked.decode_eq hroom, fun mem => ?_⟩
    -- without an overflow the two readers fail together
    rw [Checked.decode_eq hroom, Checked.lift, Method.run_mapError]
    cases ((decode msg).run mem).1 with
    | ok m => exact nofun
    | error e => exact nofun

end HopDns

import HopDns.ForStd.DnsPointer
import HopDns.Spec.ReadEnds

/-!
# A name is read as the one that stands there

`read_name` follows pointers, wherever they lead back to. What it returns is the one name
that the message has at the place, character by character, and the end of what stands at
the place itself; where there is no such name, or none that is short enough, the message is
malformed.

## Key results

- `named_of_run`, `readNameFrom_named`: the loop against the name at its place
- `readName_exact`: what is read is what stands there
-/

namespace HopDns

open ForStd

/-- The labels as `read_name` returns them; the root is a dot alone. -/
def readText (labels : List Str) : Str := if labels = [] then [dot] else fullText labels

/-- There is a name at a place whose text is short enough, and what stands at the place itself
    ends at `e`. -/
structure Legible (msg : List UInt8) (pos : Nat) (labels : List Str) (e : Nat) : Prop where
  named : Dns.NameAt msg pos labels
  fits : (fullText labels).length ≤ NAME_MAX
  ends : ∃ owner, Dns.NameBytes owner ∧ msg.HasAt pos owner ∧ e = pos + owner.length

/-- Only the root has no text. -/
private theorem fullText_eq_nil {labels : List Str} : fullText labels = [] ↔ labels = [] := by
  cases labels with
  | nil => exact iff_of_true rfl rfl
  | cons l labels => simp [fullText_cons]

/-- The 14 bits of a pointer. -/
private theorem target_eq (b₀ b₁ : UInt8) :
    (UInt16.ofBytesBE b₀ b₁ &&& 0x3FFF).toNat = Dns.pointerTarget b₀ b₁ := by
  have hb₀ := b₀.toNat_lt
  have hb₁ := b₁.toNat_lt
  rw [UInt16.toNat_and, UInt16.ofBytesBE, UInt16.toNat_ofNat',
    show (0x3FFF : UInt16).toNat = 2 ^ 14 - 1 from rfl, Nat.and_two_pow_sub_one_eq_mod,
    Dns.pointerTarget]
  omega

/-! ## The loop -/

/-- What the loop returns with the labels to come. -/
def loopText (name : Str) (labels : List Str) : Str :=
  if name ++ fullText labels = [] then [dot] else name ++ fullText labels

/-- A label that was read stands in the text before the labels to come. -/
private theorem loopText_label (name l : Str) (labels : List Str) :
    loopText (name ++ l.flatMap charFrom ++ [dot]) labels = loopText name (l :: labels) := by
  simp only [loopText, fullText_cons, List.append_assoc]

/-- The loop comes to a name only where the message has one, and that is what it returns. -/
theorem named_of_run {msg : List UInt8} (s : NameState) (hs : s.name.length ≤ NAME_MAX)
    {name : Str} {e : Nat} {mem mem' : Mem}
    (h : (readNameFrom msg s.name s.pos s.stop).run mem = (.ok (name, e), mem')) :
    ∃ labels, Dns.NameAt msg s.pos labels ∧ (s.name ++ fullText labels).length ≤ NAME_MAX ∧
      name = loopText s.name labels := by
  -- the induction is on what is left to read
  induction hn : s.left msg using Nat.strongRecOn generalizing s mem with
  | ind n ih =>
    rw [readNameFrom_turn] at h
    obtain ⟨o, mem₁, hturn, hrest⟩ := Method.run_bind_eq_ok.mp h
    cases outcome_of_run hturn with
    -- the empty label ends the name that was read so far
    | ends hb =>
      obtain ⟨heq, -⟩ := Prod.mk.inj hrest
      obtain ⟨rfl, -⟩ := Prod.mk.inj (Except.ok.inj heq)
      refine ⟨[], .root hb, ?_, ?_⟩
      · rw [show fullText [] = [] from rfl, List.append_nil]
        exact hs
      · rw [loopText, show fullText [] = [] from rfl, List.append_nil]
    | @turn s' hstep =>
      -- a label and the rest of the name, or a pointer to it
      have hlt := hn ▸ hstep.left_lt
      cases hstep with
      | @label b l hb hzero hmax hl hfits =>
        obtain ⟨labels, hnamed, hlen, rfl⟩ := ih _ hlt ⟨_, _, s.stop⟩ hfits hrest rfl
        -- the label stands behind its length
        obtain ⟨hlen', -, hat⟩ := List.getRange?_eq_some_iff.mp hl
        have hsize : b.toNat = l.length := by omega
        have hbyte : UInt8.ofNat l.length = b := by rw [← hsize, UInt8.ofNat_toNat]
        refine ⟨l :: labels, .label ⟨by omega, by omega⟩ ?_ ?_, ?_, loopText_label _ _ _⟩
        · exact List.hasAt_cons.mpr ⟨hbyte ▸ hb, hat⟩
        · rw [Dns.length_labelBytes, ← hsize, Nat.add_comm b.toNat, ← Nat.add_assoc]
          exact hnamed
        · simpa only [fullText_cons, List.append_assoc] using hlen
      | @pointer b v hb hptr hv hback =>
        obtain ⟨labels, hnamed, hlen, rfl⟩ := ih _ hlt
          ⟨s.name, (v &&& 0x3FFF).toNat, some (s.stop.getD (s.pos + 2))⟩ hs hrest rfl
        -- the two bytes of the pointer
        obtain ⟨b₀, b₁, hat, rfl⟩ : ∃ b₀ b₁, msg.HasAt s.pos [b₀, b₁] ∧
            v = UInt16.ofBytesBE b₀ b₁ := by
          have hat := be16_eq_some.mp hv
          exact ⟨_, _, hat, (UInt16.ofBytesBE_toBytesBE v).symm⟩
        obtain rfl := Option.some.inj (hb.symm.trans (List.hasAt_cons.mp hat).1)
        rw [target_eq] at hback hnamed
        exact ⟨labels, .pointer hat hptr hback hnamed, hlen, rfl⟩

/-- The loop comes to the name at its place, if the text is short enough. -/
theorem readNameFrom_named {msg : List UInt8} {pos : Nat} {labels : List Str}
    (h : Dns.NameAt msg pos labels) {name : Str}
    (hfits : (name ++ fullText labels).length ≤ NAME_MAX) (stop : Option Nat) :
    ∃ e, Yields (readNameFrom msg name pos stop) (.ok (loopText name labels, e)) := by
  -- the induction is on how the name lies in the message
  induction h generalizing name stop with
  | @root pos h =>
    refine ⟨stop.getD (pos + 1), ?_⟩
    rw [readNameFrom, h]
    simp only
    rw [if_pos UInt8.toNat_zero, loopText, show fullText [] = [] from rfl, List.append_nil]
    cases name with
    | nil => exact tryReserve_yields.bind (Computes.pure _)
    | cons b name => exact Computes.pure _
  | @label pos l labels hl hat h ih =>
    -- the label is there, as what follows it is in the message
    have hend := h.exists_bytes
    obtain ⟨hb, hlabel⟩ := List.hasAt_cons.mp hat
    have hlen := hl.toNat_ofNat
    -- the text stays within the limit with this label
    have hlong : (name ++ l.flatMap charFrom ++ [dot]).length ≤ NAME_MAX := by
      rw [fullText_cons] at hfits
      simp only [List.length_append] at hfits ⊢
      omega
    obtain ⟨e, hyields⟩ := @ih (name ++ l.flatMap charFrom ++ [dot])
      (by simpa only [fullText_cons, List.append_assoc] using hfits) stop
    have hrange : msg.getRange? (pos + 1) (pos + 1 + l.length) = some l := by
      obtain ⟨owner, howner, hrest⟩ := hend
      have hlt := hrest.lt howner.ne_nil
      rw [Dns.length_labelBytes] at hlt
      exact List.getRange?_eq_some_iff.mpr ⟨rfl, by omega, hlabel⟩
    refine ⟨e, ?_⟩
    -- one turn reads the label and goes on behind it
    rw [readNameFrom, hb]
    simp only [hlen]
    rw [if_neg (Nat.pos_iff_ne_zero.mp hl.1), if_pos hl.2]
    refine (okOr_yields hrange .malformed).bind (tryReserve_yields.bind ?_)
    rw [dif_neg (Nat.not_lt.mpr hlong), ← loopText_label, Nat.add_assoc, Nat.add_comm 1]
    exact hyields
  | @pointer pos b₀ b₁ labels hat hptr hback h ih =>
    -- the pointer is followed, and the first one sets the end
    obtain ⟨e, hyields⟩ := ih hfits (some (stop.getD (pos + 2)))
    have hv : be16 msg pos = some (UInt16.ofBytesBE b₀ b₁) := by
      simp only [List.hasAt_cons] at hat
      simp only [be16, hat.1, hat.2.1, Option.bind_eq_bind, Option.bind_some, Option.pure_def]
    refine ⟨e, ?_⟩
    rw [readNameFrom, (List.hasAt_cons.mp hat).1]
    simp only [hv, target_eq]
    rw [if_neg (by omega), if_neg (by omega), if_pos hptr, dif_neg (Nat.not_le.mpr hback)]
    exact hyields

/-! ## The name -/

/-- A name that is read is legible, and what is read is its text. -/
theorem readName_sound {msg : List UInt8} {pos : Nat} {name : Str} {e : Nat} {mem mem' : Mem}
    (h : (readName msg pos).run mem = (.ok (name, e), mem')) :
    ∃ labels, Legible msg pos labels e ∧ name = readText labels := by
  obtain ⟨labels, hnamed, hlen, hname⟩ := named_of_run ⟨[], pos, none⟩ (Nat.zero_le _) h
  refine ⟨labels, ⟨hnamed, hlen, skipName_eq_some.mp (skipName_of_readName h)⟩, ?_⟩
  rw [hname, loopText, readText, List.nil_append]
  simp only [fullText_eq_nil]

/-- A legible name is read. -/
theorem readName_legible {msg : List UInt8} {pos e : Nat} {labels : List Str}
    (h : Legible msg pos labels e) : Yields (readName msg pos) (.ok (readText labels, e)) := by
  have hfits : ([] ++ fullText labels).length ≤ NAME_MAX := h.fits
  obtain ⟨e', hyields⟩ := readNameFrom_named h.named hfits none
  have hread : Yields (readName msg pos) (.ok (loopText [] labels, e')) := hyields
  obtain ⟨owner, howner, hat, rfl⟩ := h.ends
  have hend := (skipName_of_readName hread.ample).symm.trans (skipName_of_hasAt howner hat)
  obtain rfl := Option.some.inj hend
  rw [loopText, List.nil_append] at hread
  simp only [fullText_eq_nil] at hread
  exact hread

/-- What is read is what stands there. `read_name` returns the text of the name that the message
    has at the place, followed through any pointers that go back, and the end of what stands at
    the place itself; and it refuses exactly where there is no name, or one whose text is too
    long. -/
theorem readName_exact (msg : List UInt8) (pos : Nat) :
    (∀ name e, Yields (readName msg pos) (.ok (name, e)) ↔
      ∃ labels, Legible msg pos labels e ∧ name = readText labels) ∧
    (Yields (readName msg pos) (.error .malformed) ↔ ∀ labels e, ¬Legible msg pos labels e) := by
  refine ⟨fun name e => ⟨fun h => readName_sound h.ample, ?_⟩, fun h labels e hlegible => ?_, ?_⟩
  -- what lies there as a name within the limit is read
  · rintro ⟨labels, hlegible, rfl⟩
    exact readName_legible hlegible
  · cases h.unique (readName_legible hlegible)
  -- nothing lies there: the read ends in an error, as it always ends
  · intro hnone
    obtain ⟨r, hyields, rfl | ⟨p, rfl⟩⟩ := readName_ends msg pos
    · exact hyields
    · obtain ⟨labels, hlegible, -⟩ := @readName_sound _ _ p.1 p.2 _ _ hyields.ample
      exact absurd hlegible (hnone labels p.2)

end HopDns

import HopDns.ForStd.Separated
import HopDns.Native.Error

/-!
# Text

A `str` of the source is its UTF-8 bytes. Every separator and letter the crate
looks for is ASCII, and an ASCII byte never occurs inside the encoding of another
character, so the `str` methods it uses work byte by byte.
-/

namespace HopDns

open ForStd

/-- A `str`: its UTF-8 bytes. -/
abbrev Str := List UInt8

/-- The `str` of a literal. -/
def str (s : String) : Str := s.toUTF8.data.toList

/-- `'.'` -/
def dot : UInt8 := 0x2E

/-- `u8::to_ascii_lowercase` -/
def toAsciiLowercase (b : UInt8) : UInt8 := if 0x41 ≤ b ∧ b ≤ 0x5A then b + 0x20 else b

/-- Every letter of `s` in lower case, as in `s.chars().map(|c| c.to_ascii_lowercase())`. -/
def lowercase (s : Str) : Str := s.map toAsciiLowercase

/-- `str::eq_ignore_ascii_case` -/
def eqIgnoreAsciiCase (s t : Str) : Bool := lowercase s == lowercase t

/-- `s.strip_suffix('.').unwrap_or(s)` -/
def stripDot (s : Str) : Str := if s.getLast? = some dot then s.dropLast else s

/-- The encodings of the characters `char::is_whitespace` accepts (Unicode `White_Space`). -/
def whiteSpace : List Str :=
  [[0x09], [0x0A], [0x0B], [0x0C], [0x0D], [0x20], [0xC2, 0x85], [0xC2, 0xA0], [0xE1, 0x9A, 0x80],
    [0xE2, 0x80, 0x80], [0xE2, 0x80, 0x81], [0xE2, 0x80, 0x82], [0xE2, 0x80, 0x83],
    [0xE2, 0x80, 0x84], [0xE2, 0x80, 0x85], [0xE2, 0x80, 0x86], [0xE2, 0x80, 0x87],
    [0xE2, 0x80, 0x88], [0xE2, 0x80, 0x89], [0xE2, 0x80, 0x8A], [0xE2, 0x80, 0xA8],
    [0xE2, 0x80, 0xA9], [0xE2, 0x80, 0xAF], [0xE2, 0x81, 0x9F], [0xE3, 0x80, 0x80]]

/-- The white-space character `s` starts with, if it starts with one. -/
def leadingSpace (s : Str) : Option Str := whiteSpace.find? fun w => w.isPrefixOf s

/-- The white-space character `s` ends with, if it ends with one. -/
def trailingSpace (s : Str) : Option Str := whiteSpace.find? fun w => w.isSuffixOf s

private theorem length_pos_of_mem_whiteSpace : ∀ w ∈ whiteSpace, 0 < w.length := by decide

/-- What `s` starts with is a nonempty part of it. -/
private theorem leadingSpace_length {s w : Str} (h : leadingSpace s = some w) :
    0 < w.length ∧ w.length ≤ s.length := by
  unfold leadingSpace at h
  have hpre : w.isPrefixOf s = true := by simpa using List.find?_some h
  exact ⟨length_pos_of_mem_whiteSpace w (List.mem_of_find?_eq_some h),
    (List.isPrefixOf_iff_prefix.mp hpre).length_le⟩

/-- What `s` ends with is a nonempty part of it. -/
private theorem trailingSpace_length {s w : Str} (h : trailingSpace s = some w) :
    0 < w.length ∧ w.length ≤ s.length := by
  unfold trailingSpace at h
  have hsuf : w.isSuffixOf s = true := by simpa using List.find?_some h
  exact ⟨length_pos_of_mem_whiteSpace w (List.mem_of_find?_eq_some h),
    (List.isSuffixOf_iff_suffix.mp hsuf).length_le⟩

/-- `str::trim_start` -/
def trimStart (s : Str) : Str :=
  match _h : leadingSpace s with
  | none => s
  | some w => trimStart (s.drop w.length)
termination_by s.length
decreasing_by
  have := leadingSpace_length _h
  rw [List.length_drop]
  omega

/-- `str::trim_end` -/
def trimEnd (s : Str) : Str :=
  match _h : trailingSpace s with
  | none => s
  | some w => trimEnd (s.take (s.length - w.length))
termination_by s.length
decreasing_by
  have := trailingSpace_length _h
  rw [List.length_take]
  omega

/-- `str::trim` -/
def trim (s : Str) : Str := trimEnd (trimStart s)

/-- `config::owned`: a copy of `s`. -/
def owned (s : Str) : Fallible Str := do
  tryReserve
  return s

/-- `watcher::lower`: a copy of `s` in lower case. -/
def lower (s : Str) : Fallible Str := do
  tryReserve
  return lowercase s

/-! ## The copies -/

theorem owned_yields (s : Str) : Yields (owned s) (.ok s) :=
  tryReserve_yields.bind (Computes.pure s)

/-- A text is copied in lower case, or there is no memory for it. -/
theorem lower_yields (s : Str) : Yields (lower s) (.ok (lowercase s)) :=
  tryReserve_yields.bind (Computes.pure _)

/-! ## Letter case -/

@[simp] theorem length_lowercase (s : Str) : (lowercase s).length = s.length := List.length_map _

@[simp] theorem lowercase_nil : lowercase [] = [] := rfl

@[simp] theorem lowercase_append (s t : Str) : lowercase (s ++ t) = lowercase s ++ lowercase t :=
  List.map_append

/-- A byte in lower case stays as it is. -/
private theorem toAsciiLowercase_idem (b : UInt8) :
    toAsciiLowercase (toAsciiLowercase b) = toAsciiLowercase b := by
  unfold toAsciiLowercase
  split
  · rename_i h
    -- what was folded lies above the capitals, so it is not folded again
    rw [if_neg]
    have h₁ := UInt8.le_iff_toNat_le.mp h.1
    have h₂ := UInt8.le_iff_toNat_le.mp h.2
    intro h'
    obtain ⟨-, h₃⟩ := h'
    have h₃ := UInt8.le_iff_toNat_le.mp h₃
    rw [UInt8.toNat_add] at h₃
    simp only [UInt8.reduceToNat] at h₁ h₂ h₃
    omega
  -- any other byte is left alone, twice
  · rfl

/-- Folding the case a second time changes nothing. -/
theorem lowercase_idem (s : Str) : lowercase (lowercase s) = lowercase s := by
  simp only [lowercase, List.map_map]
  exact List.map_congr_left fun b _ => toAsciiLowercase_idem b

/-- Texts are alike when they are the same in lower case. -/
theorem eqIgnoreAsciiCase_iff (s t : Str) :
    eqIgnoreAsciiCase s t = true ↔ lowercase s = lowercase t := beq_iff_eq

/-- Only the byte itself folds to a byte that is no letter. -/
theorem toAsciiLowercase_eq_iff {b x : UInt8} (hupper : ¬(0x41 ≤ x ∧ x ≤ 0x5A))
    (hlower : ¬(0x61 ≤ x ∧ x ≤ 0x7A)) : toAsciiLowercase b = x ↔ b = x := by
  unfold toAsciiLowercase
  simp only [UInt8.le_iff_toNat_le, ← UInt8.toNat_inj] at *
  split
  · rw [UInt8.toNat_add]
    simp only [UInt8.reduceToNat] at *
    omega
  · exact Iff.rfl

/-- Only a dot folds to a dot. -/
theorem toAsciiLowercase_eq_dot (b : UInt8) : toAsciiLowercase b = dot ↔ b = dot :=
  toAsciiLowercase_eq_iff (by decide) (by decide)

theorem dot_mem_lowercase (s : Str) : dot ∈ lowercase s ↔ dot ∈ s := by
  simp only [lowercase, List.mem_map, toAsciiLowercase_eq_dot, exists_eq_right]

/-! ## White space -/

/-- No blank stands at the front when the text starts with none. -/
private theorem leadingSpace_eq_none {s : Str} : leadingSpace s = none ↔ ∀ w ∈ whiteSpace, ¬w <+:
    s := by
  simp [leadingSpace, List.find?_eq_none]

/-- No blank stands at the end when the text ends with none. -/
private theorem trailingSpace_eq_none {s : Str} :
    trailingSpace s = none ↔ ∀ w ∈ whiteSpace, ¬w <:+ s := by
  simp [trailingSpace, List.find?_eq_none]

/-- After trimming no blank stands at the front. -/
private theorem leadingSpace_trimStart (s : Str) : leadingSpace (trimStart s) = none := by
  fun_induction trimStart s with
  | case1 s hnone => exact hnone
  | case2 s w _ ih => exact ih

/-- After trimming no blank stands at the end. -/
theorem trailingSpace_trimEnd (s : Str) : trailingSpace (trimEnd s) = none := by
  fun_induction trimEnd s with
  | case1 s hnone => exact hnone
  | case2 s w _ ih => exact ih

/-- Trimming the end keeps what is before it. -/
theorem trimEnd_starts (s : Str) : trimEnd s <+: s := by
  fun_induction trimEnd s with
  | case1 s _ => exact List.prefix_rfl
  | case2 s w _ ih => exact ih.trans (List.take_prefix _ _)

/-- Without a blank at the front there is nothing to trim there. -/
theorem trimStart_eq_self {s : Str} (h : leadingSpace s = none) : trimStart s = s := by
  unfold trimStart
  split
  · rfl
  · rename_i w hw
    rw [h] at hw
    cases hw

/-- Without a blank at the end there is nothing to trim there. -/
theorem trimEnd_eq_self {s : Str} (h : trailingSpace s = none) : trimEnd s = s := by
  unfold trimEnd
  split
  · rfl
  · rename_i w hw
    rw [h] at hw
    cases hw

/-- A blank at the end is cut off, and then what is before it is trimmed. -/
private theorem trimEnd_some {s w : Str} (h : trailingSpace s = some w) :
    trimEnd s = trimEnd (s.take (s.length - w.length)) := by
  rw [trimEnd]
  split
  · rename_i hw
    rw [h] at hw
    cases hw
  · rename_i w' hw
    rw [h] at hw
    rw [Option.some.inj hw]

/-- A blank at the front is cut off, and then what is behind it is trimmed. -/
private theorem trimStart_some {s w : Str} (h : leadingSpace s = some w) :
    trimStart s = trimStart (s.drop w.length) := by
  rw [trimStart]
  split
  · rename_i hw
    rw [h] at hw
    cases hw
  · rename_i w' hw
    rw [h] at hw
    rw [Option.some.inj hw]

/-- A text has no white space outside exactly when there is nothing to trim. -/
theorem trim_eq_self {s : Str} (hlead : leadingSpace s = none) (htrail : trailingSpace s = none) :
    trim s = s := by
  rw [trim, trimStart_eq_self hlead, trimEnd_eq_self htrail]

theorem trim_nil : trim [] = [] := trim_eq_self (by decide) (by decide)

/-- No byte that can be seen is part of white space. -/
private theorem not_mem_whiteSpace {b : UInt8} (h : 0x21 ≤ b ∧ b ≤ 0x7E) {w : Str}
    (hw : w ∈ whiteSpace) :
    b ∉ w := by
  have hall : ∀ w ∈ whiteSpace, ∀ b ∈ w, ¬(0x21 ≤ b ∧ b ≤ 0x7E) := by decide +kernel
  exact fun hb => hall w hw b hb h

/-- A visible byte at the front is no blank. -/
theorem leadingSpace_cons {b : UInt8} (h : 0x21 ≤ b ∧ b ≤ 0x7E) (s : Str) :
    leadingSpace (b :: s) = none := by
  refine leadingSpace_eq_none.mpr fun w hw hpre => ?_
  cases w with
  | nil => exact absurd (length_pos_of_mem_whiteSpace [] hw) (Nat.lt_irrefl 0)
  | cons c w =>
    rw [List.cons_prefix_cons] at hpre
    exact not_mem_whiteSpace h hw (hpre.1 ▸ List.mem_cons_self)

/-- White space at the end does not reach past a byte that can be seen. -/
private theorem suffix_append_cons {b : UInt8} (h : 0x21 ≤ b ∧ b ≤ 0x7E) (s t : Str) {w : Str}
    (hw : w ∈ whiteSpace) : w <:+ s ++ b :: t ↔ w <:+ t := by
  have ht : t <:+ s ++ b :: t := ⟨s ++ [b], by rw [List.append_assoc, List.singleton_append]⟩
  refine ⟨fun hsuf => ?_, fun hsuf => hsuf.trans ht⟩
  -- a suffix that fits behind the byte is one of what stands there
  obtain hle | hle := Nat.le_total w.length t.length
  · exact List.suffix_of_suffix_length_le hsuf ht hle
  · -- a longer one would have that byte in it, unless it is no longer
    obtain ⟨u, rfl⟩ := List.suffix_of_suffix_length_le ht hsuf hle
    cases hu : u.reverse with
    | nil =>
      obtain rfl := List.reverse_eq_nil_iff.mp hu
      exact List.suffix_rfl
    | cons c u' =>
      obtain ⟨v, hv⟩ := hsuf
      have hu' : u = u'.reverse ++ [c] := by rw [← List.reverse_reverse u, hu, List.reverse_cons]
      rw [hu', ← List.append_assoc, ← List.append_assoc, List.append_assoc (v ++ u'.reverse),
        List.singleton_append] at hv
      obtain ⟨-, hcons⟩ := List.append_inj' hv rfl
      refine absurd ?_ (not_mem_whiteSpace h hw)
      rw [hu', ← (List.cons.inj hcons).1]
      simp

/-- What stands before a visible byte does not matter at the end. -/
theorem trailingSpace_append_cons {b : UInt8} (h : 0x21 ≤ b ∧ b ≤ 0x7E) (s t : Str) :
    trailingSpace (s ++ b :: t) = trailingSpace t := by
  unfold trailingSpace
  rw [← List.head?_filter, ← List.head?_filter]
  refine congrArg List.head? (List.filter_congr fun w hw => ?_)
  rw [Bool.eq_iff_iff, List.isSuffixOf_iff_suffix, List.isSuffixOf_iff_suffix]
  exact suffix_append_cons h s t hw

/-- What stands behind a byte that can be seen is trimmed by itself. -/
theorem trimEnd_append_cons {b : UInt8} (h : 0x21 ≤ b ∧ b ≤ 0x7E) (s t : Str) :
    trimEnd (s ++ b :: t) = s ++ b :: trimEnd t := by
  -- the cases are those of the loop that strips the end
  fun_induction trimEnd t with
  | case1 t hnone =>
    exact trimEnd_eq_self (by rw [trailingSpace_append_cons h, hnone])
  | case2 t w hsome ih =>
    have hlength := (trailingSpace_length hsome).2
    have htake : (s ++ b :: t).take ((s ++ b :: t).length - w.length) =
        s ++ b :: t.take (t.length - w.length) := by
      have hcut : (s ++ b :: t).length - w.length = s.length + (t.length - w.length + 1) := by
        rw [List.length_append, List.length_cons]
        omega
      rw [hcut, List.take_length_add_append, List.take_succ_cons]
    rw [trimEnd_some (by rw [trailingSpace_append_cons h, hsome]), htake, ih]

/-- White space that has a byte of its own shares it with no other. -/
private theorem whiteSpace_eq_singleton {b : UInt8} (hb : [b] ∈ whiteSpace) {w : Str}
    (hw : w ∈ whiteSpace) (hmem : b ∈ w) : w = [b] := by
  have hall : ∀ v ∈ whiteSpace, v.length = 1 → ∀ w ∈ whiteSpace, v.headD 0 ∈ w → w = v := by
    decide +kernel
  exact hall [b] hb rfl w hw hmem

/-- A blank of one byte at the end is trimmed away. -/
theorem trimEnd_append_blank {b : UInt8} (hb : [b] ∈ whiteSpace) (s : Str) :
    trimEnd (s ++ [b]) = trimEnd s := by
  -- what is stripped first is this blank and nothing longer
  have hsome : trailingSpace (s ++ [b]) = some [b] := by
    cases hw : trailingSpace (s ++ [b]) with
    | none => exact absurd (List.suffix_append s [b]) (trailingSpace_eq_none.mp hw [b] hb)
    | some w =>
      unfold trailingSpace at hw
      have hsuf : w.isSuffixOf (s ++ [b]) = true := by simpa using List.find?_some hw
      have hmem := List.mem_of_find?_eq_some hw
      have hne : w ≠ [] := List.ne_nil_of_length_pos (length_pos_of_mem_whiteSpace w hmem)
      obtain ⟨u, hu⟩ := List.isSuffixOf_iff_suffix.mp hsuf
      -- it ends in `b`
      have hlast : b ∈ w := by
        have hc : w.getLast? = some (w.getLast hne) := List.getLast?_eq_some_getLast hne
        have hends := congrArg List.getLast? hu
        rw [List.getLast?_append, hc, List.getLast?_append, List.getLast?_singleton] at hends
        rw [← Option.some.inj hends]
        exact List.mem_of_getLast? hc
      rw [whiteSpace_eq_singleton hb hmem hlast]
  rw [trimEnd_some hsome]
  simp

/-- A blank of one byte at the front is trimmed away. -/
theorem trimStart_cons_blank {b : UInt8} (hb : [b] ∈ whiteSpace) (s : Str) :
    trimStart (b :: s) = trimStart s := by
  -- what is stripped first is this blank
  have hsome : leadingSpace (b :: s) = some [b] := by
    cases hw : leadingSpace (b :: s) with
    | none => exact absurd ⟨s, rfl⟩ (leadingSpace_eq_none.mp hw [b] hb)
    | some w =>
      unfold leadingSpace at hw
      have hpre : w.isPrefixOf (b :: s) = true := by simpa using List.find?_some hw
      have hmem := List.mem_of_find?_eq_some hw
      have hne : w ≠ [] := List.ne_nil_of_length_pos (length_pos_of_mem_whiteSpace w hmem)
      cases w with
      | nil => exact absurd rfl hne
      | cons c w =>
        obtain rfl := (List.cons_prefix_cons.mp (List.isPrefixOf_iff_prefix.mp hpre)).1
        rw [whiteSpace_eq_singleton hb hmem List.mem_cons_self]
  rw [trimStart_some hsome]
  rfl

/-- Trimming takes away no byte that can be seen. -/
theorem mem_trim {b : UInt8} (h : 0x21 ≤ b ∧ b ≤ 0x7E) {s : Str} (hb : b ∈ s) : b ∈ trim s := by
  -- a byte that is seen is never stripped, at neither end
  have hstart : ∀ s : Str, b ∈ s → b ∈ trimStart s := by
    intro s hb
    fun_induction trimStart s with
    | case1 s _ => exact hb
    | case2 s w hw ih =>
      unfold leadingSpace at hw
      have hpre : w.isPrefixOf s = true := by simpa using List.find?_some hw
      obtain ⟨t, rfl⟩ := List.isPrefixOf_iff_prefix.mp hpre
      have hmem := (List.mem_append.mp hb).resolve_left
        (not_mem_whiteSpace h (List.mem_of_find?_eq_some hw))
      exact ih (by rwa [List.drop_left])
  have hend : ∀ s : Str, b ∈ s → b ∈ trimEnd s := by
    intro s hb
    obtain ⟨before, after, rfl⟩ := List.append_of_mem hb
    rw [trimEnd_append_cons h]
    exact List.mem_append_right _ List.mem_cons_self
  exact hend _ (hstart s hb)

/-- What was trimmed starts with no white space: it is the start of what had none. -/
theorem leadingSpace_trim (s : Str) : leadingSpace (trim s) = none := by
  have hstart := leadingSpace_eq_none.mp (leadingSpace_trimStart s)
  exact leadingSpace_eq_none.mpr fun w hw hpre => hstart w hw (hpre.trans (trimEnd_starts _))

theorem trailingSpace_trim (s : Str) : trailingSpace (trim s) = none := trailingSpace_trimEnd _

/-- Folding the case makes no white space. -/
private theorem lowercase_eq_whiteSpace {w : Str} (hw : w ∈ whiteSpace) (s : Str) :
    lowercase s = w ↔ s = w := by
  -- a white space has no letter
  have hbytes : ∀ x ∈ w, ¬(0x41 ≤ x ∧ x ≤ 0x5A) ∧ ¬(0x61 ≤ x ∧ x ≤ 0x7A) := by
    have hall : ∀ w ∈ whiteSpace, ∀ x ∈ w, ¬(0x41 ≤ x ∧ x ≤ 0x5A) ∧ ¬(0x61 ≤ x ∧ x ≤ 0x7A) := by
      decide +kernel
    exact hall w hw
  -- letter by letter: no byte of a white space is a letter
  clear hw
  induction w generalizing s with
  | nil => simp [lowercase]
  | cons x w ih =>
    cases s with
    | nil => simp [lowercase]
    | cons b s =>
      obtain ⟨hupper, hlower⟩ := hbytes x List.mem_cons_self
      have htail := ih s fun y hy => hbytes y (List.mem_cons_of_mem x hy)
      rw [lowercase, List.map_cons, List.cons.injEq, List.cons.injEq,
        toAsciiLowercase_eq_iff hupper hlower]
      exact and_congr_right fun _ => htail

/-- Folding the case brings no white space to the start. -/
theorem leadingSpace_lowercase {s : Str} (h : leadingSpace s = none) :
    leadingSpace (lowercase s) = none := by
  refine leadingSpace_eq_none.mpr fun w hw hpre => leadingSpace_eq_none.mp h w hw ?_
  -- the bytes that folded to `w` were `w` before, and `s` starts with them
  have htake : lowercase (s.take w.length) = w := by
    rw [lowercase, List.map_take]
    exact (List.prefix_iff_eq_take.mp hpre).symm
  rw [← (lowercase_eq_whiteSpace hw _).mp htake]
  exact List.take_prefix _ _

/-- Folding the case brings no white space to the end. -/
theorem trailingSpace_lowercase {s : Str} (h : trailingSpace s = none) :
    trailingSpace (lowercase s) = none := by
  refine trailingSpace_eq_none.mpr fun w hw hsuf => trailingSpace_eq_none.mp h w hw ?_
  have hdrop : lowercase (s.drop (s.length - w.length)) = w := by
    have hw := List.suffix_iff_eq_drop.mp hsuf
    rw [length_lowercase] at hw
    rw [lowercase, List.map_drop]
    exact hw.symm
  rw [← (lowercase_eq_whiteSpace hw _).mp hdrop]
  exact List.drop_suffix _ _

end HopDns

import HopDns.Native.Config
import Mathlib.Data.List.Basic

/-!
# A value in quotes

A value is read in three passes: its comment is cut off, it is trimmed, and its quotes are
taken away. Only the last one knows that a backslash keeps a double quote from ending the
value; for the first one every quote opens or closes.

## Key results

- `strippedFrom_escape`: escapes do not change where a comment is seen
- `scalar_single`: a value in single quotes is always read back
- `scalar_double_iff`: when one in double quotes is
-/

namespace HopDns

open ForStd

/-- The two quotes. -/
inductive Quote where
  | single
  | double
deriving DecidableEq, Repr

namespace Quote

/-- The byte of a quote. -/
def byte : Quote → UInt8
  | single => singleQuote
  | double => doubleQuote

/-- A text as it stands between quotes. -/
def inner : Quote → Str → Str
  | single, s => s.flatMap fun b => if b = singleQuote then [b, b] else [b]
  | double, s => s.flatMap fun b =>
      if b = doubleQuote ∨ b = backslash then [backslash, b] else [b]

/-- A quote is a visible byte. -/
theorem byte_visible (q : Quote) : 0x21 ≤ q.byte ∧ q.byte ≤ 0x7E := by
  cases q <;> decide

/-- A quote starts no comment. -/
theorem byte_ne_hash (q : Quote) : q.byte ≠ hash := by
  cases q <;> decide

end Quote

/-! ## The quote that is open -/

/-- The quote that is open behind a byte: it is the same everywhere, escaped or not. -/
def quoteAfter : Option Quote → UInt8 → Option Quote
  | some q, b => if b = q.byte then none else some q
  | none, b =>
      if b = doubleQuote then some .double else if b = singleQuote then some .single else none

/-- The quote that is open behind a text. -/
def openQuote (quote : Option Quote) (s : Str) : Option Quote := s.foldl quoteAfter quote

theorem openQuote_cons (quote : Option Quote) (b : UInt8) (s : Str) :
    openQuote quote (b :: s) = openQuote (quoteAfter quote b) s := rfl

/-- A quote that one part leaves open is open in the next one. -/
theorem openQuote_append (quote : Option Quote) (s t : Str) :
    openQuote quote (s ++ t) = openQuote (openQuote quote s) t := List.foldl_append

/-- White space within a line. -/
def IsBlank (b : UInt8) : Prop := b = space ∨ b = tab

instance (b : UInt8) : Decidable (IsBlank b) := inferInstanceAs (Decidable (_ ∨ _))

/-- Whether white space stands before what follows a text. -/
def spaceAfter (prevSpace : Bool) (s : Str) : Bool :=
  s.foldl (fun _ b => decide (IsBlank b)) prevSpace

/-- What the cut of the comment leaves of a text, when a quote may be open before it. -/
def strippedFrom (quote : Option Quote) (prevSpace : Bool) (s : Str) : Str :=
  Config.stripCommentFrom (quote.map Quote.byte) prevSpace s

/-- Within quotes no comment starts. -/
private theorem not_cut_inside (q : Quote) (b : UInt8) (prevSpace : Bool) :
    ¬(some q = none ∧ b = hash ∧ prevSpace = true) := fun h => Option.some_ne_none q h.1

@[simp] theorem strippedFrom_nil (quote : Option Quote) (prevSpace : Bool) :
    strippedFrom quote prevSpace [] = [] := rfl

/-- One byte: a comment starts there, or the byte stays. -/
theorem strippedFrom_cons (quote : Option Quote) (prevSpace : Bool) (b : UInt8) (s : Str) :
    strippedFrom quote prevSpace (b :: s) =
      if quote = none ∧ b = hash ∧ prevSpace = true then []
      else b :: strippedFrom (quoteAfter quote b) (decide (IsBlank b)) s := by
  have hblank : (decide (b = space) || decide (b = tab)) = decide (IsBlank b) :=
    (Bool.decide_or _ _).symm
  cases quote with
  | some q =>
    -- inside a quote nothing is cut, and only the same quote closes it
    rw [if_neg (not_cut_inside _ _ _), strippedFrom, strippedFrom, Option.map_some,
      Config.stripCommentFrom, quoteAfter, hblank]
    by_cases hq : b = q.byte
    · rw [if_pos hq, if_pos hq]
      rfl
    · rw [if_neg hq, if_neg hq]
      rfl
  | none =>
    rw [strippedFrom, strippedFrom, Option.map_none, Config.stripCommentFrom, quoteAfter, hblank]
    by_cases hdouble : b = doubleQuote
    -- outside, either quote opens
    · subst hdouble
      rfl
    · by_cases hsingle : b = singleQuote
      · subst hsingle
        rfl
      · rw [if_neg hdouble, if_neg hsingle, if_neg (not_or.mpr ⟨hdouble, hsingle⟩)]
        simp only [true_and]
        rfl

/-- Behind a text in which no comment starts, the cut goes on. -/
theorem strippedFrom_append {quote : Option Quote} {prevSpace : Bool} {s : Str}
    (h : strippedFrom quote prevSpace s = s) (t : Str) :
    strippedFrom quote prevSpace (s ++ t) =
      s ++ strippedFrom (openQuote quote s) (spaceAfter prevSpace s) t := by
  induction s generalizing quote prevSpace with
  | nil => rfl
  | cons b s ih =>
    rw [strippedFrom_cons] at h
    rw [List.cons_append, strippedFrom_cons]
    -- the prefix is left whole, so no byte of it is where a comment starts
    by_cases hcut : quote = none ∧ b = hash ∧ prevSpace = true
    · rw [if_pos hcut] at h
      exact nomatch h
    · rw [if_neg hcut] at h
      rw [if_neg hcut, ih (List.cons.inj h).2]
      rfl

/-- Where a comment starts, nothing behind it matters. -/
theorem strippedFrom_append_of_ne {quote : Option Quote} {prevSpace : Bool} {s : Str}
    (h : strippedFrom quote prevSpace s ≠ s) (t : Str) :
    strippedFrom quote prevSpace (s ++ t) = strippedFrom quote prevSpace s := by
  induction s generalizing quote prevSpace with
  | nil => exact absurd rfl h
  | cons b s ih =>
    rw [strippedFrom_cons] at h ⊢
    rw [List.cons_append, strippedFrom_cons]
    by_cases hcut : quote = none ∧ b = hash ∧ prevSpace = true
    · rw [if_pos hcut, if_pos hcut]
    · rw [if_neg hcut] at h
      rw [if_neg hcut, if_neg hcut, ih fun heq => h (by rw [heq])]

/-- No comment starts in a text if no `#` is outside quotes and behind white space. -/
private theorem strippedFrom_eq_self {quote : Option Quote} {prevSpace : Bool} {s : Str} :
    strippedFrom quote prevSpace s = s ↔ ∀ before after, s = before ++ hash :: after →
      openQuote quote before = none → spaceAfter prevSpace before = false := by
  induction s generalizing quote prevSpace with
  | nil => simp
  | cons b s ih =>
    rw [strippedFrom_cons]
    by_cases hcut : quote = none ∧ b = hash ∧ prevSpace = true
    -- a comment starts at once, and the empty prefix shows it
    · obtain ⟨rfl, rfl, rfl⟩ := hcut
      simp only [and_self, if_true, List.nil_eq, reduceCtorEq, false_iff]
      exact fun hall => absurd (hall [] s rfl rfl) (by decide)
    · rw [if_neg hcut, List.cons.injEq, and_iff_right rfl, ih]
      constructor
      -- a hash behind the first byte is one of the rest
      · intro hall before after heq hnone
        cases before with
        | nil =>
          obtain rfl := (List.cons.inj heq).1
          exact Bool.eq_false_iff.mpr fun hspace => hcut ⟨hnone, rfl, hspace⟩
        | cons c before =>
          obtain ⟨rfl, htail⟩ := List.cons.inj heq
          exact hall before after htail hnone
      · intro hall before after heq hnone
        exact hall (b :: before) after (by rw [heq, List.cons_append]) hnone

/-! ## Texts in which no comment starts -/

/-- A line without a hash has no comment. -/
theorem strippedFrom_of_not_mem {s : Str} (h : hash ∉ s) (quote : Option Quote)
    (prevSpace : Bool) : strippedFrom quote prevSpace s = s :=
  strippedFrom_eq_self.mpr fun before after heq _ => absurd (by rw [heq]; simp) h

/-- A quote stays open in a text without it. -/
theorem openQuote_inside {q : Quote} {s : Str} (h : q.byte ∉ s) :
    openQuote (some q) s = some q := by
  induction s with
  | nil => rfl
  | cons b s ih =>
    rw [List.mem_cons, not_or] at h
    rw [openQuote_cons, quoteAfter, if_neg fun heq => h.1 heq.symm]
    exact ih h.2

/-- Up to the quote that closes it, quoted text has no comment. -/
theorem strippedFrom_inside {q : Quote} {s : Str} (h : q.byte ∉ s) (prevSpace : Bool) :
    strippedFrom (some q) prevSpace s = s := by
  refine strippedFrom_eq_self.mpr fun before after heq hnone => ?_
  rw [openQuote_inside fun hb => h (by rw [heq]; exact List.mem_append_left _ hb)] at hnone
  cases hnone

/-- A text without quotes opens none. -/
theorem openQuote_outside {s : Str} (h : ∀ q : Quote, q.byte ∉ s) : openQuote none s = none := by
  induction s with
  | nil => rfl
  | cons b s ih =>
    have hdouble : b ≠ doubleQuote := fun heq => h .double (by rw [heq]; exact List.mem_cons_self)
    have hsingle : b ≠ singleQuote := fun heq => h .single (by rw [heq]; exact List.mem_cons_self)
    rw [openQuote_cons, quoteAfter, if_neg hdouble, if_neg hsingle]
    exact ih fun q hq => h q (List.mem_cons_of_mem b hq)

/-! ## Escapes -/

/-- Between single quotes a single quote is written twice. -/
private theorem inner_single_cons (b : UInt8) (s : Str) : Quote.single.inner (b :: s) =
    (if b = singleQuote then [b, b] else [b]) ++ Quote.single.inner s := List.flatMap_cons

/-- Between double quotes a double quote and a backslash are written behind a backslash. -/
private theorem inner_double_cons (b : UInt8) (s : Str) : Quote.double.inner (b :: s) =
    (if b = doubleQuote ∨ b = backslash then [backslash, b] else [b]) ++ Quote.double.inner s :=
  List.flatMap_cons

/-- A backslash opens no quote and closes none, for `strip_comment` knows no escapes. -/
private theorem quoteAfter_backslash (quote : Option Quote) : quoteAfter quote backslash = quote :=
    by
  obtain _ | _ | _ := quote <;> rfl

/-- A double quote opens one, or stands in the other one, if it does not close one. -/
private theorem open_behind_double {quote : Option Quote} (h : quote ≠ some .double) :
    ∃ q, quoteAfter quote Quote.double.byte = some q := by
  obtain _ | _ | _ := quote
  · exact ⟨.double, rfl⟩
  · exact ⟨.single, rfl⟩
  · exact absurd rfl h

/-- Escapes do not change where a comment is seen. -/
theorem strippedFrom_escape (quote : Option Quote) (prevSpace : Bool) (s : Str) :
    strippedFrom quote prevSpace (Quote.double.inner s) =
      Quote.double.inner (strippedFrom quote prevSpace s) := by
  -- the induction is on the target, in whatever quote the scan is
  induction s generalizing quote prevSpace with
  | nil => rfl
  | cons b s ih =>
    rw [inner_double_cons]
    by_cases hspecial : b = doubleQuote ∨ b = backslash
    -- an escape is two bytes; the backslash neither opens nor closes, so the second is scanned as
    -- the byte alone would be
    · have hhash : b ≠ hash := by obtain rfl | rfl := hspecial <;> decide
      rw [if_pos hspecial, List.cons_append, List.singleton_append, strippedFrom_cons,
        if_neg fun h => absurd h.2.1 (by decide), quoteAfter_backslash, strippedFrom_cons,
        if_neg fun h => hhash h.2.1, ih, strippedFrom_cons, if_neg fun h => hhash h.2.1,
        inner_double_cons, if_pos hspecial]
      rfl
    · rw [if_neg hspecial, List.singleton_append, strippedFrom_cons, strippedFrom_cons]
      -- any other byte stands for itself on both sides
      split
      · rfl
      · rw [ih, inner_double_cons, if_neg hspecial]
        rfl

/-- Escapes open and close no quote of their own. -/
private theorem openQuote_escape (quote : Option Quote) (s : Str) :
    openQuote quote (Quote.double.inner s) = openQuote quote s := by
  induction s generalizing quote with
  | nil => rfl
  | cons b s ih =>
    rw [inner_double_cons, openQuote_append, ih, openQuote_cons]
    split
    · rw [openQuote_cons, quoteAfter_backslash]
      rfl
    · rfl

/-- A doubled quote closes and opens again, with nothing in between. -/
private theorem scan_doubled (prevSpace : Bool) (s : Str) :
    strippedFrom (some .single) prevSpace (Quote.single.inner s) = Quote.single.inner s ∧
      openQuote (some .single) (Quote.single.inner s) = some .single := by
  induction s generalizing prevSpace with
  | nil => exact ⟨rfl, rfl⟩
  | cons b s ih =>
    rw [inner_single_cons]
    -- the first of two quotes closes, and the second opens again before anything is cut
    by_cases hquote : b = singleQuote
    · subst hquote
      have htwo : strippedFrom (some .single) prevSpace [singleQuote, singleQuote] =
          [singleQuote, singleQuote] := by cases prevSpace <;> rfl
      rw [if_pos rfl, strippedFrom_append htwo, openQuote_append]
      exact ⟨congrArg _ (ih _).1, (ih prevSpace).2⟩
    · have hone : quoteAfter (some .single) b = some .single := if_neg hquote
      rw [if_neg hquote, List.singleton_append, strippedFrom_cons, if_neg (not_cut_inside _ _ _),
        openQuote_cons, hone]
      exact ⟨congrArg _ (ih _).1, (ih prevSpace).2⟩

/-- A byte that is no backslash stands for itself. -/
private theorem unescape_cons {b : UInt8} (h : b ≠ backslash) (s : Str) :
    Config.unescape (b :: s) = (Config.unescape s).map (b :: ·) := by
  rw [Config.unescape.eq_def]
  exact if_neg h

/-- A byte behind a backslash that stands for no other. -/
private theorem unescape_backslash {b : UInt8} (h : b ≠ 0x6E ∧ b ≠ 0x74) (s : Str) :
    Config.unescape (backslash :: b :: s) = (Config.unescape s).map (b :: ·) := by
  simp only [Config.unescape, if_true, if_neg h.1, if_neg h.2]

/-- Escaped text is read back. -/
private theorem unescape_append (s t : Str) :
    Config.unescape (Quote.double.inner s ++ t) = (Config.unescape t).map (s ++ ·) := by
  induction s with
  | nil => exact (congrFun Option.map_id _).symm
  | cons b s ih =>
    rw [inner_double_cons]
    -- the letters of `\n` and `\t` are no escapes that the writer makes
    split
    · rename_i hspecial
      have hletter : b ≠ 0x6E ∧ b ≠ 0x74 := by obtain rfl | rfl := hspecial <;> decide
      simp only [List.cons_append, List.nil_append]
      rw [unescape_backslash hletter, ih, Option.map_map]
      rfl
    · rename_i hplain
      simp only [List.cons_append, List.nil_append]
      rw [unescape_cons fun h => hplain (.inr h), ih, Option.map_map]
      rfl

/-- What is written with escapes is read as it was. -/
private theorem unescape_inner (s : Str) : Config.unescape (Quote.double.inner s) = some s := by
  rw [← List.append_nil (Quote.double.inner s), unescape_append]
  exact congrArg some (List.append_nil s)

/-- A double quote in escaped text stands behind a backslash of its own. -/
private theorem escape_before_quote {s before after : Str}
    (h : Quote.double.inner s = before ++ doubleQuote :: after) :
    ∃ t, before = Quote.double.inner t ++ [backslash] := by
  induction s generalizing before with
  | nil => exact absurd (congrArg List.length h) (by simp [Quote.inner])
  | cons b s ih =>
    rw [inner_double_cons] at h
    split at h
    · rename_i hspecial
      -- the quote is the escaped byte itself, or it stands behind this escape
      obtain _ | ⟨c, _ | ⟨d, before⟩⟩ := before
      · exact absurd (List.cons.inj h).1 (by decide)
      · exact ⟨[], by rw [(List.cons.inj h).1]; rfl⟩
      · simp only [List.cons_append, List.nil_append, List.cons.injEq] at h
        obtain ⟨rfl, rfl, htail⟩ := h
        obtain ⟨t, rfl⟩ := ih htail
        refine ⟨b :: t, ?_⟩
        rw [inner_double_cons, if_pos hspecial]
        rfl
    · rename_i hplain
      -- a byte that is written as it is, is no quote
      obtain _ | ⟨c, before⟩ := before
      · exact absurd (List.cons.inj h).1 fun heq => hplain (.inl heq)
      · simp only [List.cons_append, List.nil_append, List.cons.injEq] at h
        obtain ⟨rfl, htail⟩ := h
        obtain ⟨t, rfl⟩ := ih htail
        refine ⟨b :: t, ?_⟩
        rw [inner_double_cons, if_neg hplain]
        rfl

/-- A byte that is no single quote stands for itself. -/
private theorem replaceDoubled_cons {b : UInt8} (h : b ≠ singleQuote) (s : Str) :
    Config.replaceDoubled (b :: s) = b :: Config.replaceDoubled s := by
  cases s with
  | nil => rfl
  | cons c s => rw [Config.replaceDoubled, if_neg fun hboth => h hboth.1]

/-- Doubled quotes are read back. -/
private theorem replaceDoubled_inner (s : Str) : Config.replaceDoubled (Quote.single.inner s) = s :=
    by
  induction s with
  | nil => rfl
  | cons b s ih =>
    rw [inner_single_cons]
    split
    · rename_i hquote
      rw [List.cons_append, List.singleton_append, Config.replaceDoubled, if_pos ⟨hquote, hquote⟩,
        ih]
    · rename_i hplain
      rw [List.singleton_append, replaceDoubled_cons hplain, ih]

/-! ## What stands behind a value -/

/-- White space at the end of a line, and perhaps a comment. -/
structure Ending where
  blanks : Str
  comment : Option Str
  blank : ∀ b ∈ blanks, IsBlank b
  inLine : ∀ c, comment = some c → newline ∉ c

/-- A comment, with the `#`. -/
def commentText : Option Str → Str
  | some c => hash :: c
  | none => []

/-- The end of a line as it is written. -/
def Ending.text (e : Ending) : Str := e.blanks ++ commentText e.comment

/-- The end of a line with something on it: a comment stands behind white space. -/
structure Trailing extends Ending where
  apart : comment ≠ none → blanks ≠ []

/-- A blank is white space that `trim` cuts off. -/
private theorem isBlank_whiteSpace {b : UInt8} (h : IsBlank b) : [b] ∈ whiteSpace := by
  obtain rfl | rfl := h <;> decide

/-- Blanks at the end are trimmed away. -/
theorem trimEnd_append_blanks {blanks : Str} (h : ∀ b ∈ blanks, IsBlank b) (s : Str) :
    trimEnd (s ++ blanks) = trimEnd s := by
  induction blanks generalizing s with
  | nil => rw [List.append_nil]
  | cons b blanks ih =>
    rw [List.forall_mem_cons] at h
    rw [← List.singleton_append, ← List.append_assoc, ih h.2,
      trimEnd_append_blank (isBlank_whiteSpace h.1)]

/-- White space before a comment is what lets it start. -/
private theorem spaceAfter_blanks {blanks : Str} (h : ∀ b ∈ blanks, IsBlank b) {prevSpace : Bool}
    (hspace : blanks ≠ [] ∨ prevSpace = true) : spaceAfter prevSpace blanks = true := by
  induction blanks generalizing prevSpace with
  | nil => exact hspace.resolve_left fun hne => hne rfl
  | cons b blanks ih =>
    rw [List.forall_mem_cons] at h
    exact ih h.2 (.inr (decide_eq_true h.1))

namespace Ending

/-- The blanks before a comment have no hash in them. -/
private theorem hash_not_mem (e : Ending) : hash ∉ e.blanks := by
  intro hb
  exact absurd (e.blank _ hb) (by decide)

/-- Nor do they have a quote in them. -/
private theorem quote_not_mem (e : Ending) (q : Quote) : q.byte ∉ e.blanks := by
  intro hb
  have hq : ¬IsBlank q.byte := by cases q <;> decide
  exact hq (e.blank _ hb)

/-- Nothing is left of the blanks. -/
theorem trimEnd_blanks (e : Ending) : trimEnd e.blanks = [] := by
  have htrim := trimEnd_append_blanks e.blank []
  rwa [List.nil_append, trimEnd_eq_self (s := []) (by decide)] at htrim

/-- Outside quotes the comment is cut off. -/
theorem strippedFrom_text (e : Ending) {prevSpace : Bool}
    (h : e.comment ≠ none → e.blanks ≠ [] ∨ prevSpace = true) :
    strippedFrom none prevSpace e.text = e.blanks := by
  rw [text, strippedFrom_append (strippedFrom_of_not_mem e.hash_not_mem none prevSpace),
    openQuote_outside e.quote_not_mem]
  cases hcomment : e.comment with
  | none => exact List.append_nil _
  | some c =>
    have hspace := spaceAfter_blanks e.blank (h (by rw [hcomment]; exact Option.some_ne_none c))
    rw [commentText, strippedFrom_cons, if_pos ⟨rfl, rfl, hspace⟩, List.append_nil]

end Ending

/-! ## The value without its quotes -/

/-- What is left before the last byte. -/
theorem stripSuffix_eq_some {b : UInt8} {s t : Str} :
    stripSuffix [b] s = some t ↔ s = t ++ [b] := by
  unfold stripSuffix
  constructor
  · intro h
    -- the suffix is the last byte
    split at h
    · rename_i hsuf
      obtain ⟨u, rfl⟩ := List.isSuffixOf_iff_suffix.mp hsuf
      have ht := Option.some.inj h
      rw [List.length_append, Nat.add_sub_cancel, List.take_left] at ht
      rw [ht]
    · cases h
  · rintro rfl
    rw [if_pos (List.isSuffixOf_iff_suffix.mpr (List.suffix_append t [b])), List.length_append,
      Nat.add_sub_cancel, List.take_left]

private theorem scalar_cons_single (s : Str) : Config.scalar (singleQuote :: s) =
    (stripSuffix [singleQuote] s).map Config.replaceDoubled := rfl

private theorem scalar_cons_double (s : Str) : Config.scalar (doubleQuote :: s) =
    (stripSuffix [doubleQuote] s).bind Config.unescape := rfl

/-- What the first two passes leave of a value and what stands behind it, after the first
    quote. -/
def leftOf (q : Quote) (target : Str) (e : Ending) : Str :=
  trimEnd (strippedFrom (some q) false (q.inner target ++ q.byte :: e.text))

/-- A value in single quotes is read back. -/
theorem scalar_single (target : Str) (e : Trailing) :
    Config.scalar (singleQuote :: leftOf .single target e.toEnding) = some target := by
  obtain ⟨hinner, hopen⟩ := scan_doubled false target
  have hclose : quoteAfter (some .single) Quote.single.byte = none := rfl
  rw [leftOf, strippedFrom_append hinner, hopen, strippedFrom_cons, if_neg (not_cut_inside _ _ _),
    hclose, e.strippedFrom_text fun h => .inl (e.apart h), trimEnd_append_cons (by decide),
    e.trimEnd_blanks, scalar_cons_single, Quote.byte, stripSuffix_eq_some.mpr rfl,
    Option.map_some, replaceDoubled_inner]

/-- No `#` of the target is behind white space and outside the quotes that it opens and
    closes. -/
def Shielded (target : Str) : Prop :=
  ∀ before b after, target = before ++ b :: hash :: after → IsBlank b →
    openQuote (some .double) before ≠ none

/-- A target is safe from `strip_comment` exactly when that would leave all of it behind a double
    quote. -/
private theorem shielded_iff (target : Str) :
    Shielded target ↔ strippedFrom (some .double) false target = target := by
  -- a blank opens and closes nothing, so it does not matter on which side of it the scan is looked
  -- at
  have hquote : ∀ {b : UInt8}, IsBlank b → ∀ quote, quoteAfter quote b = quote := by
    intro b hb quote
    obtain rfl | rfl := hb <;> obtain _ | _ | _ := quote <;> rfl
  rw [strippedFrom_eq_self]
  constructor
  · intro h before after heq hnone
    -- the prefix ends in a blank, or no comment can start behind it
    obtain rfl | ⟨before, b, rfl⟩ := List.eq_nil_or_concat' before
    · rfl
    · by_cases hb : IsBlank b
      · rw [openQuote_append, openQuote_cons, hquote hb] at hnone
        rw [List.append_assoc, List.singleton_append] at heq
        exact absurd hnone (h before b after heq hb)
      · rw [spaceAfter, List.foldl_append]
        exact decide_eq_false hb
  · intro h before b after heq hb hnone
    -- for the other direction the blank is put at the end of the prefix
    have hspace := h (before ++ [b]) after (by rw [heq, List.append_assoc]; rfl)
      (by rw [openQuote_append, openQuote_cons, hquote hb, hnone]; rfl)
    rw [spaceAfter, List.foldl_append] at hspace
    exact of_decide_eq_false hspace hb

/-- A comment seen inside the value leaves nothing that can be read. -/
private theorem scalar_cut {target : Str} (h : ¬Shielded target) (e : Ending) :
    Config.scalar (doubleQuote :: leftOf .double target e) = none := by
  rw [shielded_iff] at h
  have hcut : strippedFrom (some .double) false (Quote.double.inner target) ≠
      Quote.double.inner target := by
    rw [strippedFrom_escape]
    intro heq
    -- what was cut off is missing between the quotes too
    refine h ?_
    have hback := congrArg Config.unescape heq
    rw [unescape_inner, unescape_inner] at hback
    exact Option.some.inj hback
  rw [leftOf, strippedFrom_append_of_ne hcut, strippedFrom_escape, scalar_cons_double]
  -- what is left has to end in a quote to be read at all
  cases hstrip : stripSuffix [doubleQuote]
      (trimEnd (Quote.double.inner (strippedFrom (some .double) false target))) with
  | none => rfl
  | some body =>
    obtain ⟨rest, hrest⟩ := trimEnd_starts
      (Quote.double.inner (strippedFrom (some .double) false target))
    rw [stripSuffix_eq_some.mp hstrip, List.append_assoc, List.singleton_append] at hrest
    -- the quote it ends in is an escaped one, so the backslash is left alone
    obtain ⟨t, rfl⟩ := escape_before_quote hrest.symm
    rw [Option.bind_some, unescape_append]
    rfl

/-- A value that runs on behind its last quote is not read as it was meant. -/
private theorem scalar_overrun (target : Str) {s : Str} (hne : s ≠ []) :
    Config.scalar (doubleQuote :: (Quote.double.inner target ++ doubleQuote :: s)) ≠
      some target := by
  rw [scalar_cons_double]
  -- the quote in the middle is not at the end, so it would be part of the value
  cases hstrip : stripSuffix [doubleQuote] (Quote.double.inner target ++ doubleQuote :: s) with
  | none => exact nofun
  | some body =>
    have hends := stripSuffix_eq_some.mp hstrip
    obtain ⟨s', b, rfl⟩ := (List.eq_nil_or_concat' s).resolve_left hne
    -- the last byte is the quote that is stripped
    rw [← List.cons_append, ← List.append_assoc] at hends
    obtain ⟨rfl, -⟩ := List.append_inj' hends rfl
    rw [Option.bind_some, unescape_append, unescape_cons (by decide), Option.map_map]
    -- a value with that quote in it is longer than the target
    intro hsome
    obtain ⟨t, -, ht⟩ := Option.map_eq_some_iff.mp hsome
    have hlength := congrArg List.length ht
    simp at hlength

/-- A value in double quotes is read back exactly when no comment is seen in it, and the one
    behind it is seen. -/
theorem scalar_double_iff (target : Str) (e : Trailing) :
    Config.scalar (doubleQuote :: leftOf .double target e.toEnding) = some target ↔
      Shielded target ∧
        (e.comment ≠ none → openQuote (some .double) target = some .double) := by
  -- a target with a comment in it is cut short, whatever stands behind
  by_cases hshield : Shielded target
  · have hinner : strippedFrom (some .double) false (Quote.double.inner target) =
        Quote.double.inner target := by
      rw [strippedFrom_escape, (shielded_iff target).mp hshield]
    -- the value is read when nothing is cut but what stands behind the quote
    have hread : Config.scalar (doubleQuote :: (Quote.double.inner target ++ [doubleQuote])) =
        some target := by
      rw [scalar_cons_double, stripSuffix_eq_some.mpr rfl, Option.bind_some, unescape_inner]
    rw [leftOf, strippedFrom_append hinner, openQuote_escape, strippedFrom_cons,
      if_neg fun h => Quote.double.byte_ne_hash h.2.1, trimEnd_append_cons (by decide),
      and_iff_right hshield]
    -- the scan may leave the target in another state than the quote it is in: an escaped quote
    -- closes it
    by_cases hopen : openQuote (some .double) target = some .double
    · have hclose : quoteAfter (some .double) Quote.double.byte = none := rfl
      rw [hopen, hclose, e.strippedFrom_text fun h => .inl (e.apart h), e.trimEnd_blanks]
      exact iff_of_true hread fun _ => rfl
    · obtain ⟨q, hclose⟩ := open_behind_double hopen
      rw [hclose, Ending.text]
      -- then the closing quote opens one, in which a comment is no comment
      cases hcomment : e.comment with
      | none =>
        rw [commentText, List.append_nil, strippedFrom_of_not_mem e.hash_not_mem, e.trimEnd_blanks]
        exact iff_of_true hread fun h => absurd rfl h
      | some c =>
        rw [strippedFrom_append (strippedFrom_inside (e.quote_not_mem q) _),
          openQuote_inside (e.quote_not_mem q), commentText, strippedFrom_cons,
          if_neg (not_cut_inside _ _ _), trimEnd_append_cons (by decide)]
        exact iff_of_false (scalar_overrun target (by simp)) fun h => hopen (h (by simp))
  · refine iff_of_false (fun hread => ?_) fun h => hshield h.1
    rw [scalar_cut hshield] at hread
    exact Option.some_ne_none target hread.symm

end HopDns

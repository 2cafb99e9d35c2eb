import HopDns.Spec.QuotedValue

/-!
# The configuration file

A file with a section of static CNAMEs, as the crate says that it can be written: names and
targets in quotes, comments, empty lines, and sections of others around it. It is read back
line by line, except where a value in double quotes was cut off as a comment.

## Key results

- `Entry.readLine_text`: what a line of the section comes to
- `run_block`: what the lines of the section come to
- `parse_written_iff`: when a written file is read back
-/

namespace HopDns

open ForStd

/-! ## The lines of a file -/

/-- A carriage return at the end of a line changes nothing: it is trimmed. -/
private theorem trimEnd_stripComment_stripReturn (line : Str) :
    trimEnd (Config.stripComment (stripReturn line)) = trimEnd (Config.stripComment line) := by
  unfold stripReturn
  cases hreturn : stripSuffix [carriageReturn] line with
  | none => rfl
  | some line' =>
    rw [stripSuffix_eq_some.mp hreturn, Option.getD_some]
    show trimEnd (strippedFrom none true line') =
      trimEnd (strippedFrom none true (line' ++ [carriageReturn]))
    -- either no comment starts on the line, and the return is trimmed off as a blank is, or the cut
    -- falls before the return
    by_cases hcomment : strippedFrom none true line' = line'
    · have hreturn : hash ∉ [carriageReturn] := by decide
      rw [strippedFrom_append hcomment, strippedFrom_of_not_mem hreturn, hcomment,
        trimEnd_append_blank (by decide)]
    · rw [strippedFrom_append_of_ne hcomment]

/-- A line is read by what is left of it without the comment and the white space behind it. -/
private theorem readLine_congr {raw raw' : Str}
    (h : trimEnd (Config.stripComment raw) = trimEnd (Config.stripComment raw')) (i : Nat)
    (current : Config.Section) (c : Config) :
    Config.readLine i current c raw = Config.readLine i current c raw' := by
  unfold Config.readLine
  rw [h]

/-- A carriage return at the end of a line changes nothing. -/
private theorem parseLines_stripReturn (i : Nat) (current : Config.Section) (c : Config)
    (ls : List Str) :
    Config.parseLines i current c (ls.map stripReturn) = Config.parseLines i current c ls := by
  induction ls generalizing i current c with
  | nil => rfl
  | cons line ls ih =>
    rw [List.map_cons, Config.parseLines, Config.parseLines,
      readLine_congr (trimEnd_stripComment_stripReturn line)]
    refine congrArg _ (funext fun next => ?_)
    exact ih (i + 1) next.1 next.2

/-- The text of lines is read line by line. -/
private theorem parse_lines {ls : List Str} (h : ∀ line ∈ ls, newline ∉ line) :
    Config.parse (ls.flatMap (· ++ [newline])) = Config.parseLines 0 .top ⟨[]⟩ ls := by
  have hlines : lines (ls.flatMap (· ++ [newline])) = ls.map stripReturn := by
    rw [lines, List.splitOn_flatMap h]
    simp
  rw [Config.parse, hlines, parseLines_stripReturn]

/-! ## One line -/

/-- A line of which nothing is left is passed over. -/
private theorem readLine_blank {raw : Str} (h : trimEnd (Config.stripComment raw) = []) (i : Nat)
    (current : Config.Section) (c : Config) :
    Config.readLine i current c raw = pure (current, c) := by
  unfold Config.readLine
  rw [h]
  exact if_pos (.inl (List.isEmpty_iff.mpr trim_nil))

/-- Nothing is read from white space and a comment. -/
private theorem readLine_filler (e : Ending) (i : Nat) (current : Config.Section) (c : Config) :
    Config.readLine i current c e.text = pure (current, c) := by
  refine readLine_blank ?_ i current c
  show trimEnd (strippedFrom none true e.text) = []
  rw [e.strippedFrom_text fun _ => .inr rfl, e.trimEnd_blanks]

/-- Nothing is read from an indented line of another section. -/
private theorem readLine_indented (s : Str) (i : Nat) (c : Config) :
    Config.readLine i .other c (space :: s) = pure (.other, c) := by
  have hspace : Config.stripComment (space :: s) = space :: strippedFrom none true s := by
    show strippedFrom none true (space :: s) = _
    rw [strippedFrom_cons, if_neg fun h => absurd h.2.1 (by decide)]
    rfl
  -- the space may be all that the comment leaves of the line
  cases hline : trimEnd (space :: strippedFrom none true s) with
  | nil => exact readLine_blank (by rw [hspace, hline]) i .other c
  | cons b line =>
    -- what is left starts as the line does
    obtain ⟨t, ht⟩ := hline ▸ trimEnd_starts (space :: strippedFrom none true s)
    obtain rfl := (List.cons.inj ht).1
    unfold Config.readLine
    rw [hspace, hline]
    -- the first two tests of `read_line` skip the line or find it indented
    dsimp only
    split
    · rfl
    · rw [List.head?_cons, if_neg (by decide), if_neg (by decide)]

/-- A key without quotes: it holds no colon, and no comment starts in it. -/
structure BareKey (key : Str) : Prop where
  nonempty : key ≠ []
  starts : ∀ b, key.head? = some b → b ≠ space ∧ b ≠ tab ∧ ∀ q : Quote, b ≠ q.byte
  ends : trimEnd key = key
  colon : colon ∉ key
  comment : Config.stripComment key = key

/-- What stands behind the colon of a key: nothing, or a space first. -/
def BehindKey (rest : Str) : Prop := rest = [] ∨ ∃ s, rest = space :: s

/-- What is trimmed and cut behind a key still starts with a space. -/
theorem BehindKey.starts {rest s : Str} (h : BehindKey rest) (hs : s <+: rest) : BehindKey s := by
  obtain rfl | ⟨t, rfl⟩ := h
  · exact .inl (List.prefix_nil.mp hs)
  · cases s with
    | nil => exact .inl rfl
    | cons b s =>
      obtain ⟨u, hu⟩ := hs
      obtain rfl := (List.cons.inj hu).1
      exact .inr ⟨s, rfl⟩

/-- What is left of a line stands at its front. -/
private theorem strippedFrom_starts (quote : Option Quote) (prevSpace : Bool) (s : Str) :
    strippedFrom quote prevSpace s <+: s := by
  induction s generalizing quote prevSpace with
  | nil => exact List.prefix_rfl
  | cons b s ih =>
    rw [strippedFrom_cons]
    split
    · exact List.nil_prefix
    · exact (List.cons_prefix_cons.mpr ⟨rfl, ih _ _⟩)

/-- What a line goes on with behind the colon of a key: that, or white space of any kind and a
    comment if the key leaves no quote open. -/
def KeyEnding (key rest : Str) : Prop :=
  BehindKey rest ∨ openQuote none key = none ∧ ∃ e : Trailing, rest = e.text

/-- A line with a key without quotes, and without what is cut off. -/
private theorem strip_key {key rest : Str} (hkey : Config.stripComment key = key)
    (hrest : KeyEnding key rest) :
    ∃ s, BehindKey s ∧
      trimEnd (Config.stripComment (key ++ colon :: rest)) = key ++ colon :: s := by
  -- up to the colon the line is kept; the colon itself starts no comment
  have hcut : Config.stripComment (key ++ colon :: rest) = key ++ colon ::
      strippedFrom (quoteAfter (openQuote none key) colon) false rest := by
    have hkey : strippedFrom none true key = key := hkey
    show strippedFrom none true (key ++ colon :: rest) = _
    rw [strippedFrom_append hkey, strippedFrom_cons, if_neg fun h => absurd h.2.1 (by decide)]
    rfl
  rw [hcut, trimEnd_append_cons (by decide)]
  refine ⟨_, ?_, rfl⟩
  -- behind the colon is a scalar with its own ending, or blanks and a comment
  obtain hrest | ⟨hopen, e, rfl⟩ := hrest
  · exact hrest.starts ((trimEnd_starts _).trans (strippedFrom_starts _ _ _))
  · have hcolon : quoteAfter none colon = none := rfl
    rw [hopen, hcolon, e.strippedFrom_text fun h => .inl (e.apart h), e.trimEnd_blanks]
    exact .inl rfl

/-- The colon behind a key without one ends it. -/
private theorem splitBare_append {key rest : Str} (hkey : colon ∉ key) (hrest : BehindKey rest) :
    Config.splitBare (key ++ colon :: rest) = some (key, colon :: rest) := by
  induction key with
  | nil =>
    have hends : Config.endsKey rest = true := by
      obtain rfl | ⟨s, rfl⟩ := hrest <;> rfl
    rw [List.nil_append, Config.splitBare, if_pos ⟨rfl, hends⟩]
  | cons b key ih =>
    rw [List.mem_cons, not_or] at hkey
    rw [List.cons_append, Config.splitBare, if_neg fun h => hkey.1 h.1.symm, ih hkey.2]
    rfl

/-- What `split_key` makes of a key and what stands behind it. -/
private theorem splitKey_of_keyAndAfter {line key rest : Str}
    (h : Config.keyAndAfter line = some (key, colon :: rest)) (hne : key ≠ [])
    (hrest : BehindKey rest) : Config.splitKey line = some (key, rest) := by
  have hcolon : stripPrefix [colon] (colon :: rest) = some rest := rfl
  have hbehind : (rest.isEmpty || rest.head? = some space) = true := by
    obtain rfl | ⟨s, rfl⟩ := hrest <;> rfl
  have hkey : key.isEmpty = false := by
    rw [Bool.eq_false_iff, ne_eq, List.isEmpty_iff]
    exact hne
  simp only [Config.splitKey, h, hcolon, hbehind, hkey, Option.bind_eq_bind, Option.bind_some,
    Bool.not_true, Bool.or_self, Bool.false_eq_true, if_false]

/-- A bare key ends at its colon. -/
private theorem splitKey_bare {key rest : Str} (h : BareKey key) (hrest : BehindKey rest) :
    Config.splitKey (key ++ colon :: rest) = some (key, rest) := by
  refine splitKey_of_keyAndAfter ?_ h.nonempty hrest
  cases key with
  | nil => exact absurd rfl h.nonempty
  | cons b key =>
    obtain ⟨-, -, hquote⟩ := h.starts b rfl
    rw [List.cons_append, Config.keyAndAfter, if_neg fun heq =>
      heq.elim (hquote .double) (hquote .single), ← List.cons_append,
      splitBare_append h.colon hrest, Option.map_some, h.ends]

/-- A quoted key ends at its quote, and the colon stands behind it. -/
private theorem splitKey_quoted {q : Quote} {name rest : Str} (hname : q.byte ∉ name)
    (hne : name ≠ []) (hrest : BehindKey rest) :
    Config.splitKey (q.byte :: (name ++ q.byte :: colon :: rest)) = some (name, rest) := by
  refine splitKey_of_keyAndAfter ?_ hne hrest
  have hquote : q.byte = doubleQuote ∨ q.byte = singleQuote := by cases q <;> decide
  rw [Config.keyAndAfter, if_pos hquote, List.splitOnce_append _ hname, Option.map_some,
    trimStart_eq_self (leadingSpace_cons (by decide) rest)]

/-- A line with something on it is read. -/
private theorem not_skipped {line : Str} {b : UInt8} (hb : 0x21 ≤ b ∧ b ≤ 0x7E) (hmem : b ∈ line)
    (hdash : b ∉ str "---") : ¬((trim line).isEmpty = true ∨ line = str "---") := by
  rintro (hempty | heq)
  · have htrim := mem_trim hb hmem
    rw [List.isEmpty_iff.mp hempty] at htrim
    exact List.not_mem_nil htrim
  · exact hdash (heq ▸ hmem)

/-- A key at the start of a line begins a section. -/
private theorem readLine_key {raw key rest : Str} (h : BareKey key) (hrest : BehindKey rest)
    (hline : trimEnd (Config.stripComment raw) = key ++ colon :: rest) (i : Nat)
    (current : Config.Section) (c : Config) :
    Config.readLine i current c raw =
      if key = str "cnames" then
        if !((trim rest).isEmpty || trim rest = str "\x7b\x7d") then Method.throw (.yaml (i + 1))
        else pure (.cnames, c)
      else pure (.other, c) := by
  -- the colon keeps the line from being blank or `---`
  have hmem : colon ∈ key ++ colon :: rest := List.mem_append_right _ List.mem_cons_self
  obtain ⟨b, hb⟩ : ∃ b, key.head? = some b := by
    cases key with
    | nil => exact absurd rfl h.nonempty
    | cons b key => exact ⟨b, rfl⟩
  have hhead : (key ++ colon :: rest).head? = some b := by
    rw [List.head?_append, hb]
    rfl
  -- the first byte of a bare key is neither a space nor a tab, so the line is not an indented one
  obtain ⟨hspace, htab, -⟩ := h.starts b hb
  unfold Config.readLine
  rw [hline]
  dsimp only
  rw [if_neg (not_skipped (by decide) hmem (by decide)), hhead,
    if_neg fun heq => htab (Option.some.inj heq), if_pos fun heq => hspace (Option.some.inj heq),
    splitKey_bare h hrest, Method.okOr_some_bind]

/-- A key that is not known begins another section, whatever stands behind it. -/
private theorem readLine_other {key rest : Str} (h : BareKey key) (hother : key ≠ str "cnames")
    (hrest : KeyEnding key rest) (i : Nat) (current : Config.Section) (c : Config) :
    Config.readLine i current c (key ++ colon :: rest) = pure (.other, c) := by
  obtain ⟨s, hs, hline⟩ := strip_key h.comment hrest
  rw [readLine_key h hs hline, if_neg hother]

/-- The line `cnames:` begins the section of the static CNAMEs. -/
private theorem readLine_cnames (e : Trailing) (i : Nat) (current : Config.Section) (c : Config) :
    Config.readLine i current c (str "cnames:" ++ e.text) = pure (.cnames, c) := by
  -- the key is there to be cut by no comment, and with no quote open
  have hline : trimEnd (Config.stripComment (str "cnames:" ++ e.text)) =
      str "cnames" ++ colon :: [] := by
    have hkey : strippedFrom none true (str "cnames:") = str "cnames:" := by decide
    have hopen : openQuote none (str "cnames:") = none := by decide
    show trimEnd (strippedFrom none true (str "cnames:" ++ e.text)) = _
    rw [strippedFrom_append hkey, hopen, e.strippedFrom_text fun h => .inl (e.apart h),
      trimEnd_append_blanks e.blank]
    exact trimEnd_eq_self (by decide)
  -- the five parts of a bare key are read off the text `cnames`
  have hkey : BareKey (str "cnames") := by
    refine ⟨by decide, ?_, trimEnd_eq_self (by decide), by decide, by decide⟩
    intro b hb
    obtain rfl := Option.some.inj hb
    exact ⟨by decide, by decide, fun q => by cases q <;> decide⟩
  rw [readLine_key hkey (.inl rfl) hline, if_pos rfl, trim_nil]
  rfl

/-! ## An entry -/

/-- A name and a target, and how they are written. -/
structure Entry where
  name : Str
  target : Str
  nameQuote : Quote
  targetQuote : Quote
  /-- one space of the indentation is always there -/
  indent : Nat
  /-- one space behind the colon is always there -/
  gap : Nat
  ending : Trailing
  nonempty : name ≠ []
  nameInLine : newline ∉ name
  targetInLine : newline ∉ target
  quotable : nameQuote.byte ∉ name

namespace Entry

/-- One space or more. -/
def spaces (n : Nat) : Str := List.replicate (n + 1) space

/-- The line up to the target. -/
def start (e : Entry) : Str :=
  spaces e.indent ++ e.nameQuote.byte :: (e.name ++ e.nameQuote.byte :: colon :: spaces e.gap)

/-- The line of the entry. -/
def text (e : Entry) : Str :=
  e.start ++ e.targetQuote.byte ::
    (e.targetQuote.inner e.target ++ e.targetQuote.byte :: e.ending.text)

/-- What is left of the value for the last pass. -/
def left (e : Entry) : Str :=
  e.targetQuote.byte :: leftOf e.targetQuote e.target e.ending.toEnding

/-- No comment is seen in a target in double quotes, and one behind it is seen. -/
def Plain (e : Entry) : Prop :=
  e.targetQuote = .double → Shielded e.target ∧
    (e.ending.comment ≠ none → openQuote (some .double) e.target = some .double)

/-- The value of a line is its target when a comment leaves it whole. -/
private theorem scalar_left (e : Entry) : Config.scalar e.left = some e.target ↔ e.Plain := by
  unfold left Plain
  cases hquote : e.targetQuote with
  | single => exact iff_of_true (scalar_single e.target e.ending) nofun
  | double => exact (scalar_double_iff e.target e.ending).trans ⟨fun h _ => h, fun h => h rfl⟩

private theorem isBlank_spaces (n : Nat) : ∀ b ∈ spaces n, IsBlank b := by
  intro b hb
  exact .inl (List.eq_of_mem_replicate hb)

/-- Spaces before a visible byte are trimmed away. -/
private theorem trimStart_spaces (n : Nat) {b : UInt8} (h : 0x21 ≤ b ∧ b ≤ 0x7E) (s : Str) :
    trimStart (spaces n ++ b :: s) = b :: s := by
  unfold spaces
  induction n with
  | zero =>
    rw [List.replicate_one, List.singleton_append, trimStart_cons_blank (by decide),
      trimStart_eq_self (leadingSpace_cons h s)]
  | succ n ih =>
    rw [List.replicate_succ, List.cons_append, trimStart_cons_blank (by decide), ih]

/-- Up to the target no comment starts, and no quote stays open. -/
private theorem stripped_start (e : Entry) :
    strippedFrom none true e.start = e.start ∧ openQuote none e.start = none := by
  -- an indent and a gap are blanks: they hold no hash and no quote
  have hspaces : ∀ n, hash ∉ spaces n ∧ ∀ q : Quote, q.byte ∉ spaces n := by
    intro n
    refine ⟨fun hb => absurd (isBlank_spaces n _ hb) (by decide), fun q hb => ?_⟩
    have hq : ¬IsBlank q.byte := by cases q <;> decide
    exact hq (isBlank_spaces n _ hb)
  -- a quote outside opens itself, and the same quote inside closes
  have hquote : ∀ q : Quote, quoteAfter none q.byte = some q := by
    intro q
    cases q <;> rfl
  have hclose : ∀ q : Quote, quoteAfter (some q) q.byte = none := fun q => if_pos rfl
  have hcolon : quoteAfter none colon = none := rfl
  -- the scan is followed through the four parts of the start
  have hindent := openQuote_outside (hspaces e.indent).2
  have hgap := openQuote_outside (hspaces e.gap).2
  have hname := openQuote_inside e.quotable
  unfold start
  -- the text is kept: indent, opening quote, name, closing quote, colon and gap in turn
  constructor
  · rw [strippedFrom_append (strippedFrom_of_not_mem (hspaces e.indent).1 none true), hindent,
      strippedFrom_cons, if_neg (fun h => e.nameQuote.byte_ne_hash h.2.1), hquote,
      strippedFrom_append (strippedFrom_inside e.quotable _), hname, strippedFrom_cons,
      if_neg (fun h => e.nameQuote.byte_ne_hash h.2.1), hclose, strippedFrom_cons,
      if_neg (fun h => absurd h.2.1 (by decide)), strippedFrom_of_not_mem (hspaces e.gap).1]
  -- the quote that the scan is in goes the same way
  · rw [openQuote_append, hindent, openQuote_cons, hquote, openQuote_append, hname, openQuote_cons,
      hclose, openQuote_cons, hcolon, hgap]

/-- What the first two passes leave of the line. -/
private theorem strip_text (e : Entry) : trimEnd (Config.stripComment e.text) = e.start ++ e.left :=
    by
  have hquote : ∀ q : Quote, quoteAfter none q.byte = some q ∧ decide (IsBlank q.byte) = false := by
    intro q
    cases q <;> exact ⟨rfl, rfl⟩
  obtain ⟨hstart, hopen⟩ := e.stripped_start
  show trimEnd (strippedFrom none true e.text) = _
  rw [text, strippedFrom_append hstart, hopen, strippedFrom_cons,
    if_neg (fun h => e.targetQuote.byte_ne_hash h.2.1), (hquote _).1, (hquote _).2,
    trimEnd_append_cons e.targetQuote.byte_visible]
  rfl

/-- The gap before a value is trimmed away. -/
private theorem trim_left (e : Entry) : trim (spaces e.gap ++ e.left) = e.left := by
  rw [trim, left, trimStart_spaces _ e.targetQuote.byte_visible]
  refine trimEnd_eq_self ?_
  rw [← List.nil_append (e.targetQuote.byte :: _), trailingSpace_append_cons
    e.targetQuote.byte_visible]
  exact trailingSpace_trimEnd _

/-- A line of the section comes to what its value does. -/
theorem readLine_text (e : Entry) (i : Nat) (c : Config) :
    Config.readLine i .cnames c e.text = (do
      let value ← Method.mapError (fun _ => Error.yaml (i + 1)) (Config.unquote e.left)
      tryReserve
      return (.cnames, ⟨c.cnames ++ [(← owned e.name, value)]⟩)) := by
  -- the quote around the name is the first visible byte of the line
  have hvisible := e.nameQuote.byte_visible
  have hstart : e.start ++ e.left = spaces e.indent ++ e.nameQuote.byte ::
      (e.name ++ e.nameQuote.byte :: colon :: (spaces e.gap ++ e.left)) := by
    simp only [start, List.append_assoc, List.cons_append]
  have hhead : (e.start ++ e.left).head? = some space := rfl
  -- the same quote keeps the line from being `---` or a comment
  have hmem : e.nameQuote.byte ∈ e.start ++ e.left := by
    rw [hstart]
    exact List.mem_append_right _ List.mem_cons_self
  have hdash : e.nameQuote.byte ∉ str "---" := by cases e.nameQuote <;> decide
  -- behind the indent stands the quoted name, which `split_key` takes whole
  have hsplit : Config.splitKey (trimStart (e.start ++ e.left)) =
      some (e.name, spaces e.gap ++ e.left) := by
    rw [hstart, trimStart_spaces _ hvisible]
    exact splitKey_quoted e.quotable e.nonempty (.inr ⟨_, rfl⟩)
  -- the branches of `read_line` in their order: not skipped, indented, and in the section
  unfold Config.readLine
  rw [e.strip_text]
  dsimp only
  rw [if_neg (not_skipped hvisible hmem hdash), hhead, if_neg (by decide), if_neg (by simp),
    hsplit, Method.okOr_some_bind]
  dsimp only
  rw [e.trim_left]

/-- With memory in plenty a value that can be read is added with the name. -/
private theorem run_text_some (e : Entry) {value : Str} (h : Config.scalar e.left = some value)
    (i : Nat) (c : Config) : (Config.readLine i .cnames c e.text).run [] =
      (.ok (.cnames, ⟨c.cnames ++ [(e.name, value)]⟩), []) := by
  rw [e.readLine_text, Config.unquote, h]
  rfl

/-- One that cannot be read ends the file. -/
private theorem run_text_none (e : Entry) (h : Config.scalar e.left = none) (i : Nat) (c : Config) :
    (Config.readLine i .cnames c e.text).run [] = (.error (.yaml (i + 1)), []) := by
  rw [e.readLine_text, Config.unquote, h]
  rfl

end Entry

/-! ## Lines after lines -/

/-- Lines that add no pair, and lead from one section to another. -/
def Passes (ls : List Str) (current next : Config.Section) : Prop :=
  ∀ i c rest, Config.parseLines i current c (ls ++ rest) =
    Config.parseLines (i + ls.length) next c rest

theorem Passes.nil (current : Config.Section) : Passes [] current current := fun _ _ _ => rfl

/-- Lines that are passed over may have one more before them. -/
theorem Passes.cons {line : Str} {ls : List Str} {current middle next : Config.Section}
    (h : ∀ i c, Config.readLine i current c line = pure (middle, c)) (hls : Passes ls middle next) :
    Passes (line :: ls) current next := by
  intro i c rest
  rw [List.cons_append, Config.parseLines, h, pure_bind]
  dsimp only
  rw [hls, List.length_cons, Nat.add_assoc, Nat.add_comm 1]

/-- Lines that are passed over may stand behind one another. -/
theorem Passes.append {ls ls' : List Str} {current middle next : Config.Section}
    (h : Passes ls current middle) (h' : Passes ls' middle next) :
    Passes (ls ++ ls') current next := by
  intro i c rest
  rw [List.append_assoc, h, h', List.length_append, Nat.add_assoc]

/-- Blank lines and comments are passed over in every section. -/
private theorem passes_fillers (es : List Ending) (current : Config.Section) :
    Passes (es.map Ending.text) current current := by
  induction es with
  | nil => exact .nil current
  | cons e es ih => exact .cons (fun i c => readLine_filler e i current c) ih

/-- What one line does to the pairs: they stay, or one more is behind them. -/
private theorem readLine_keeps {i : Nat} {current next : Config.Section} {c c' : Config} {raw : Str}
    {mem mem' : Mem} (h : (Config.readLine i current c raw).run mem = (.ok (next, c'), mem')) :
    c.cnames <+: c'.cnames := by
  -- the branches that return the config as it came
  have hpure : ∀ {s : Config.Section} {m : Mem},
      (pure (s, c) : Fallible (Config.Section × Config)).run m = (.ok (next, c'), mem') →
        c.cnames <+: c'.cnames := by
    intro s m h
    rw [Method.run_pure] at h
    obtain rfl := (Prod.mk.inj (Except.ok.inj (Prod.mk.inj h).1)).2
    exact List.prefix_rfl
  unfold Config.readLine at h
  dsimp only at h
  split at h
  · exact hpure h
  · split at h
    · exact nomatch h
    · split at h
      -- a key
      · obtain ⟨⟨key, rest⟩, m, -, h⟩ := Method.run_bind_eq_ok.mp h
        dsimp only at h
        split at h
        · split at h
          · exact nomatch h
          · exact hpure h
        · exact hpure h
      -- an indented line adds a pair only under `cnames:`
      · cases current with
        | top => exact nomatch h
        | other => exact hpure h
        -- the one branch that grows the list puts its pair at the end
        | cnames =>
          obtain ⟨⟨key, value⟩, m, -, h⟩ := Method.run_bind_eq_ok.mp h
          obtain ⟨value, m, -, h⟩ := Method.run_bind_eq_ok.mp h
          obtain ⟨-, m, -, h⟩ := Method.run_bind_eq_ok.mp h
          obtain ⟨key, m, -, h⟩ := Method.run_bind_eq_ok.mp h
          rw [Method.run_pure] at h
          obtain rfl := (Prod.mk.inj (Except.ok.inj (Prod.mk.inj h).1)).2
          exact List.prefix_append _ _

/-- Pairs that were read stay in front of those that are read later. -/
private theorem parseLines_keeps {i : Nat} {current : Config.Section} {c c' : Config}
    {ls : List Str}
    {mem mem' : Mem} (h : (Config.parseLines i current c ls).run mem = (.ok c', mem')) :
    c.cnames <+: c'.cnames := by
  induction ls generalizing i current c mem with
  | nil =>
    obtain rfl := Except.ok.inj (Prod.mk.inj h).1
    exact List.prefix_rfl
  | cons line ls ih =>
    obtain ⟨⟨next, c₁⟩, m, hline, hrest⟩ := Method.run_bind_eq_ok.mp h
    exact (readLine_keeps hline).trans (ih hrest)

/-! ## A written file -/

/-- A line of another section. -/
inductive OtherLine where
  | filler (e : Ending)
  /-- what stands behind the first space of the line -/
  | indented (s : Str) (inLine : newline ∉ s)

/-- The line as it is written. -/
def OtherLine.text : OtherLine → Str
  | filler e => e.text
  | indented s _ => space :: s

/-- Another section: its key, what stands behind the colon, and its lines. -/
structure OtherSection where
  key : Str
  rest : Str
  lines : List OtherLine
  bare : BareKey key
  other : key ≠ str "cnames"
  ending : KeyEnding key rest
  inLine : newline ∉ key ∧ newline ∉ rest

/-- The lines of a section as they are written. -/
def OtherSection.texts (s : OtherSection) : List Str :=
  (s.key ++ colon :: s.rest) :: s.lines.map OtherLine.text

/-- The lines of another section are passed over. -/
private theorem passes_otherLines (ls : List OtherLine) : Passes
    (ls.map OtherLine.text) .other .other := by
  induction ls with
  | nil => exact .nil .other
  | cons line ls ih =>
    refine .cons (fun i c => ?_) ih
    cases line with
    | filler e => exact readLine_filler e i .other c
    | indented s _ => exact readLine_indented s i c

/-- Other sections add no pair. -/
private theorem passes_sections (ss : List OtherSection) (current : Config.Section) :
    ∃ next, Passes (ss.flatMap OtherSection.texts) current next := by
  induction ss generalizing current with
  | nil => exact ⟨current, .nil current⟩
  | cons s ss ih =>
    obtain ⟨next, hnext⟩ := ih .other
    refine ⟨next, Passes.append ?_ hnext⟩
    exact .cons (fun i c => readLine_other s.bare s.other s.ending i current c)
      (passes_otherLines s.lines)

/-- A line of the section of the static CNAMEs. -/
inductive BlockLine where
  | filler (e : Ending)
  | entry (e : Entry)

namespace BlockLine

/-- The line as it is written. -/
def text : BlockLine → Str
  | filler e => e.text
  | entry e => e.text

/-- The entry on a line, if there is one. -/
def entry? : BlockLine → Option Entry
  | filler _ => none
  | entry e => some e

end BlockLine

/-- The pairs of a section come out as they were written exactly when each of its entries
    does. -/
theorem run_block (block : List BlockLine) {ls : List Str}
    (hls : ∃ next, Passes ls .cnames next) (i : Nat) (c : Config) :
    (Config.parseLines i .cnames c (block.map BlockLine.text ++ ls)).run [] =
        (.ok ⟨c.cnames ++ (block.filterMap BlockLine.entry?).map fun e => (e.name, e.target)⟩,
          []) ↔
      ∀ e ∈ block.filterMap BlockLine.entry?, e.Plain := by
  -- the induction is on the block, for every line number and every config so far
  induction block generalizing i c with
  | nil =>
    obtain ⟨next, hnext⟩ := hls
    have hpass := hnext i c []
    rw [List.append_nil] at hpass
    rw [List.map_nil, List.nil_append, hpass, List.filterMap_nil, List.map_nil, List.append_nil]
    exact iff_of_true rfl fun _ h => absurd h List.not_mem_nil
  | cons line block ih =>
    rw [List.map_cons, List.cons_append, Config.parseLines, List.filterMap_cons]
    cases line with
    -- a filler line leaves both sides as they are
    | filler e =>
      show (Config.readLine i .cnames c e.text >>= _).run [] = _ ↔ _
      rw [readLine_filler, pure_bind]
      exact ih (i + 1) c
    -- an entry adds its pair or stops the parse
    | entry e =>
      have hscalar := e.scalar_left
      show (Config.readLine i .cnames c e.text >>= fun next => Config.parseLines (i + 1) next.1
          next.2 (block.map BlockLine.text ++ ls)).run [] = (.ok ⟨c.cnames ++ (e.name, e.target) ::
        (block.filterMap BlockLine.entry?).map fun e => (e.name, e.target)⟩, []) ↔
        ∀ e' ∈ e :: block.filterMap BlockLine.entry?, e'.Plain
      rw [List.forall_mem_cons, ← hscalar]
      cases hread : Config.scalar e.left with
      -- no scalar: the line is the error
      | none =>
        rw [Method.run_bind_error _ (e.run_text_none hread i c)]
        exact iff_of_false nofun fun h => nomatch h.1
      | some value =>
        rw [Method.run_bind_ok _ (e.run_text_some hread i c)]
        -- a scalar that is not the target is kept, too, and the lines behind it do not take it back
        by_cases hvalue : value = e.target
        · subst hvalue
          have hrest := ih (i + 1) ⟨c.cnames ++ [(e.name, e.target)]⟩
          rw [List.append_assoc, List.singleton_append] at hrest
          rw [and_iff_right rfl]
          exact hrest
        -- a wrong pair stays in its place
        · refine iff_of_false (fun hrun => ?_) fun h => hvalue (Option.some.inj h.1)
          have hprefix := parseLines_keeps hrun
          rw [List.prefix_append_right_inj, List.cons_prefix_cons] at hprefix
          exact hvalue (Prod.mk.inj hprefix.1).2

/-- A file with a section of static CNAMEs: what stands on its lines. -/
structure WrittenConfig where
  top : List Ending
  before : List OtherSection
  /-- what stands behind `cnames:` -/
  ending : Trailing
  block : List BlockLine
  after : List OtherSection

namespace WrittenConfig

/-- The lines of the file. -/
def texts (w : WrittenConfig) : List Str :=
  w.top.map Ending.text ++ (w.before.flatMap OtherSection.texts ++
    (str "cnames:" ++ w.ending.text) ::
      (w.block.map BlockLine.text ++ w.after.flatMap OtherSection.texts))

/-- The text of the file. -/
def text (w : WrittenConfig) : Str := w.texts.flatMap (· ++ [newline])

/-- The entries of the section. -/
def entries (w : WrittenConfig) : List Entry := w.block.filterMap BlockLine.entry?

/-- The names and targets, in order. -/
def pairs (w : WrittenConfig) : List (Str × Str) := w.entries.map fun e => (e.name, e.target)

end WrittenConfig

/-! ## Reading it back -/

/-- No line ends within the blanks and the comment. -/
private theorem Ending.newline_not_mem (e : Ending) : newline ∉ e.text := by
  intro hmem
  obtain hb | hb := List.mem_append.mp hmem
  · exact absurd (e.blank _ hb) (by decide)
  · cases hcomment : e.comment with
    | none =>
      rw [hcomment] at hb
      exact absurd hb List.not_mem_nil
    | some c =>
      rw [hcomment] at hb
      exact (List.mem_cons.mp hb).elim (by decide) (e.inLine c hcomment)

/-- Quotes bring only themselves and backslashes into a text. -/
private theorem Quote.mem_inner {q : Quote} {s : Str} {b : UInt8} (h : b ∈ q.inner s) :
    b ∈ s ∨ b = backslash := by
  -- a quote in single quotes is doubled; in double quotes the quote and the backslash are escaped
  cases q with
  | single =>
    obtain ⟨a, ha, hb⟩ := List.mem_flatMap.mp h
    split at hb
    · obtain rfl | rfl := by simpa using hb
      exact .inl ha
    · obtain rfl := List.mem_singleton.mp hb
      exact .inl ha
  | double =>
    obtain ⟨a, ha, hb⟩ := List.mem_flatMap.mp h
    split at hb
    · obtain rfl | hb := List.mem_cons.mp hb
      · exact .inr rfl
      · obtain rfl := List.mem_singleton.mp hb
        exact .inl ha
    · obtain rfl := List.mem_singleton.mp hb
      exact .inl ha

/-- No line ends within an entry. -/
private theorem Entry.newline_not_mem (e : Entry) : newline ∉ e.text := by
  have hquote : ∀ q : Quote, newline ≠ q.byte := fun q => by cases q <;> decide
  have hspaces : ∀ n, newline ∉ Entry.spaces n := fun n hb =>
    absurd (Entry.isBlank_spaces n _ hb) (by decide)
  have hinner : newline ∉ e.targetQuote.inner e.target := fun hb =>
    (Quote.mem_inner hb).elim e.targetInLine (by decide)
  have hcolon : newline ≠ colon := by decide
  simp only [Entry.text, Entry.start, List.mem_append, List.mem_cons, not_or]
  exact ⟨⟨hspaces _, hquote _, e.nameInLine, hquote _, hcolon, hspaces _⟩, hquote _, hinner,
    hquote _, e.ending.newline_not_mem⟩

/-- No line ends within those of another section. -/
private theorem OtherSection.newline_not_mem (s : OtherSection) :
    ∀ line ∈ s.texts, newline ∉ line := by
  rw [OtherSection.texts, List.forall_mem_cons]
  constructor
  · simp only [List.mem_append, List.mem_cons, not_or]
    exact ⟨s.inLine.1, by decide, s.inLine.2⟩
  · rw [List.forall_mem_map]
    intro line _
    cases line with
    | filler e => exact e.newline_not_mem
    | indented t ht => exact List.not_mem_cons_of_ne_of_not_mem (by decide) ht

namespace WrittenConfig

/-- The lines of a file are its texts, each without a newline. -/
private theorem newline_not_mem (w : WrittenConfig) : ∀ line ∈ w.texts, newline ∉ line := by
  -- no section holds a newline, on whichever side of the block it stands
  have hsections : ∀ ss : List OtherSection,
      ∀ line ∈ ss.flatMap OtherSection.texts, newline ∉ line := by
    intro ss line hline
    obtain ⟨s, -, hline⟩ := List.mem_flatMap.mp hline
    exact s.newline_not_mem line hline
  -- the lines of the file, part by part
  simp only [texts, List.forall_mem_append, List.forall_mem_cons, List.forall_mem_map]
  refine ⟨fun e _ => e.newline_not_mem, hsections w.before, ?_, ?_, hsections w.after⟩
  · rw [List.mem_append, not_or]
    exact ⟨by decide, w.ending.newline_not_mem⟩
  · intro line _
    cases line with
    | filler e => exact e.newline_not_mem
    | entry e => exact e.newline_not_mem

/-- A file is read from the section of the static CNAMEs on. -/
private theorem parse_text (w : WrittenConfig) : ∃ i, Config.parse w.text =
    Config.parseLines i .cnames ⟨[]⟩
      (w.block.map BlockLine.text ++ w.after.flatMap OtherSection.texts) := by
  obtain ⟨next, hnext⟩ := passes_sections w.before .top
  have hbefore := (passes_fillers w.top .top).append hnext
  have hcnames :=
    hbefore.append (.cons (fun i c => readLine_cnames w.ending i next c) (.nil .cnames))
  refine ⟨_, Eq.trans ?_ (hcnames 0 ⟨[]⟩ _)⟩
  rw [text, parse_lines w.newline_not_mem, texts]
  simp only [List.append_assoc, List.singleton_append]

end WrittenConfig

/-- A written file is read back, name by name and target by target, exactly when each target in
    double quotes is left alone by the cut of the comment, and the comment behind it is not. -/
theorem parse_written_iff (w : WrittenConfig) :
    (Config.parse w.text).run [] = (.ok ⟨w.pairs⟩, []) ↔ ∀ e ∈ w.entries, e.Plain := by
  obtain ⟨i, hparse⟩ := w.parse_text
  rw [hparse]
  exact run_block w.block (passes_sections w.after .cnames) i ⟨[]⟩

/-! ## A file that is not read back -/

/-- A target with a double quote in it, and a comment behind it. -/
def quotedEntry : Entry where
  name := str "b.hop.local"
  target := str "q\"uote"
  nameQuote := .single
  targetQuote := .double
  indent := 1
  gap := 0
  ending := {
    blanks := [space]
    comment := some (str " trailing")
    blank := by decide +kernel
    inLine := by
      intro c hc
      obtain rfl := Option.some.inj hc
      decide
    apart := fun _ => by decide }
  nonempty := by decide
  nameInLine := by decide
  targetInLine := by decide
  quotable := by decide

/-- The file of that entry alone. -/
def quotedConfig : WrittenConfig where
  top := []
  before := []
  ending := ⟨⟨[], none, nofun, nofun⟩, fun h => absurd rfl h⟩
  block := [.entry quotedEntry]
  after := []

/-- The double quote in the target ends it for the cut of the comment, so the last one opens
    another, and the comment stays part of a value that does not end in a quote. -/
theorem quotedConfig_fails :
    quotedConfig.text = str "cnames:\n  'b.hop.local': \"q\\\"uote\" # trailing\n" ∧
    quotedConfig.pairs = [(str "b.hop.local", str "q\"uote")] ∧
    (Config.parse quotedConfig.text).run [] = (.error (.yaml 2), []) := by
  refine ⟨by decide, by decide, ?_⟩
  -- the comment hides the end of the scalar, so `unquote` finds no closing quote
  have hscalar : Config.scalar quotedEntry.left = none := by
    rw [Entry.left, leftOf, trimEnd_eq_self (by decide)]
    decide
  rw [WrittenConfig.text, parse_lines quotedConfig.newline_not_mem]
  -- the first line opens the block and the second is the error
  show (Config.readLine 0 .top ⟨[]⟩ (str "cnames:" ++ quotedConfig.ending.text) >>= fun next =>
    Config.parseLines 1 next.1 next.2 [quotedEntry.text]).run [] = _
  rw [readLine_cnames, pure_bind]
  exact Method.run_bind_error _ (quotedEntry.run_text_none hscalar 1 ⟨[]⟩)

end HopDns

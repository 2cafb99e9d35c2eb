import HopDns.Native.Config

/-!
# The flags

A flag may be written with one dash or two, and its value in the same argument or in the
next one. What the flags come to does not depend on it, and an error names the place of
the argument it is about.

## Key results

- `parseArgs_spell`: a flag is read in every spelling
- `parse_spelled`: the flags that any list of flags and values comes to
-/

namespace HopDns

open ForStd

/-- The flags there are. -/
inductive Flag where
  | listen
  | peer
  | domain
  | apiKey
  | config
deriving DecidableEq, Repr

/-- The name of a flag. -/
def Flag.name : Flag → Str
  | listen => str "listen"
  | peer => str "peer"
  | domain => str "domain"
  | apiKey => str "api-key"
  | config => str "config"

/-- One of the four ways to write a flag with its value. -/
structure Spelling where
  /-- with two dashes -/
  doubled : Bool
  /-- with `=` between the name and the value -/
  inline : Bool
deriving DecidableEq, Repr

/-- A flag with its value, as it is written. -/
structure Setting where
  flag : Flag
  value : Str
  spelling : Spelling
deriving DecidableEq, Repr

/-- The dashes in front of a name. -/
def dashes (doubled : Bool) : Str := if doubled then str "--" else str "-"

/-- The arguments it is written with. -/
def Setting.args (s : Setting) : List Str :=
  if s.spelling.inline then
    [dashes s.spelling.doubled ++ s.flag.name ++ equals :: s.value]
  else [dashes s.spelling.doubled ++ s.flag.name, s.value]

/-- What it does to the flags. -/
def Setting.apply (f : Flags) (s : Setting) : Flags :=
  match s.flag with
  | .listen => { f with listen := s.value }
  | .domain => { f with domain := s.value }
  | .apiKey => { f with apiKey := s.value }
  | .config => { f with config := some s.value }
  | .peer => if (trim s.value).isEmpty then f else { f with peers := f.peers ++ [trim s.value] }

/-- A setting is assigned to the field of its flag, or there is no memory for it. -/
private theorem assign_yields (f : Flags) (s : Setting) :
    Yields (f.assign s.flag.name s.value) (.ok (s.apply f)) := by
  obtain ⟨flag, value, spelling⟩ := s
  unfold Flags.assign
  -- the first four flags keep the last value, the fifth collects
  cases flag with
  | listen => exact (owned_yields value).bind (Computes.pure _)
  | domain => exact (owned_yields value).bind (Computes.pure _)
  | apiKey => exact (owned_yields value).bind (Computes.pure _)
  | config => exact (owned_yields value).bind (Computes.pure _)
  | peer =>
    -- `peer` is the last name that `assign` compares with
    have hname : Flag.peer.name ≠ str "listen" ∧ Flag.peer.name ≠ str "domain" ∧
        Flag.peer.name ≠ str "api-key" ∧ Flag.peer.name ≠ str "config" := by decide
    rw [if_neg hname.1, if_neg hname.2.1, if_neg hname.2.2.1, if_neg hname.2.2.2]
    unfold Setting.apply
    dsimp only
    -- a blank peer is passed over
    split
    · exact Computes.pure f
    · exact tryReserve_yields.bind ((owned_yields _).bind (Computes.pure _))

/-! ## One argument -/

/-- The dashes are taken off a name that does not start with one itself. -/
private theorem strip_dashes {doubled : Bool} {name : Str}
    (h : doubled = false → name.head? ≠ some 0x2D) :
    (stripPrefix (str "--") (dashes doubled ++ name)).or
      (stripPrefix (str "-") (dashes doubled ++ name)) = some name := by
  have hdashes : str "--" = [0x2D, 0x2D] ∧ str "-" = [0x2D] := by decide
  rw [dashes, hdashes.1, hdashes.2]
  -- two dashes are taken off first
  cases doubled with
  | true => rfl
  | false =>
    -- one dash is not two
    have hone : stripPrefix [0x2D, 0x2D] ([0x2D] ++ name) = none := by
      cases name with
      | nil => rfl
      | cons b name =>
        have hb : b ≠ 0x2D := fun heq => h rfl (heq ▸ rfl)
        rw [stripPrefix, if_neg (by simp [hb.symm])]
    rw [if_neg Bool.false_ne_true, hone]
    rfl

/-- There are no dashes to take off an argument that starts with none. -/
theorem strip_none {arg : Str} (h : arg.head? ≠ some 0x2D) :
    (stripPrefix (str "--") arg).or (stripPrefix (str "-") arg) = none := by
  have hdashes : str "--" = [0x2D, 0x2D] ∧ str "-" = [0x2D] := by decide
  rw [hdashes.1, hdashes.2]
  cases arg with
  | nil => rfl
  | cons b arg =>
    have hb : (0x2D : UInt8) ≠ b := fun heq => h (heq ▸ rfl)
    simp [stripPrefix, hb]

/-- The names of the flags. -/
def flagNames : List Str := [str "listen", str "peer", str "domain", str "api-key", str "config"]

/-- What follows a name in its argument. -/
def inlineText : Option Str → Str
  | some value => equals :: value
  | none => []

/-- An argument with dashes, of a name and perhaps a value. -/
def argument (doubled : Bool) (name : Str) (inline : Option Str) : Str :=
  dashes doubled ++ (name ++ inlineText inline)

/-- The name of an argument: no `=` is in it, and no dash before it but those of the argument. -/
structure ArgumentName (doubled : Bool) (name : Str) : Prop where
  equals : equals ∉ name
  dash : doubled = false → name.head? ≠ some 0x2D

/-- How an argument with a name is read. -/
theorem parseArgs_argument {doubled : Bool} {name : Str} (h : ArgumentName doubled name)
    (inline : Option Str) (f : Flags) (pos : Nat) (rest : List Str) :
    f.parseArgs pos (argument doubled name inline :: rest) =
      if name = str "h" ∨ name = str "help" then Method.throw .help
      else if name ∉ flagNames then Method.throw (.unknownFlag pos)
      else
        match inline, rest with
        | some value, rest => f.assign name value >>= fun f => f.parseArgs (pos + 1) rest
        | none, value :: rest => f.assign name value >>= fun f => f.parseArgs (pos + 2) rest
        | none, [] => Method.throw (.missingValue pos) := by
  -- behind one dash comes no second one, so one is taken off and not two
  have hdash : doubled = false → (name ++ inlineText inline).head? ≠ some 0x2D := by
    intro hsingle
    cases name with
    | nil =>
      cases inline with
      | some value => exact fun heq => absurd (Option.some.inj heq) (by decide)
      | none => exact nofun
    | cons b name => exact h.dash hsingle
  rw [Flags.parseArgs, argument, strip_dashes hdash]
  -- the value stands in the argument, or the next argument is the value
  cases inline with
  | some value =>
    simp only [inlineText, List.splitOnce_append value h.equals]
    rfl
  | none =>
    simp only [inlineText, List.append_nil, List.splitOnce_eq_none h.equals]
    rfl

/-! ## Any arguments -/

/-- The names of the flags hold nothing that would cut them. -/
theorem argumentName_flag (doubled : Bool) (flag : Flag) : ArgumentName doubled flag.name := by
  cases flag <;> exact ⟨by decide, fun _ => by decide⟩

theorem flag_known (flag : Flag) :
    ¬(flag.name = str "h" ∨ flag.name = str "help") ∧ ¬flag.name ∉ flagNames := by
  cases flag <;> decide

/-- A flag is read in every spelling, and the arguments behind it are counted on. -/
theorem parseArgs_spell (f : Flags) (pos : Nat) (s : Setting) {rest : List Str}
    {r : Except Error Flags} (h : Yields ((s.apply f).parseArgs (pos + s.args.length) rest) r) :
    Yields (f.parseArgs pos (s.args ++ rest)) r := by
  have hknown := flag_known s.flag
  have hname := argumentName_flag s.spelling.doubled s.flag
  unfold Setting.args at h ⊢
  -- inline the setting is one argument, and else two
  cases hinline : s.spelling.inline with
  | true =>
    rw [hinline, if_pos rfl] at h
    have hargs := parseArgs_argument hname (some s.value) f pos rest
    rw [if_neg hknown.1, if_neg hknown.2] at hargs
    rw [if_pos rfl, List.append_assoc]
    rw [argument, inlineText] at hargs
    rw [List.singleton_append, hargs]
    exact (assign_yields f s).bind h
  | false =>
    rw [hinline, if_neg Bool.false_ne_true] at h
    have hargs := parseArgs_argument hname none f pos (s.value :: rest)
    rw [if_neg hknown.1, if_neg hknown.2, argument, inlineText, List.append_nil] at hargs
    rw [if_neg Bool.false_ne_true, List.cons_append, List.singleton_append, hargs]
    exact (assign_yields f s).bind h

/-- The arguments of several flags. -/
def spelled (ss : List Setting) : List Str := ss.flatMap Setting.args

/-- Settings that are spelled are applied, and then the rest is parsed. -/
theorem parseArgs_spelled (f : Flags) (pos : Nat) (ss : List Setting) {rest : List Str}
    {r : Except Error Flags}
    (h : Yields ((ss.foldl Setting.apply f).parseArgs (pos + (spelled ss).length) rest) r) :
    Yields (f.parseArgs pos (spelled ss ++ rest)) r := by
  induction ss generalizing f pos with
  | nil => exact h
  | cons s ss ih =>
    rw [spelled, List.flatMap_cons, List.append_assoc]
    refine parseArgs_spell f pos s (ih _ _ ?_)
    rwa [spelled, List.flatMap_cons, List.length_append, ← Nat.add_assoc] at h

/-! ## What the flags come to -/

/-- The flag and the value, without the spelling. -/
def Setting.pair (s : Setting) : Flag × Str := (s.flag, s.value)

/-- The values given to a flag, in order. -/
def valuesOf (flag : Flag) (pairs : List (Flag × Str)) : List Str :=
  pairs.filterMap fun p => if p.1 = flag then some p.2 else none

/-- The last value given to a flag, or its default. -/
def lastOf (flag : Flag) (pairs : List (Flag × Str)) (default : Str) : Str :=
  (valuesOf flag pairs).getLast?.getD default

/-- The peers that are more than white space, trimmed, in order. -/
def peersOf (pairs : List (Flag × Str)) : List Str :=
  ((valuesOf .peer pairs).map trim).filter (· ≠ [])

/-- The first value of a flag stands before its others. -/
private theorem valuesOf_cons (flag : Flag) (p : Flag × Str) (pairs : List (Flag × Str)) :
    valuesOf flag (p :: pairs) =
      if p.1 = flag then p.2 :: valuesOf flag pairs else valuesOf flag pairs := by
  rw [valuesOf, List.filterMap_cons]
  -- the pair is of another flag, or its value comes first
  split
  · rename_i h
    split at h
    · cases h
    · rename_i hne
      rw [if_neg hne, valuesOf]
  · rename_i v h
    split at h
    · rename_i heq
      rw [if_pos heq, valuesOf, ← Option.some.inj h]
    · cases h

/-- The flags after all settings: the last value of each, and all peers. -/
theorem foldl_apply (ss : List Setting) (f : Flags) :
    ss.foldl Setting.apply f =
      { listen := lastOf .listen (ss.map Setting.pair) f.listen
        peers := f.peers ++ peersOf (ss.map Setting.pair)
        domain := lastOf .domain (ss.map Setting.pair) f.domain
        apiKey := lastOf .apiKey (ss.map Setting.pair) f.apiKey
        config := (valuesOf .config (ss.map Setting.pair)).getLast?.or f.config } := by
  -- the induction is on the settings, for any flags so far
  induction ss generalizing f with
  | nil => simp [lastOf, peersOf, valuesOf]
  | cons s ss ih =>
    obtain ⟨flag, value, spelling⟩ := s
    rw [List.foldl_cons, ih, List.map_cons]
    cases flag with
    -- a blank peer adds nothing to the list
    | peer =>
      by_cases hblank : trim value = []
      · simp [Setting.pair, Setting.apply, lastOf, peersOf, valuesOf_cons, hblank]
      · simp [Setting.pair, Setting.apply, lastOf, peersOf, valuesOf_cons, hblank]
    | listen | domain | apiKey | config =>
      simp [Setting.pair, Setting.apply, lastOf, peersOf, valuesOf_cons, List.getLast?_cons]

/-- What is behind the flags decides whether they can be read. -/
theorem parse_spelled_append (ss : List Setting) {rest : List Str} {e : Error}
    (h : ∀ f, Yields (Flags.parseArgs f (spelled ss).length rest) (.error e)) :
    Yields (Flags.parse (spelled ss ++ rest)) (.error e) := by
  refine (owned_yields _).bind ((owned_yields _).bind ?_)
  refine Computes.bind_error (parseArgs_spelled _ 0 ss ?_)
  rw [Nat.zero_add]
  exact h _

/-- Flags come to the same in every spelling: to an error without a peer, and otherwise to the
    last value of each and all peers in order. An argument behind them that cannot be read is
    named by its place. -/
theorem parse_spelled (ss : List Setting) :
    Yields (Flags.parse (spelled ss))
      (if peersOf (ss.map Setting.pair) = [] then .error .noPeer
      else .ok {
        listen := lastOf .listen (ss.map Setting.pair) DEFAULT_LISTEN
        peers := peersOf (ss.map Setting.pair)
        domain := lastOf .domain (ss.map Setting.pair) DEFAULT_DOMAIN
        apiKey := lastOf .apiKey (ss.map Setting.pair) []
        config := (valuesOf .config (ss.map Setting.pair)).getLast? }) ∧
    (∀ (arg : Str) (rest : List Str), arg.head? ≠ some 0x2D →
      Yields (Flags.parse (spelled ss ++ arg :: rest))
        (.error (.unexpectedArgument (spelled ss).length))) ∧
    (∀ (doubled : Bool) (name : Str) (inline : Option Str) (rest : List Str),
      ArgumentName doubled name → name ∉ flagNames → name ≠ str "h" → name ≠ str "help" →
        Yields (Flags.parse (spelled ss ++ argument doubled name inline :: rest))
          (.error (.unknownFlag (spelled ss).length))) ∧
    ∀ (doubled : Bool) (flag : Flag),
      Yields (Flags.parse (spelled ss ++ [argument doubled flag.name none]))
        (.error (.missingValue (spelled ss).length)) := by
  refine ⟨?_, ?_, ?_, ?_⟩
  -- a command line of settings alone: only the peers may be missing
  · have hread : Yields (Flags.parseArgs ⟨DEFAULT_LISTEN, [], DEFAULT_DOMAIN, [], none⟩ 0
        (spelled ss))
        (.ok (ss.foldl Setting.apply ⟨DEFAULT_LISTEN, [], DEFAULT_DOMAIN, [], none⟩)) := by
      have hall := @parseArgs_spelled ⟨DEFAULT_LISTEN, [], DEFAULT_DOMAIN, [], none⟩ 0 ss [] _
        (Computes.pure _)
      rwa [List.append_nil] at hall
    refine (owned_yields _).bind ((owned_yields _).bind (hread.bind ?_))
    rw [foldl_apply, List.nil_append, Option.or_none]
    split
    · rename_i hempty
      rw [if_pos (List.isEmpty_iff.mp hempty)]
      exact Computes.throw _
    · rename_i hpeers
      rw [if_neg fun h => hpeers (List.isEmpty_iff.mpr h)]
      exact Computes.pure _
  -- an argument without a dash stops the parse at its place
  · intro arg rest harg
    refine parse_spelled_append ss fun f => ?_
    rw [Flags.parseArgs, strip_none harg]
    exact Computes.throw _
  -- so does a flag with another name
  · intro doubled name inline rest hname hunknown hh hhelp
    refine parse_spelled_append ss fun f => ?_
    rw [parseArgs_argument hname, if_neg (not_or.mpr ⟨hh, hhelp⟩), if_pos hunknown]
    exact Computes.throw _
  -- and a flag without its value at the end
  · intro doubled flag
    refine parse_spelled_append ss fun f => ?_
    rw [parseArgs_argument (argumentName_flag doubled flag), if_neg (flag_known flag).1,
      if_neg (flag_known flag).2]
    exact Computes.throw _

end HopDns

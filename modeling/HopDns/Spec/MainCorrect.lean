import HopDns.Native.Start
import HopDns.Spec.FlagsCorrect

/-!
# What the program makes of its arguments

Every list of arguments is that of flags with their values, or it is up to an argument at which
reading stops. `main` starts the daemon with what the flags come to, or it names the argument.

## Key results

- `args_cases`: every list of arguments is read to its end, or up to an argument
- `main_exact`: what `main` makes of any arguments
-/

namespace HopDns

open ForStd

/-! ## Any argument -/

/-- Every argument that starts with a dash has dashes, a name and perhaps a value. -/
private theorem exists_argument {arg : Str} (h : arg.head? = some 0x2D) :
    ∃ doubled name inline, ArgumentName doubled name ∧ arg = argument doubled name inline := by
  -- the dashes come off, and the rest is cut at the first `=`
  have hcut : ∀ doubled flag, (doubled = false → flag.head? ≠ some 0x2D) →
      ∃ name inline, ArgumentName doubled name ∧
        dashes doubled ++ flag = argument doubled name inline := by
    intro doubled flag hflag
    cases hsplit : flag.splitOnce equals with
    | none =>
      refine ⟨flag, none, ⟨List.not_mem_of_splitOnce hsplit, hflag⟩, ?_⟩
      rw [argument, inlineText, List.append_nil]
    | some cut =>
      obtain ⟨name, value⟩ := cut
      obtain ⟨rfl, hequals⟩ := List.splitOnce_eq_some hsplit
      refine ⟨name, some value, ⟨hequals, fun hsingle => ?_⟩, rfl⟩
      cases name with
      | nil => exact (Option.some_ne_none _).symm
      | cons b name => exact hflag hsingle
  -- the dashes are one or two, as the second byte says
  have hdashes : str "--" = [0x2D, 0x2D] ∧ str "-" = [0x2D] := by decide
  obtain ⟨flag, rfl⟩ := List.head?_eq_some_iff.mp h
  by_cases hdoubled : flag.head? = some 0x2D
  · obtain ⟨rest, rfl⟩ := List.head?_eq_some_iff.mp hdoubled
    obtain ⟨name, inline, hname, heq⟩ := hcut true rest fun h => absurd h (by decide)
    rw [dashes, if_pos rfl, hdashes.1] at heq
    exact ⟨true, name, inline, hname, heq⟩
  · obtain ⟨name, inline, hname, heq⟩ := hcut false flag fun _ => hdoubled
    rw [dashes, if_neg Bool.false_ne_true, hdashes.2] at heq
    exact ⟨false, name, inline, hname, heq⟩

/-- Every name that is known is that of a flag. -/
private theorem exists_flag {name : Str} (h : name ∈ flagNames) : ∃ flag : Flag, flag.name = name :=
    by
  simp only [flagNames, List.mem_cons, List.not_mem_nil, or_false] at h
  obtain rfl | rfl | rfl | rfl | rfl := h
  · exact ⟨.listen, rfl⟩
  · exact ⟨.peer, rfl⟩
  · exact ⟨.domain, rfl⟩
  · exact ⟨.apiKey, rfl⟩
  · exact ⟨.config, rfl⟩

/-- Reading stops at the argument, which is at the place `pos`, with an error. -/
inductive Stops (pos : Nat) : Str → List Str → Error → Prop
  | notFlag {arg : Str} {rest : List Str} :
      arg.head? ≠ some 0x2D → Stops pos arg rest (.unexpectedArgument pos)
  | help {doubled : Bool} {name : Str} {inline : Option Str} {rest : List Str} :
      ArgumentName doubled name → name = str "h" ∨ name = str "help" →
        Stops pos (argument doubled name inline) rest .help
  | unknown {doubled : Bool} {name : Str} {inline : Option Str} {rest : List Str} :
      ArgumentName doubled name → ¬(name = str "h" ∨ name = str "help") → name ∉ flagNames →
        Stops pos (argument doubled name inline) rest (.unknownFlag pos)
  | noValue {doubled : Bool} {flag : Flag} :
      Stops pos (argument doubled flag.name none) [] (.missingValue pos)

/-- The error at which reading stops. -/
private theorem Stops.yields {pos : Nat} {arg : Str} {rest : List Str} {e : Error}
    (h : Stops pos arg rest e) (f : Flags) : Yields (f.parseArgs pos (arg :: rest)) (.error e) := by
  -- one of the four ways to stop, each an early return of `parse_args`
  cases h with
  | notFlag harg =>
    rw [Flags.parseArgs, strip_none harg]
    exact Computes.throw _
  | help hname hhelp =>
    rw [parseArgs_argument hname, if_pos hhelp]
    exact Computes.throw _
  | unknown hname hhelp hunknown =>
    rw [parseArgs_argument hname, if_neg hhelp, if_pos hunknown]
    exact Computes.throw _
  | @noValue doubled flag =>
    rw [parseArgs_argument (argumentName_flag doubled flag), if_neg (flag_known flag).1,
      if_neg (flag_known flag).2]
    exact Computes.throw _

/-- The error names the place of the argument, or none. -/
theorem Stops.argumentAt {pos : Nat} {arg : Str} {rest : List Str} {e : Error}
    (h : Stops pos arg rest e) {args : List Str} (harg : args[pos]? = some arg) :
    argumentAt args e = if e = .help then none else some arg := by
  cases h with
  | notFlag => exact harg
  | help => rfl
  | unknown => exact harg
  | noValue => exact harg

private theorem spelled_cons (s : Setting) (ss : List Setting) : spelled
    (s :: ss) = s.args ++ spelled ss :=
  List.flatMap_cons

/-- The arguments are those of flags with their values, or up to an argument at which reading
    stops; `pos` arguments stand before them. -/
def ReadFrom (pos : Nat) (args : List Str) : Prop :=
  (∃ ss, args = spelled ss) ∨ ∃ ss arg rest e, args = spelled ss ++ arg :: rest ∧
    Stops (pos + (spelled ss).length) arg rest e

/-- One flag more in front. -/
theorem ReadFrom.cons {pos : Nat} {args : List Str} (s : Setting)
    (h : ReadFrom (pos + s.args.length) args) : ReadFrom pos (s.args ++ args) := by
  obtain ⟨ss, rfl⟩ | ⟨ss, arg, rest, e, rfl, hstops⟩ := h
  · exact .inl ⟨s :: ss, (spelled_cons s ss).symm⟩
  · refine .inr ⟨s :: ss, arg, rest, e, by rw [spelled_cons, List.append_assoc], ?_⟩
    rwa [spelled_cons, List.length_append, ← Nat.add_assoc]

/-- Every list of arguments is that of flags with their values, or it is up to an argument at which
    reading stops. -/
theorem args_cases (pos : Nat) : (args : List Str) → ReadFrom pos args
  | [] => .inl ⟨[], rfl⟩
  | arg :: rest => by
    -- an argument with a dash is asked for help, known or unknown
    by_cases hdash : arg.head? = some 0x2D
    · obtain ⟨doubled, name, inline, hname, rfl⟩ := exists_argument hdash
      by_cases hhelp : name = str "h" ∨ name = str "help"
      · exact .inr ⟨[], _, rest, _, rfl, .help hname hhelp⟩
      by_cases hknown : name ∈ flagNames
      -- inline or not, a known flag is a setting, and the rest is read from behind it
      · obtain ⟨flag, rfl⟩ := exists_flag hknown
        cases inline with
        | some value =>
          have hargs : (⟨flag, value, doubled, true⟩ : Setting).args =
              [argument doubled flag.name (some value)] := by
            rw [argument, inlineText, ← List.append_assoc]
            rfl
          have hread : ReadFrom pos ((⟨flag, value, doubled, true⟩ : Setting).args ++ rest) :=
            (args_cases _ rest).cons _
          rwa [hargs] at hread
        | none =>
          -- the value is the next argument, if there is one
          cases rest with
          | nil => exact .inr ⟨[], _, [], _, rfl, .noValue⟩
          | cons value rest =>
            have hargs : (⟨flag, value, doubled, false⟩ : Setting).args =
                [argument doubled flag.name none, value] := by
              rw [argument, inlineText, List.append_nil]
              rfl
            have hread : ReadFrom pos ((⟨flag, value, doubled, false⟩ : Setting).args ++ rest) :=
              (args_cases _ rest).cons _
            rwa [hargs] at hread
      · exact .inr ⟨[], _, rest, _, rfl, .unknown hname hhelp hknown⟩
    · exact .inr ⟨[], arg, rest, _, rfl, .notFlag hdash⟩
termination_by args => args.length

/-! ## The program -/

/-- The flags that a list of flags and values comes to. -/
def flagsOf (ss : List Setting) : Flags where
  listen := lastOf .listen (ss.map Setting.pair) DEFAULT_LISTEN
  peers := peersOf (ss.map Setting.pair)
  domain := lastOf .domain (ss.map Setting.pair) DEFAULT_DOMAIN
  apiKey := lastOf .apiKey (ss.map Setting.pair) []
  config := (valuesOf .config (ss.map Setting.pair)).getLast?

/-- The settings are applied one after the other to the defaults. -/
private theorem foldl_flagsOf (ss : List Setting) :
    ss.foldl Setting.apply ⟨DEFAULT_LISTEN, [], DEFAULT_DOMAIN, [], none⟩ = flagsOf ss := by
  rw [foldl_apply, List.nil_append, Option.or_none]
  rfl

/-- Flags with their values come to the last value of each and all peers. -/
private theorem parse_spelled_yields (ss : List Setting) :
    Yields (Flags.parse (spelled ss))
      (if (flagsOf ss).peers = [] then .error .noPeer else .ok (flagsOf ss)) := by
  have hall := @parseArgs_spelled ⟨DEFAULT_LISTEN, [], DEFAULT_DOMAIN, [], none⟩ 0 ss [] _
    (Computes.pure _)
  rw [List.append_nil, foldl_flagsOf] at hall
  refine (owned_yields _).bind ((owned_yields _).bind (hall.bind ?_))
  -- settings alone are a command line if they name a peer
  by_cases hpeers : (flagsOf ss).peers = []
  · rw [if_pos hpeers, if_pos (List.isEmpty_iff.mpr hpeers)]
    exact Computes.throw _
  · rw [if_neg hpeers, if_neg fun h => hpeers (List.isEmpty_iff.mp h)]
    exact Computes.pure _

/-- What becomes of the program with the daemon. -/
def served : Except HostError Unit → Exit
  | .error e => ⟨[], str "hopdns: DNS server error: " ++ e.text ++ str " HOPDNS_FATAL\n", 1⟩
  | .ok () => ⟨[], [], 0⟩

/-- What is shown of the error, and then the usage. -/
def usageAfter (shown : Str) : Exit := ⟨[], shown ++ newline :: (USAGE ++ [newline]), 2⟩

/-- What is refused is said before the usage. -/
private theorem usageAfter_refusal (args : List Str) (e : Error) :
    (⟨[], refusal args e, 2⟩ : Exit) = usageAfter (str "hopdns: " ++
      match argumentAt args e with
      | some arg => arg ++ str ": " ++ e.text
      | none => e.text) := by
  unfold refusal usageAfter
  cases argumentAt args e <;> simp

/-- With little memory the program does what it does with plenty, or says that there is none. -/
private theorem main_of_yields {args : List Str} {daemon : Flags → Except HostError Unit}
    {r : Except Error Flags} (h : Yields (Flags.parse args) r) (mem : Mem) :
    main args daemon mem = main args daemon [] ∨
      main args daemon mem = usageAfter (str "hopdns: " ++ Error.text .outOfMemory) := by
  unfold main
  obtain hsame | hoom := h.lean mem
  · left
    rw [hsame, h.ample]
  · right
    rw [hoom]
    exact usageAfter_refusal args .outOfMemory

/-- What the program makes of its arguments. They are flags with their values, and then the daemon
    serves what these come to, or there is no peer among them; or they are such up to an argument
    that asks for help or that cannot be read, and the program says which one and why. Without
    memory it says that. -/
theorem main_exact (args : List Str) (daemon : Flags → Except HostError Unit) :
    (∀ mem, main args daemon mem = main args daemon [] ∨
      main args daemon mem = usageAfter (str "hopdns: " ++ Error.text .outOfMemory)) ∧
    ((∃ ss, args = spelled ss ∧ main args daemon [] =
        if (flagsOf ss).peers = [] then usageAfter (str "hopdns: " ++ Error.text .noPeer)
        else served (daemon (flagsOf ss))) ∨
      ∃ ss arg rest e, args = spelled ss ++ arg :: rest ∧ Stops (spelled ss).length arg rest e ∧
        main args daemon [] =
          if e = .help then ⟨USAGE ++ [newline], [], 0⟩
          else usageAfter (str "hopdns: " ++ arg ++ str ": " ++ e.text)) := by
  -- the arguments are settings throughout, or settings up to one that stops the parse
  obtain ⟨ss, rfl⟩ | ⟨ss, arg, rest, e, rfl, hstops⟩ := args_cases 0 args
  · have hread := parse_spelled_yields ss
    refine ⟨main_of_yields hread, .inl ⟨ss, rfl, ?_⟩⟩
    unfold main
    rw [hread.ample]
    by_cases hpeers : (flagsOf ss).peers = []
    · rw [if_pos hpeers, if_pos hpeers]
      exact usageAfter_refusal _ .noPeer
    · rw [if_neg hpeers, if_neg hpeers]
      rfl
  · rw [Nat.zero_add] at hstops
    have hread := parse_spelled_append ss fun f => hstops.yields f
    refine ⟨main_of_yields hread, .inr ⟨ss, arg, rest, e, rfl, hstops, ?_⟩⟩
    have harg : (spelled ss ++ arg :: rest)[(spelled ss).length]? = some arg := by simp
    have hplace := hstops.argumentAt harg
    unfold main
    rw [hread.ample]
    -- `-h` prints the usage and ends well
    by_cases hhelp : e = .help
    · rw [if_pos hhelp, hhelp]
    -- every other reason is printed with its argument
    · rw [if_neg hhelp]
      rw [if_neg hhelp] at hplace
      have hrefusal := usageAfter_refusal (spelled ss ++ arg :: rest) e
      rw [hplace] at hrefusal
      simpa using hrefusal

end HopDns

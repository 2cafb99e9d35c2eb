import HopDns.Native.Server

/-!
# The configuration

`config`: the flags, the peers, and the optional file with static CNAMEs.
-/

namespace HopDns

open ForStd

/-- `config::DEFAULT_LISTEN` -/
def DEFAULT_LISTEN : Str := str ":5353"

/-- `s.strip_prefix(prefix)` -/
def stripPrefix (start s : Str) : Option Str :=
  if start.isPrefixOf s then some (s.drop start.length) else none

/-- `s.strip_suffix(suffix)` -/
def stripSuffix (ending s : Str) : Option Str :=
  if ending.isSuffixOf s then some (s.take (s.length - ending.length)) else none

/-- `'='` -/
def equals : UInt8 := 0x3D

/-- `'/'` -/
def slash : UInt8 := 0x2F

/-- `'@'` -/
def atSign : UInt8 := 0x40

/-- `':'` -/
def colon : UInt8 := 0x3A

/-- `' '` -/
def space : UInt8 := 0x20

/-- `'\t'` -/
def tab : UInt8 := 0x09

/-- `'\n'` -/
def newline : UInt8 := 0x0A

/-- `'\r'` -/
def carriageReturn : UInt8 := 0x0D

/-- `'"'` -/
def doubleQuote : UInt8 := 0x22

/-- `'\''` -/
def singleQuote : UInt8 := 0x27

/-- `'\\'` -/
def backslash : UInt8 := 0x5C

/-- `'#'` -/
def hash : UInt8 := 0x23

/-! ## The flags -/

/-- The flags of the daemon. -/
structure Flags where
  listen : Str
  /-- every `-peer`, in order -/
  peers : List Str
  domain : Str
  apiKey : Str
  config : Option Str
deriving DecidableEq, Repr

namespace Flags

/-- What `-name value` does to the flags. -/
def assign (f : Flags) (name value : Str) : Fallible Flags := do
  if name = str "listen" then
    return { f with listen := ← owned value }
  else if name = str "domain" then
    return { f with domain := ← owned value }
  else if name = str "api-key" then
    return { f with apiKey := ← owned value }
  else if name = str "config" then
    return { f with config := some (← owned value) }
  -- a peer of white space alone is none
  else if (trim value).isEmpty then
    return f
  else
    tryReserve
    return { f with peers := f.peers ++ [← owned (trim value)] }

/-- The loop of `parse` over the arguments, of which `pos` were read before. -/
def parseArgs (f : Flags) (pos : Nat) : List Str → Fallible Flags
  | [] => pure f
  | arg :: rest =>
    -- two dashes are as good as one
    match (stripPrefix (str "--") arg).or (stripPrefix (str "-") arg) with
    | none => Method.throw (.unexpectedArgument pos)
    | some flag =>
      let (name, inline) := match flag.splitOnce equals with
        | some (name, value) => (name, some value)
        | none => (flag, none)
      if name = str "h" ∨ name = str "help" then Method.throw .help
      else if name ∉ [str "listen", str "peer", str "domain", str "api-key", str "config"] then
        Method.throw (.unknownFlag pos)
      else
        match inline, rest with
        -- a value behind `=` takes no argument with it
        | some value, rest => do
          let f ← f.assign name value
          parseArgs f (pos + 1) rest
        -- the value is the next argument, whatever it looks like
        | none, value :: rest => do
          let f ← f.assign name value
          parseArgs f (pos + 2) rest
        | none, [] => Method.throw (.missingValue pos)

/-- The flags read from the arguments, without the name of the program. -/
def parse (args : List Str) : Fallible Flags := do
  let listen ← owned DEFAULT_LISTEN
  let domain ← owned DEFAULT_DOMAIN
  let f ← parseArgs { listen, peers := [], domain, apiKey := [], config := none } 0 args
  if f.peers.isEmpty then Method.throw .noPeer
  else return f

end Flags

/-! ## The peers -/

namespace Config

/-- A peer: its endpoint, and the key it signs with. -/
structure Peer where
  /-- the URL without the key and without a slash at its end -/
  endpoint : Str
  /-- without a key there is no authentication -/
  apiKey : Option Str
deriving DecidableEq, Repr

/-- `s.trim_end_matches('/')` -/
def trimSlashes (s : Str) : Str := (s.reverse.dropWhile (· = slash)).reverse

/-- The authority and the path of what stands behind the scheme. -/
def splitPath (rest : Str) : Str × Str :=
  -- the slash belongs to the path
  match rest.findIdx? (· = slash) with
  | some i => (rest.take i, rest.drop i)
  | none => (rest, [])

/-- The key and the host of an authority: the last `@` ends the user, the first `:` in it the
    key. -/
def keyAndHost (authority defaultKey : Str) : Str × Str :=
  match authority.rsplitOnce atSign with
  | some (user, host) => (user.takeWhile (· ≠ colon), host)
  | none => (defaultKey, authority)

/-- The URL of a peer; a key in it goes before `defaultKey`. -/
def Peer.parse (raw defaultKey : Str) : Fallible Peer := do
  let raw := trim raw
  let (scheme, rest) ← Method.okOr (raw.splitOnceSeq (str "://")) .badPeer
  if !(eqIgnoreAsciiCase scheme (str "http") || eqIgnoreAsciiCase scheme (str "https")) then
    Method.throw .badPeer
  else
    let (authority, path) := splitPath rest
    let (key, host) := keyAndHost authority defaultKey
    -- a key without a host, or nothing at all
    if host.isEmpty then Method.throw .badPeer
    else
      tryReserve
      let endpoint := scheme ++ str "://" ++ host ++ trimSlashes path
      -- an empty key is none
      if key.isEmpty then return ⟨endpoint, none⟩
      else return ⟨endpoint, some (← owned key)⟩

/-- A byte in `format_args!`. -/
def decimal (b : UInt8) : Str := (Nat.toDigits 10 b.toNat).map fun c => UInt8.ofNat c.toNat

/-- The four bytes of an address with dots between them. -/
def dotted (ip : Ipv4Addr) : Str :=
  decimal ip.a ++ dot :: (decimal ip.b ++ dot :: (decimal ip.c ++ dot :: decimal ip.d))

/-- The user of an authority, if it has one, and the host with the port. -/
def splitUser (auth : Str) : Option Str × Str :=
  match auth.rsplitOnce atSign with
  | some (user, host) => (some user, host)
  | none => (none, auth)

/-- `userinfo.map_or(0, |u| u.len() + 1)` -/
def userLength (userinfo : Option Str) : Nat :=
  match userinfo with
  | some user => user.length + 1
  | none => 0

/-- The user as it is written before a host: with the `@`. -/
def userText (userinfo : Option Str) : Str :=
  match userinfo with
  | some user => user ++ [atSign]
  | none => []

/-- `raw` with `ip` in the place of its host, if that is `hostAlias`. -/
def withHostAlias (raw hostAlias : Str) (ip : Ipv4Addr) : Fallible Str := do
  let raw := trim raw
  match raw.splitOnceSeq (str "://") with
  | none => owned raw
  | some (scheme, rest) =>
    -- what stands before the first of these; there is always such a part
    let auth := rest.takeWhile fun b => b ≠ slash ∧ b ≠ 0x3F ∧ b ≠ 0x23
    let (userinfo, hostport) := splitUser auth
    let host := hostport.takeWhile (· ≠ colon)
    if host ≠ hostAlias then owned raw
    else
      -- the rest of the URL, cut out by the lengths of what stands before it
      let start := userLength userinfo + host.length
      let afterHost := (rest.getRange? start rest.length).getD []
      tryReserve
      return scheme ++ str "://" ++ userText userinfo ++ dotted ip ++ afterHost

end Config

/-! ## The file -/

/-- What `str::lines` takes off the end of a line. -/
def stripReturn (line : Str) : Str := (stripSuffix [carriageReturn] line).getD line

/-- `text.lines()`: every line ends in a line feed but the last, and there is no last one if
    it would be empty. -/
def lines (text : Str) : List Str :=
  let parts := text.splitOn newline
  let last := parts.getLastD []
  let ended := parts.dropLast.map stripReturn
  if last = [] then ended else ended ++ [last]

/-- The static CNAMEs, in the order of the file. -/
structure Config where
  cnames : List (Str × Str)
deriving DecidableEq, Repr

namespace Config

/-- In which section of the file a line stands. -/
inductive Section where
  /-- no key before it -/
  | top
  /-- under `cnames:` -/
  | cnames
  /-- under a key that hopdns does not know -/
  | other
deriving DecidableEq, Repr

/-- The loop of `strip_comment`: `quote` is the quote that is open, and `prevSpace` says whether
    white space stands before the line. -/
def stripCommentFrom (quote : Option UInt8) (prevSpace : Bool) : Str → Str
  | [] => []
  | ch :: rest =>
    let blank : Bool := ch = space || ch = tab
    match quote with
    -- within quotes only the same quote ends them
    | some q => ch :: stripCommentFrom (if ch = q then none else some q) blank rest
    | none =>
      if ch = doubleQuote ∨ ch = singleQuote then ch :: stripCommentFrom (some ch) blank rest
      -- the rest of the line is the comment
      else if ch = hash ∧ prevSpace then []
      else ch :: stripCommentFrom none blank rest

/-- A line without its comment: a `#` outside quotes, at the start or behind white space. -/
def stripComment (line : Str) : Str := stripCommentFrom none true line

/-- What stands behind a colon that ends a bare key. The byte behind it is looked at as a text,
    which there is not at the end of the line, and not for a part of a character either. -/
def endsKey : Str → Bool
  | [] => true
  | b :: _ => b = space || 0x80 ≤ b

/-- A line before the first colon that ends a bare key, and from there on. -/
def splitBare : Str → Option (Str × Str)
  | [] => none
  | b :: rest =>
    if b = colon ∧ endsKey rest then some ([], b :: rest)
    else (splitBare rest).map fun cut => (b :: cut.1, cut.2)

/-- The key of a line, and what stands behind it. -/
def keyAndAfter : Str → Option (Str × Str)
  | [] => none
  | first :: body =>
    if first = doubleQuote ∨ first = singleQuote then
      (body.splitOnce first).map fun cut => (cut.1, trimStart cut.2)
    else (splitBare (first :: body)).map fun cut => (trimEnd cut.1, cut.2)

/-- The key of a line without its quotes, and what stands behind the colon. -/
def splitKey (line : Str) : Option (Str × Str) := do
  let (key, after) ← keyAndAfter line
  let rest ← stripPrefix [colon] after
  if !(rest.isEmpty || rest.head? = some space) || key.isEmpty then none
  else some (key, rest)

/-- The loop of `unquote` between double quotes. -/
def unescape : Str → Option Str
  | [] => some []
  | c :: rest =>
    if c = backslash then
      match rest with
      | [] => none
      | d :: rest =>
        let out := if d = 0x6E then newline else if d = 0x74 then tab else d
        (unescape rest).map (out :: ·)
    else (unescape rest).map (c :: ·)

/-- `s.replace("''", "'")` -/
def replaceDoubled : Str → Str
  | [] => []
  | [b] => [b]
  | b :: c :: rest =>
    if b = singleQuote ∧ c = singleQuote then b :: replaceDoubled rest
    else b :: replaceDoubled (c :: rest)

/-- A scalar without its quotes. -/
def scalar (v : Str) : Option Str :=
  match stripPrefix [doubleQuote] v, stripPrefix [singleQuote] v with
  | some body, _ => (stripSuffix [doubleQuote] body).bind unescape
  | none, some body => (stripSuffix [singleQuote] body).map replaceDoubled
  | none, none =>
    if (v.head?.any fun b => b ∈ str "\x7b[&|>") then none else some v

/-- A scalar without its quotes; without memory it is none. -/
def unquote (v : Str) : Method Unit Mem Str := do
  Mem.request ()
  Method.okOr (scalar v) ()

/-- What the line `i` does to the section and the pairs read so far. -/
def readLine (i : Nat) (current : Section) (c : Config) (raw : Str) :
    Fallible (Section × Config) :=
  let bad := Error.yaml (i + 1)
  let line := trimEnd (stripComment raw)
  if (trim line).isEmpty ∨ line = str "---" then return (current, c)
  else if line.head? = some tab then Method.throw bad
  else if line.head? ≠ some space then do
    let (key, rest) ← Method.okOr (splitKey line) bad
    if key = str "cnames" then
      if !((trim rest).isEmpty || trim rest = str "\x7b\x7d") then Method.throw bad
      else return (.cnames, c)
    else return (.other, c)
  else
    match current with
    | .top => Method.throw bad
    | .other => return (current, c)
    | .cnames => do
      let (key, value) ← Method.okOr (splitKey (trimStart line)) bad
      let value ← Method.mapError (fun _ => bad) (unquote (trim value))
      tryReserve
      return (current, ⟨c.cnames ++ [(← owned key, value)]⟩)

/-- The loop of `parse` over the lines from the line `i` on. -/
def parseLines (i : Nat) (current : Section) (c : Config) : List Str → Fallible Config
  | [] => pure c
  | raw :: rest => do
    let (current, c) ← readLine i current c raw
    parseLines (i + 1) current c rest

/-- The static CNAMEs of a file. -/
def parse (text : Str) : Fallible Config := parseLines 0 .top ⟨[]⟩ (lines text)

end Config

end HopDns

import HopDns.Native.Config

/-!
# The URL of a peer

Three functions cut a URL, at other bytes and from other ends: where the user ends, where
the host does, and where the path begins. On a URL made of parts that hold none of the
bytes that end them, all of them find the same parts.

## Key results

- `URLParts.peer_parse`, `URLParts.withHostAlias_text`: what is made of the parts
- `peer_of_alias`: a peer that is named by an alias
-/

namespace HopDns

open ForStd

/-- The parts of a URL. -/
structure URLParts where
  scheme : Str
  /-- what stands before the `@` -/
  user : Option Str
  host : Str
  /-- the digits behind the `:` -/
  port : Option Str
  path : Str

namespace URLParts

/-- The user, with the `@`. -/
def userText (p : URLParts) : Str := Config.userText p.user

/-- The port, with the `:`. -/
def portText (p : URLParts) : Str :=
  match p.port with
  | some port => colon :: port
  | none => []

/-- The URL of the parts. -/
def text (p : URLParts) : Str :=
  p.scheme ++ (str "://" ++ (p.userText ++ (p.host ++ (p.portText ++ p.path))))

/-- The endpoint: everything but the user and the slashes at the end. -/
def endpoint (p : URLParts) : Str :=
  p.scheme ++ str "://" ++ (p.host ++ p.portText) ++ Config.trimSlashes p.path

/-- The key: the user up to its first colon, if there is a user, and none if that is empty. -/
def key (p : URLParts) (defaultKey : Str) : Option Str :=
  let key := match p.user with
    | some user => user.takeWhile (· ≠ colon)
    | none => defaultKey
  if key = [] then none else some key

/-- The URL with another host. -/
def withHost (p : URLParts) (host : Str) : URLParts := { p with host }

/-- Bytes that a host can have: none of those that end one. -/
def HostBytes (host : Str) : Prop :=
  ∀ b ∈ host, b ≠ slash ∧ b ≠ 0x3F ∧ b ≠ 0x23 ∧ b ≠ atSign ∧ b ≠ colon

/-- The parts of a URL of a peer, without white space outside. -/
structure Valid (p : URLParts) : Prop where
  scheme : eqIgnoreAsciiCase p.scheme (str "http") = true ∨
    eqIgnoreAsciiCase p.scheme (str "https") = true
  user : ∀ user, p.user = some user → ∀ b ∈ user, b ≠ slash ∧ b ≠ 0x3F ∧ b ≠ 0x23
  host : p.host ≠ [] ∧ HostBytes p.host
  port : ∀ port, p.port = some port → ∀ b ∈ port, 0x30 ≤ b ∧ b ≤ 0x39
  path : p.path = [] ∨ ∃ rest, p.path = slash :: rest
  trimmed : trim p.text = p.text

variable {p : URLParts}

/-! ## Where the cuts are -/

/-- What stands before the path. -/
def authority (p : URLParts) : Str := p.userText ++ (p.host ++ p.portText)

/-- Without a user the authority is the host with its port. -/
private theorem authority_of_none (h : p.user = none) : p.authority = p.host ++ p.portText := by
  rw [authority, userText, h]
  rfl

/-- A scheme has no colon in it. -/
private theorem colon_not_mem_scheme (h : p.Valid) : colon ∉ p.scheme := by
  intro hcolon
  have hfold : colon ∈ lowercase p.scheme :=
    List.mem_map.mpr ⟨colon, hcolon, (toAsciiLowercase_eq_iff (by decide) (by decide)).mpr rfl⟩
  obtain hscheme | hscheme := h.scheme
  · rw [(eqIgnoreAsciiCase_iff _ _).mp hscheme] at hfold
    exact absurd hfold (by decide)
  · rw [(eqIgnoreAsciiCase_iff _ _).mp hscheme] at hfold
    exact absurd hfold (by decide)

/-- No digit and no dot ends a part. -/
private theorem digit_bytes {b : UInt8} (h : b = dot ∨ 0x30 ≤ b ∧ b ≤ 0x39) :
    b ≠ slash ∧ b ≠ 0x3F ∧ b ≠ 0x23 ∧ b ≠ atSign ∧ b ≠ colon := by
  refine ⟨?_, ?_, ?_, ?_, ?_⟩ <;> rintro rfl <;> exact absurd h (by decide)

/-- No byte of the host or the port ends the user or the authority. -/
private theorem hostPort_bytes (h : p.Valid) :
    ∀ b ∈ p.host ++ p.portText, b ≠ slash ∧ b ≠ 0x3F ∧ b ≠ 0x23 ∧ b ≠ atSign := by
  intro b hb
  -- a byte of the host, of the port, or the colon before it
  obtain hb | hb := List.mem_append.mp hb
  · obtain ⟨hslash, hquery, hfragment, hat, -⟩ := h.host.2 b hb
    exact ⟨hslash, hquery, hfragment, hat⟩
  · unfold portText at hb
    split at hb
    · rename_i port hport
      obtain rfl | hb := List.mem_cons.mp hb
      · decide
      · obtain ⟨hslash, hquery, hfragment, hat, -⟩ := digit_bytes (.inr (h.port port hport b hb))
        exact ⟨hslash, hquery, hfragment, hat⟩
    · exact absurd hb List.not_mem_nil

/-- No byte of the authority ends it. -/
private theorem authority_bytes (h : p.Valid) :
    ∀ b ∈ p.authority, b ≠ slash ∧ b ≠ 0x3F ∧ b ≠ 0x23 := by
  intro b hb
  -- a byte of the user, the sign behind it, or one of the rest
  obtain hb | hb := List.mem_append.mp hb
  · unfold userText Config.userText at hb
    split at hb
    · rename_i user huser
      obtain hb | hb := List.mem_append.mp hb
      · exact h.user user huser b hb
      · obtain rfl := List.mem_singleton.mp hb
        decide
    · exact absurd hb List.not_mem_nil
  · obtain ⟨hslash, hquery, hfragment, -⟩ := hostPort_bytes h b hb
    exact ⟨hslash, hquery, hfragment⟩

/-- The text is cut behind its scheme. -/
private theorem splitOnceSeq_text (h : p.Valid) :
    p.text.splitOnceSeq (str "://") = some (p.scheme, p.authority ++ p.path) := by
  have hseparator : str "://" = colon :: str "//" := by decide
  have hrest : p.userText ++ (p.host ++ (p.portText ++ p.path)) = p.authority ++ p.path := by
    simp only [authority, List.append_assoc]
  rw [text, hrest, hseparator]
  exact List.splitOnceSeq_append _ (colon_not_mem_scheme h)

/-- The user ends at the last `@`. -/
private theorem rsplitOnce_authority (h : p.Valid) : p.authority.rsplitOnce atSign =
    p.user.map fun user => (user, p.host ++ p.portText) := by
  have hat : atSign ∉ p.host ++ p.portText := fun hb => (hostPort_bytes h _ hb).2.2.2 rfl
  unfold authority userText Config.userText
  cases p.user with
  | some user =>
    simp only [List.append_assoc, List.singleton_append]
    exact List.rsplitOnce_append user hat
  | none => exact List.rsplitOnce_eq_none hat

/-- The path begins at the first slash. -/
private theorem splitPath_text (h : p.Valid) :
    Config.splitPath (p.authority ++ p.path) = (p.authority, p.path) := by
  have hnone : p.authority.findIdx? (· = slash) = none := by
    rw [List.findIdx?_eq_none_iff]
    exact fun b hb => by simpa using (authority_bytes h b hb).1
  rw [Config.splitPath, List.findIdx?_append, hnone, Option.none_or]
  obtain hpath | ⟨rest, hpath⟩ := h.path
  · rw [hpath, List.append_nil]
    rfl
  · rw [hpath, List.findIdx?_cons]
    simp

/-- The authority ends where the path begins, for there is no query behind it. -/
private theorem takeWhile_authority (h : p.Valid) :
    (p.authority ++ p.path).takeWhile (fun b => b ≠ slash ∧ b ≠ 0x3F ∧ b ≠ 0x23) =
      p.authority := by
  rw [List.takeWhile_append_of_pos fun b hb => by simpa using authority_bytes h b hb]
  obtain hpath | ⟨rest, hpath⟩ := h.path
  · rw [hpath, List.takeWhile_nil, List.append_nil]
  · rw [hpath, List.takeWhile_cons_of_neg (by decide), List.append_nil]

/-- The host ends at the first colon. -/
private theorem takeWhile_host (h : p.Valid) : (p.host ++ p.portText).takeWhile
    (· ≠ colon) = p.host := by
  rw [List.takeWhile_append_of_pos fun b hb => by simpa using (h.host.2 b hb).2.2.2.2]
  unfold portText
  cases p.port with
  | some port => rw [List.takeWhile_cons_of_neg (by decide), List.append_nil]
  | none => rw [List.takeWhile_nil, List.append_nil]

/-! ## What is made of the parts -/

/-- The peer of a URL: its endpoint without the user, and its key. -/
theorem peer_parse (h : p.Valid) (defaultKey : Str) :
    Yields (Config.Peer.parse p.text defaultKey) (.ok ⟨p.endpoint, p.key defaultKey⟩) := by
  -- the scheme is one of the two, in whatever case
  have hscheme : (eqIgnoreAsciiCase p.scheme (str "http") ||
      eqIgnoreAsciiCase p.scheme (str "https")) = true := by
    rw [Bool.or_eq_true]
    exact h.scheme
  have hhost : ¬(p.host ++ p.portText).isEmpty = true := by simp [h.host.1]
  -- with a user the key is what stands before the last `@`, and else the default
  have hcut : ∃ key, Config.keyAndHost p.authority defaultKey = (key, p.host ++ p.portText) ∧
      p.key defaultKey = if key = [] then none else some key := by
    rw [Config.keyAndHost, rsplitOnce_authority h, key]
    cases huser : p.user with
    | some user => exact ⟨_, rfl, rfl⟩
    | none =>
      exact ⟨defaultKey, by rw [authority_of_none huser]; rfl, rfl⟩
  obtain ⟨key, hcut, hkey⟩ := hcut
  have hendpoint : p.scheme ++ str "://" ++ (p.host ++ p.portText) ++ Config.trimSlashes p.path =
      p.endpoint := rfl
  unfold Config.Peer.parse
  rw [h.trimmed]
  -- the scheme is cut off, then the path, then the user
  refine (okOr_yields (splitOnceSeq_text h) _).bind ?_
  simp only [hscheme, Bool.not_true, Bool.false_eq_true, if_false, splitPath_text h, hcut,
    if_neg hhost, hendpoint, hkey]
  refine tryReserve_yields.bind ?_
  -- an empty key is no key
  by_cases hempty : key = []
  · rw [if_pos hempty, if_pos (List.isEmpty_iff.mpr hempty)]
    exact Computes.pure _
  · rw [if_neg hempty, if_neg fun h => hempty (List.isEmpty_iff.mp h)]
    exact (owned_yields key).bind (Computes.pure _)

/-- A URL with another host in the place of an alias, and as it was without. -/
theorem withHostAlias_text (h : p.Valid) (hostAlias : Str) (ip : Ipv4Addr) :
    Yields (Config.withHostAlias p.text hostAlias ip)
      (.ok (if hostAlias = p.host then (p.withHost (Config.dotted ip)).text else p.text)) := by
  -- the user and what stands behind it are cut at the last `@`
  have hcut : Config.splitUser p.authority = (p.user, p.host ++ p.portText) := by
    rw [Config.splitUser, rsplitOnce_authority h]
    cases huser : p.user with
    | some user => rfl
    | none =>
      rw [authority_of_none huser]
      rfl
  -- what stands behind the host, cut out by lengths
  have hlength : Config.userLength p.user = p.userText.length := by
    rw [userText]
    cases p.user with
    | some user =>
      rw [Config.userLength, Config.userText, List.length_append, List.length_singleton]
    | none => rfl
  have hafter : (p.authority ++ p.path).getRange? (p.userText.length + p.host.length)
      (p.authority ++ p.path).length = some (p.portText ++ p.path) := by
    have hrest : p.authority ++ p.path =
        (p.userText ++ p.host) ++ ((p.portText ++ p.path) ++ []) := by
      simp only [authority, List.append_assoc, List.append_nil]
    have hat := List.hasAt_middle (p.userText ++ p.host) (p.portText ++ p.path) []
    rw [List.length_append] at hat
    rw [hrest, List.getRange?_eq_some_iff]
    exact ⟨by simp only [List.length_append, List.append_nil], Nat.le_refl _, hat⟩
  -- the URL with the host's address in the place of its name
  have htext : p.scheme ++ str "://" ++ Config.userText p.user ++ Config.dotted ip ++
      (p.portText ++ p.path) = (p.withHost (Config.dotted ip)).text := by
    simp only [text, withHost, userText, portText, List.append_assoc]
  unfold Config.withHostAlias
  rw [h.trimmed]
  simp only [splitOnceSeq_text h, takeWhile_authority h, hcut, takeWhile_host h, hlength, hafter,
    Option.getD_some]
  -- only a host of that very name is replaced
  by_cases hname : hostAlias = p.host
  · rw [if_pos hname, if_neg (not_not_intro hname.symm)]
    refine tryReserve_yields.bind ?_
    rw [← htext]
    exact Computes.pure _
  · rw [if_neg hname, if_pos (Ne.symm hname)]
    exact owned_yields _

/-! ## The address in the place of the alias -/

/-- A number is written in digits. -/
private theorem decimal_bytes (n : UInt8) : ∀ b ∈ Config.decimal n, 0x30 ≤ b ∧ b ≤ 0x39 := by
  intro b hb
  obtain ⟨c, hc, rfl⟩ := List.mem_map.mp hb
  have hdigit : 48 ≤ c.toNat ∧ c.toNat ≤ 57 :=
    Char.isDigit_iff_toNat.mp (Nat.isDigit_of_mem_toDigits (by decide) (by decide) hc)
  rw [UInt8.le_iff_toNat_le, UInt8.le_iff_toNat_le, UInt8.toNat_ofNat']
  simp only [UInt8.reduceToNat]
  omega

/-- An address is digits and dots. -/
private theorem dotted_bytes (ip : Ipv4Addr) :
    ∀ b ∈ Config.dotted ip, b = dot ∨ 0x30 ≤ b ∧ b ≤ 0x39 := by
  intro b hb
  simp only [Config.dotted, List.mem_append, List.mem_cons] at hb
  obtain hb | hb | hb | hb | hb | hb | hb := hb
  all_goals first
    | exact .inl hb
    | exact .inr (decimal_bytes _ b hb)

/-- An address ends in a digit. -/
private theorem dotted_ends (ip : Ipv4Addr) :
    ∃ s b, Config.dotted ip = s ++ [b] ∧ 0x30 ≤ b ∧ b ≤ 0x39 := by
  -- the last of the four numbers has a digit
  have hne : Config.decimal ip.d ≠ [] := by
    rw [Config.decimal, ne_eq, List.map_eq_nil_iff]
    exact Nat.toDigits_ne_nil
  obtain ⟨digits, b, hdigits⟩ := List.eq_nil_or_concat _ |>.resolve_left hne
  rw [List.concat_eq_append] at hdigits
  refine ⟨Config.decimal ip.a ++ dot :: (Config.decimal ip.b ++ dot :: (Config.decimal ip.c ++
    dot :: digits)), b, ?_, decimal_bytes ip.d b ?_⟩
  · simp only [Config.dotted, hdigits, List.append_assoc, List.cons_append]
  · rw [hdigits]
    exact List.mem_append_right _ List.mem_cons_self

/-- The scheme starts with a letter. -/
private theorem scheme_starts (h : p.Valid) : ∃ b rest, p.scheme = b ::
    rest ∧ 0x21 ≤ b ∧ b ≤ 0x7E := by
  -- both schemes start with the same letter
  have hfold : ∃ rest, lowercase p.scheme = 0x68 :: rest := by
    obtain hscheme | hscheme := h.scheme
    · exact ⟨_, (eqIgnoreAsciiCase_iff _ _).mp hscheme⟩
    · exact ⟨_, (eqIgnoreAsciiCase_iff _ _).mp hscheme⟩
  obtain ⟨rest, hfold⟩ := hfold
  cases hscheme : p.scheme with
  | nil => rw [hscheme] at hfold; exact nomatch hfold
  | cons b rest =>
    rw [hscheme] at hfold
    have hb : toAsciiLowercase b = 0x68 := (List.cons.inj hfold).1
    refine ⟨b, rest, rfl, ?_⟩
    -- its other case is a visible byte, too
    have hall : ∀ b : UInt8, toAsciiLowercase b = 0x68 → 0x21 ≤ b ∧ b ≤ 0x7E := by
      intro b hb
      unfold toAsciiLowercase at hb
      split at hb
      · rename_i hupper
        exact ⟨UInt8.le_trans (by decide) hupper.1, UInt8.le_trans hupper.2 (by decide)⟩
      · rw [hb]
        decide
    exact hall b hb

/-- What stands behind the host starts with a colon or a slash. -/
private theorem behindHost (h : p.Valid) : p.portText ++ p.path = [] ∨
    ∃ b rest, p.portText ++ p.path = b :: rest ∧ 0x21 ≤ b ∧ b ≤ 0x7E := by
  unfold portText
  cases p.port with
  | some port => exact .inr ⟨colon, port ++ p.path, rfl, by decide, by decide⟩
  | none =>
    obtain hpath | ⟨rest, hpath⟩ := h.path
    · exact .inl hpath
    · exact .inr ⟨slash, rest, hpath, by decide, by decide⟩

/-- With an address for its host a URL is one still. -/
private theorem withHost_valid (h : p.Valid) (ip : Ipv4Addr) :
    (p.withHost (Config.dotted ip)).Valid := by
  -- the address that is put in ends in a digit
  obtain ⟨digits, last, hends, hlast⟩ := dotted_ends ip
  refine ⟨h.scheme, h.user, ⟨?_, ?_⟩, h.port, h.path, ?_⟩
  · simp [withHost, hends]
  · exact fun b hb => digit_bytes (dotted_bytes ip b hb)
  -- the new URL has no blank at its ends either
  · refine trim_eq_self ?_ ?_
    · obtain ⟨b, rest, hscheme, hb⟩ := scheme_starts h
      simp only [text, withHost, hscheme, List.cons_append]
      exact leadingSpace_cons hb _
    · obtain hbehind | ⟨b, rest, hbehind, hb⟩ := behindHost h
      -- nothing is behind the host: the URL ends in the last digit
      · have htext : (p.withHost (Config.dotted ip)).text =
            (p.scheme ++ (str "://" ++ (p.userText ++ digits))) ++ last :: [] := by
          show p.scheme ++ (str "://" ++ (p.userText ++ (Config.dotted ip ++
            (p.portText ++ p.path)))) = _
          rw [hbehind, hends]
          simp only [List.append_assoc, List.append_nil]
        rw [htext, trailingSpace_append_cons ⟨UInt8.le_trans (by decide) hlast.1,
          UInt8.le_trans hlast.2 (by decide)⟩]
        decide
      -- what is behind the host was there before
      · have htrail := trailingSpace_trim p.text
        have hbefore : p.text =
            (p.scheme ++ (str "://" ++ (p.userText ++ p.host))) ++ b :: rest := by
          rw [← hbehind]
          simp only [text, List.append_assoc]
        have hafter : (p.withHost (Config.dotted ip)).text =
            (p.scheme ++ (str "://" ++ (p.userText ++ Config.dotted ip))) ++ b :: rest := by
          rw [← hbehind]
          simp only [text, withHost, userText, portText, List.append_assoc]
        rw [h.trimmed, hbefore, trailingSpace_append_cons hb] at htrail
        rw [hafter, trailingSpace_append_cons hb]
        exact htrail

end URLParts

/-- The URL of the leader on this node: `http://key@HOP:9080/`. -/
def leaderURL : URLParts where
  scheme := str "http"
  user := some (str "key")
  host := str "HOP"
  port := some (str "9080")
  path := [slash]

/-- The URL of the leader is valid. -/
private theorem leaderURL_valid : leaderURL.Valid where
  -- each part of the example's URL
  scheme := .inl (by decide)
  user := by
    intro user huser
    obtain rfl := Option.some.inj huser
    decide +kernel
  host := ⟨by decide, by unfold URLParts.HostBytes; decide +kernel⟩
  port := by
    intro port hport
    obtain rfl := Option.some.inj hport
    decide +kernel
  path := .inr ⟨[], rfl⟩
  trimmed := trim_eq_self (by decide) (by decide)

end HopDns

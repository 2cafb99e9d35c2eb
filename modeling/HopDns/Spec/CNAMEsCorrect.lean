import HopDns.Native.CNAMEs

/-!
# What the table of CNAMEs finds

The table is filled pair by pair and looked up label by label. Told by the pairs
alone: the last pair with the name gives the target, or else the last one with a star
over the longest parent that has a star.

## Key results

- `CNAMEs.get_newOf`: the table has the last target each key was given
- `CNAMEs.lookup_new`: a lookup finds what the pairs say of the name
-/

namespace HopDns

open ForStd

/-- The key of a pair as it is compared. -/
def normalKey (name : Str) : Str := lowercase (stripDot (trim name))

/-- The target as a full name, with a dot at its end. -/
def dotted (target : Str) : Str :=
  if (trim target).getLast? = some dot then trim target else trim target ++ [dot]

/-- The star over a parent. -/
def starOver (parent : Str) : Str := 0x2A :: dot :: parent

/-- The pair gives `key` a target. An empty key has none, and a blank target is none. -/
def Defines (pair : Str × Str) (key : Str) : Prop :=
  normalKey pair.1 = key ∧ key ≠ [] ∧ trim pair.2 ≠ []

instance (pair : Str × Str) (key : Str) : Decidable (Defines pair key) :=
  inferInstanceAs (Decidable (normalKey pair.1 = key ∧ key ≠ [] ∧ trim pair.2 ≠ []))

/-- The target the last of the pairs gives to `key`. -/
def lastTarget (pairs : List (Str × Str)) (key : Str) : Option Str :=
  (pairs.filter fun pair => Defines pair key).getLast?.map fun pair => dotted pair.2

/-- `parent` is left of `name` without one or more labels at its front. -/
def ParentOf (name parent : Str) : Prop := parent ≠ [] ∧ ∃ labels, name = labels ++ dot :: parent

/-- What the pairs say of a name: its own target, or that of the star over its longest parent
    with one, or nothing. -/
inductive CNAMEOf (pairs : List (Str × Str)) (name : Str) : Option Str → Prop
  | exact {target : Str} (htarget : lastTarget pairs name = some target) :
      CNAMEOf pairs name (some target)
  | wildcard {parent target : Str} (hexact : lastTarget pairs name = none)
      (hparent : ParentOf name parent)
      (htarget : lastTarget pairs (starOver parent) = some target)
      (hlongest : ∀ p, ParentOf name p → lastTarget pairs (starOver p) ≠ none →
        p.length ≤ parent.length) : CNAMEOf pairs name (some target)
  | none (hexact : lastTarget pairs name = none)
      (hparents : ∀ p, ParentOf name p → lastTarget pairs (starOver p) = none) :
      CNAMEOf pairs name none

/-- An empty key has no target. -/
private theorem lastTarget_nil (pairs : List (Str × Str)) : lastTarget pairs [] = none := by
  have hnone : (pairs.filter fun pair => Defines pair []) = [] :=
    List.filter_eq_nil_iff.mpr fun pair _ h => (of_decide_eq_true h).2.1 rfl
  rw [lastTarget, hnone]
  rfl

/-! ## Parents -/

/-- A name has one parent of each length. -/
theorem ParentOf.eq_of_length {name p p' : Str} (h : ParentOf name p) (h' : ParentOf name p')
    (hlen : p.length = p'.length) : p = p' := by
  obtain ⟨-, labels, rfl⟩ := h
  obtain ⟨-, labels', heq⟩ := h'
  exact List.cons.inj (List.append_inj_right' heq (by simp [hlen])) |>.2

/-- The parents of a name that is cut: the rest after its first label, and the parents of that. -/
private theorem parentOf_iff {name label rest p : Str}
    (hcut : name.splitOnce dot = some (label, rest)) :
    ParentOf name p ↔ p ≠ [] ∧ (p = rest ∨ ParentOf rest p) := by
  obtain ⟨rfl, hlabel⟩ := List.splitOnce_eq_some hcut
  -- the first dot of the name cuts it in one way only
  constructor
  · intro h
    obtain ⟨hne, labels, heq⟩ := h
    refine ⟨hne, ?_⟩
    by_cases hdot : dot ∈ labels
    -- the first label is one of several that are taken off
    · cases hl : labels.splitOnce dot with
      | none => exact absurd hdot (List.not_mem_of_splitOnce hl)
      | some cut =>
        obtain ⟨l, more⟩ := cut
        obtain ⟨rfl, hfirst⟩ := List.splitOnce_eq_some hl
        rw [List.append_assoc, List.cons_append] at heq
        rw [heq, List.splitOnce_append _ hfirst] at hcut
        obtain ⟨-, rfl⟩ := Prod.mk.inj (Option.some.inj hcut)
        exact .inr ⟨hne, more, rfl⟩
    · rw [heq, List.splitOnce_append _ hdot] at hcut
      exact .inl (Prod.mk.inj (Option.some.inj hcut)).2
  -- the other direction puts the label back
  · intro h
    obtain ⟨hne, rfl | h⟩ := h
    · exact ⟨hne, label, rfl⟩
    · obtain ⟨-, labels, rfl⟩ := h
      exact ⟨hne, label ++ dot :: labels, by simp⟩

/-- A name that is not cut has no parent. -/
private theorem not_parentOf {name : Str} (hcut : name.splitOnce dot = none) (p : Str) :
    ¬ParentOf name p := by
  intro h
  obtain ⟨-, labels, rfl⟩ := h
  exact List.not_mem_of_splitOnce hcut (by simp)

/-- The pairs say one thing of a name. -/
theorem CNAMEOf.unique {pairs : List (Str × Str)} {name : Str} {r r' : Option Str}
    (h : CNAMEOf pairs name r) (h' : CNAMEOf pairs name r') : r = r' := by
  -- an exact entry comes first, so the two are of one kind
  cases h with
  | exact htarget =>
    cases h' with
    | exact htarget' => rw [← htarget, htarget']
    | wildcard hexact _ _ _ => rw [htarget] at hexact; cases hexact
    | none hexact _ => rw [htarget] at hexact; cases hexact
  | wildcard hexact hparent htarget hlongest =>
    rename_i parent target
    cases h' with
    | exact htarget' => rw [htarget'] at hexact; cases hexact
    | wildcard hexact' hparent' htarget' hlongest' =>
      rename_i parent' target'
      -- each is at most as long as the other
      have hlen : parent.length = parent'.length := Nat.le_antisymm
        (hlongest' parent hparent (by rw [htarget]; exact Option.some_ne_none _))
        (hlongest parent' hparent' (by rw [htarget']; exact Option.some_ne_none _))
      rw [← htarget, ← htarget', hparent.eq_of_length hparent' hlen]
    | none _ hparents => rw [hparents parent hparent] at htarget; cases htarget
  -- no parent has a target
  | none hexact hparents =>
    cases h' with
    | exact htarget' => rw [htarget'] at hexact; cases hexact
    | wildcard _ hparent' htarget' _ => rw [hparents _ hparent'] at htarget'; cases htarget'
    | none _ _ => rfl

/-! ## Filling the table -/

/-- The key of a name is computed, or there is no memory for it. -/
private theorem keyOf_yields (name : Str) : Yields (keyOf name) (.ok (normalKey name)) :=
  tryReserve_yields.bind (Computes.pure _)

/-- The full name is computed, or there is no memory for it. -/
private theorem fqdn_yields (name : Str) : Yields (fqdn name) (.ok (dotted name)) :=
  tryReserve_yields.bind (Computes.pure _)

/-- The parent a key has its star over. -/
def starParent (key : Str) : Option Str := (stripStar key).filter fun parent => !parent.isEmpty

/-- The parent of a wildcard is what stands behind its star. -/
theorem starParent_eq_some {key parent : Str} :
    starParent key = some parent ↔ key = starOver parent ∧ parent ≠ [] := by
  -- the two bytes `*.` in front, and something behind them
  unfold starParent stripStar starOver
  constructor
  · intro h
    obtain ⟨hstar, hne⟩ := Option.filter_eq_some_iff.mp h
    split at hstar
    · split at hstar
      · rename_i hbytes
        obtain ⟨rfl, rfl⟩ := hbytes
        obtain rfl := Option.some.inj hstar
        exact ⟨rfl, by simpa using hne⟩
      · cases hstar
    · cases hstar
  · intro h
    obtain ⟨rfl, hne⟩ := h
    simp [hne]

namespace CNAMEs

/-- The target at a key: a key with a star over a parent is among the wildcards. -/
def entry (c : CNAMEs) (key : Str) : Option Str :=
  match starParent key with
  | some parent => c.wildcard.get parent
  | none => c.exact.get key

/-- The table with `target` at `key`. -/
def put (c : CNAMEs) (key target : Str) : CNAMEs :=
  match starParent key with
  | some parent => { c with wildcard := c.wildcard.put parent target }
  | none => { c with exact := c.exact.put key target }

/-- `add`, with memory in plenty. -/
def added (c : CNAMEs) (pair : Str × Str) : CNAMEs :=
  if (normalKey pair.1).isEmpty || (trim pair.2).isEmpty then c
  else c.put (normalKey pair.1) (dotted pair.2)

/-- The table of the pairs. -/
def newOf (pairs : List (Str × Str)) : CNAMEs := pairs.foldl added default

/-- A pair is added, or there is no memory for it. -/
private theorem add_yields (c : CNAMEs) (pair : Str × Str) : Yields (c.add pair)
    (.ok (c.added pair)) := by
  unfold add added
  refine (keyOf_yields pair.1).bind ?_
  -- a blank key or target adds nothing
  split
  · exact Computes.pure _
  · refine (fqdn_yields pair.2).bind ?_
    have hexact (key : Str) : Yields (do
        let exact ← (Table.insert key (dotted pair.2)).onLocal c.exact
        return { c with exact }) (.ok { c with exact := c.exact.put key (dotted pair.2) }) :=
      (c.exact.insert_commits key (dotted pair.2)).onLocal.bind (Computes.pure _)
    -- a pair with a star goes among the wildcards, unless nothing is left of it
    unfold put starParent
    split
    · rename_i parent hstar
      rw [hstar]
      split
      · rename_i hne
        rw [Option.filter_some, if_pos hne]
        exact (c.wildcard.insert_commits parent (dotted pair.2)).onLocal.bind (Computes.pure _)
      · rename_i hempty
        rw [Option.filter_some, if_neg hempty]
        exact hexact _
    · rename_i hstar
      rw [hstar]
      exact hexact _

theorem new_yields (pairs : List (Str × Str)) : Yields (new pairs) (.ok (newOf pairs)) :=
  Computes.foldlM add_yields default pairs

/-- A target put at a key is found there, and nothing else changes. -/
private theorem entry_put (c : CNAMEs) (key key' target : Str) :
    (c.put key target).entry key' = if key = key' then some target else c.entry key' := by
  unfold entry put
  -- a key is stored on the side that its star says
  cases hkey : starParent key with
  | some parent =>
    obtain ⟨rfl, hne⟩ := starParent_eq_some.mp hkey
    cases hkey' : starParent key' with
    | some parent' =>
      obtain ⟨rfl, -⟩ := starParent_eq_some.mp hkey'
      simp [Table.get_put, starOver, eq_comm]
    -- a key with a star and one without are kept apart, and differ
    | none =>
      have hne : starOver parent ≠ key' := fun h => by rw [h, hkey'] at hkey; cases hkey
      simp [hne]
  | none =>
    cases hkey' : starParent key' with
    | some parent' =>
      have hne : key ≠ key' := fun h => by rw [h, hkey'] at hkey; cases hkey
      simp [hne]
    | none => simp [Table.get_put, eq_comm]

/-- A pair that defines a key gives it its target, and every other key keeps its own. -/
private theorem entry_added (c : CNAMEs) (pair : Str × Str) (key : Str) :
    (c.added pair).entry key = if Defines pair key then some (dotted pair.2) else c.entry key := by
  unfold added
  split
  -- a blank pair defines no key
  · rename_i hblank
    have hdef : ¬Defines pair key := by
      intro h
      obtain ⟨rfl, hkey, htarget⟩ := h
      simp [hkey, htarget] at hblank
    rw [if_neg hdef]
  · rename_i hfull
    -- any other pair defines the one key that it is put under
    simp only [Bool.or_eq_true, List.isEmpty_iff, not_or] at hfull
    rw [entry_put]
    by_cases hkey : normalKey pair.1 = key
    · have hdef : Defines pair key := ⟨hkey, hkey ▸ hfull.1, hfull.2⟩
      rw [if_pos hkey, if_pos hdef]
    · have hdef : ¬Defines pair key := fun h => hkey h.1
      rw [if_neg hkey, if_neg hdef]

/-- The table has the last target each key was given. -/
theorem get_newOf (pairs : List (Str × Str)) (key : Str) :
    (newOf pairs).entry key = lastTarget pairs key := by
  -- from any table on: what a pair gives stands over what there was
  suffices h : ∀ c : CNAMEs, (pairs.foldl added c).entry key =
      (lastTarget pairs key).or (c.entry key) by
    have hdefault : default.entry key = none := by
      unfold entry
      split <;> exact Table.get_new _
    rw [newOf, h, hdefault, Option.or_none]
  unfold lastTarget
  -- the induction is on the pairs, for every table so far
  induction pairs with
  | nil => intro c; rfl
  | cons pair pairs ih =>
    intro c
    rw [List.foldl_cons, ih, entry_added, List.filter_cons]
    by_cases hdef : Defines pair key
    · rw [if_pos hdef, if_pos (decide_eq_true hdef), List.getLast?_cons]
      cases (pairs.filter fun pair => Defines pair key).getLast? <;> rfl
    · rw [if_neg hdef, if_neg (by simp [hdef])]

/-- What holds of every table that was filled: an exact key has no star over a parent, and a
    star has a parent. -/
structure Kept (c : CNAMEs) : Prop where
  exact : ∀ key, c.exact.get key ≠ none → starParent key = none
  wildcard : ∀ parent, c.wildcard.get parent ≠ none → parent ≠ []

/-- What is put into a table goes to the side where it belongs. -/
theorem Kept.put {c : CNAMEs} (hc : c.Kept) (key target : Str) : (c.put key target).Kept := by
  unfold CNAMEs.put
  -- the key goes to the side it belongs to
  cases hkey : starParent key with
  | some parent =>
    refine ⟨hc.exact, fun p hp => ?_⟩
    by_cases heq : p = parent
    · exact heq ▸ (starParent_eq_some.mp hkey).2
    · rw [Table.get_put_of_ne _ _ heq] at hp
      exact hc.wildcard p hp
  | none =>
    refine ⟨fun k hk => ?_, hc.wildcard⟩
    by_cases heq : k = key
    · exact heq ▸ hkey
    · rw [Table.get_put_of_ne _ _ heq] at hk
      exact hc.exact k hk

/-- A pair keeps the two sides apart. -/
private theorem Kept.added {c : CNAMEs} (hc : c.Kept) (pair : Str × Str) : (c.added pair).Kept := by
  unfold CNAMEs.added
  split
  · exact hc
  · exact hc.put _ _

/-- So does a list of pairs. -/
theorem newOf_kept (pairs : List (Str × Str)) : (newOf pairs).Kept := by
  suffices h : ∀ c : CNAMEs, c.Kept → (pairs.foldl CNAMEs.added c).Kept from
    h default ⟨fun _ h => absurd (Table.get_new _) h, fun _ h => absurd (Table.get_new _) h⟩
  induction pairs with
  | nil => exact fun c hc => hc
  | cons pair pairs ih => exact fun c hc => ih _ (hc.added pair)

/-! ## Looking a name up -/

/-- Taking off the dot makes nothing longer. -/
private theorem length_stripDot_le (s : Str) : (stripDot s).length ≤ s.length := by
  unfold stripDot
  split
  · rw [List.length_dropLast]
    omega
  · exact Nat.le_refl _

/-- The entry of a wildcard is that of its parent, on the side of the wildcards. -/
theorem entry_starOver (c : CNAMEs) {parent : Str} (h : parent ≠ []) :
    c.entry (starOver parent) = c.wildcard.get parent := by
  rw [entry, starParent_eq_some.mpr ⟨rfl, h⟩]

/-- The wildcard that is found is that of the longest parent. -/
theorem lookupWildcard_eq_some {c : CNAMEs} {name target : Str}
    (h : c.lookupWildcard name = some target) :
    ∃ parent, ParentOf name parent ∧ c.wildcard.get parent = some target ∧
      ∀ p, ParentOf name p → c.wildcard.get p ≠ none → p.length ≤ parent.length := by
  -- the cases are those of the loop over the dots
  fun_induction lookupWildcard c name with
  | case1 name hcut => cases h
  | case2 name label rest hcut hempty => cases h
  | case3 name label rest hcut hfull v hget =>
    obtain rfl := Option.some.inj h
    have hne : rest ≠ [] := by simpa using hfull
    refine ⟨rest, (parentOf_iff hcut).mpr ⟨hne, .inl rfl⟩, hget, fun p hp _ => ?_⟩
    -- the first rest is the longest
    obtain ⟨-, rfl | ⟨-, labels, rfl⟩⟩ := (parentOf_iff hcut).mp hp
    · exact Nat.le_refl _
    · simp only [List.length_append, List.length_cons]
      omega
  | case4 name label rest hcut hfull hget ih =>
    -- this rest has no wildcard, so a longer parent has none either
    obtain ⟨parent, hparent, htarget, hlongest⟩ := ih h
    refine ⟨parent, (parentOf_iff hcut).mpr ⟨hparent.1, .inr hparent⟩, htarget, fun p hp hp' => ?_⟩
    obtain ⟨-, rfl | hp⟩ := (parentOf_iff hcut).mp hp
    · exact absurd hget hp'
    · exact hlongest p hp hp'

/-- Where no wildcard is found, no parent has one. -/
private theorem lookupWildcard_eq_none {c : CNAMEs} {name : Str}
    (h : c.lookupWildcard name = none) :
    ∀ p, ParentOf name p → c.wildcard.get p = none := by
  -- the cases are those of the same loop
  fun_induction lookupWildcard c name with
  | case1 name hcut => exact fun p hp => absurd hp (not_parentOf hcut p)
  | case2 name label rest hcut hempty =>
    intro p hp
    -- a dot at the end has no parent behind it
    obtain rfl := List.isEmpty_iff.mp hempty
    obtain ⟨hne, rfl | ⟨-, labels, hlabels⟩⟩ := (parentOf_iff hcut).mp hp
    · exact absurd rfl hne
    · simp at hlabels
  | case3 name label rest hcut hfull v hget => cases h
  | case4 name label rest hcut hfull hget ih =>
    intro p hp
    obtain ⟨-, rfl | hp⟩ := (parentOf_iff hcut).mp hp
    · exact hget
    · exact ih h p hp

/-- The first rest of a star over a parent is the parent. -/
theorem lookupWildcard_starOver (c : CNAMEs) {parent : Str} (h : parent ≠ []) :
    c.lookupWildcard (starOver parent) =
      (c.wildcard.get parent).or (c.lookupWildcard parent) := by
  have hcut : (starOver parent).splitOnce dot = some ([0x2A], parent) := rfl
  rw [lookupWildcard]
  split
  · rename_i hnone
    rw [hcut] at hnone
    cases hnone
  · rename_i label rest hsome
    rw [hcut] at hsome
    obtain ⟨-, rfl⟩ := Prod.mk.inj (Option.some.inj hsome)
    rw [if_neg (by simpa using h)]
    cases c.wildcard.get parent <;> rfl

/-- A lookup asks for the key first, wherever it is kept, and for the wildcards then. -/
theorem Kept.lookup_eq {c : CNAMEs} (hc : c.Kept) {name : Str}
    (hfits : (stripDot name).length ≤ 256) :
    c.lookup name = (c.entry (lowercase (stripDot name))).or
      (c.lookupWildcard (lowercase (stripDot name))) := by
  have hlower : lowerInto (stripDot name) = some (lowercase (stripDot name)) := if_pos hfits
  -- the loop meets the name in lower case, which has the same length
  rw [lookup, hlower]
  simp only [Option.bind_eq_bind, Option.bind_some]
  generalize lowercase (stripDot name) = lower
  -- the exact side is asked first
  cases hstar : starParent lower with
  | none =>
    rw [entry, hstar]
    cases c.exact.get lower <;> rfl
  -- the wildcard entry of the key itself
  | some parent =>
    -- the key is among the wildcards, and its parent is the first rest
    have hexact : c.exact.get lower = none := by
      refine Decidable.byContradiction fun hget => ?_
      rw [hc.exact lower hget] at hstar
      cases hstar
    obtain ⟨rfl, hne⟩ := starParent_eq_some.mp hstar
    rw [hexact, entry_starOver c hne, lookupWildcard_starOver c hne]
    cases c.wildcard.get parent <;> rfl

/-- On that side there is what the last pair for the wildcard says. -/
theorem get_wildcard_newOf (pairs : List (Str × Str)) {parent : Str} (h : parent ≠ []) :
    (newOf pairs).wildcard.get parent = lastTarget pairs (starOver parent) := by
  rw [← entry_starOver _ h, get_newOf]

/-- The lookup in the table of the pairs finds what they say. -/
theorem lookup_newOf (pairs : List (Str × Str)) (name : Str) (hlen : name.length ≤ 256) :
    CNAMEOf pairs (lowercase (stripDot name)) ((newOf pairs).lookup name) := by
  have hfits : (stripDot name).length ≤ 256 := Nat.le_trans (length_stripDot_le name) hlen
  -- the last pair for the name itself, before any wildcard
  rw [(newOf_kept pairs).lookup_eq hfits, get_newOf]
  generalize lowercase (stripDot name) = lower
  cases hexact : lastTarget pairs lower with
  | some target => exact .exact hexact
  | none =>
    rw [Option.none_or]
    -- then the longest parent with a target
    cases hwild : (newOf pairs).lookupWildcard lower with
    | some target =>
      obtain ⟨parent, hparent, htarget, hlongest⟩ := lookupWildcard_eq_some hwild
      rw [get_wildcard_newOf pairs hparent.1] at htarget
      refine .wildcard hexact hparent htarget fun p hp hne => hlongest p hp ?_
      rwa [get_wildcard_newOf pairs hp.1]
    | none =>
      -- or none at all
      refine .none hexact fun p hp => ?_
      rw [← get_wildcard_newOf pairs hp.1]
      exact lookupWildcard_eq_none hwild p hp

/-- A lookup in the table of any pairs finds what the pairs say of the name, in any case and
    with or without a dot at its end. -/
theorem lookup_new (pairs : List (Str × Str)) (name : Str) (hlen : name.length ≤ 255) :
    ∃ c, Yields (new pairs) (.ok c) ∧
      ∀ r, c.lookup name = r ↔ CNAMEOf pairs (lowercase (stripDot name)) r := by
  refine ⟨newOf pairs, new_yields pairs, fun r => ?_⟩
  have hfound := lookup_newOf pairs name (Nat.le_succ_of_le hlen)
  exact ⟨fun h => h ▸ hfound, fun h => hfound.unique h⟩

/-- A wildcard and a name under it, in another case and with a dot at the end. -/
theorem lookup_new_wildcard :
    ∃ c, Yields (new [(str "*.apps.hop.local", str "ingress.hop.local")]) (.ok c) ∧
      ∀ r, c.lookup (str "Foo.apps.hop.local.") = r ↔
        CNAMEOf [(str "*.apps.hop.local", str "ingress.hop.local")]
          (lowercase (stripDot (str "Foo.apps.hop.local."))) r :=
  lookup_new _ (str "Foo.apps.hop.local.") (by decide)

/-- A pair with an empty name gives no target to the empty name, and a star over nothing none to
    a name that ends in a dot. -/
theorem lookup_new_blank :
    (trim (str "x") ≠ [] ∧ normalKey (str "") = lowercase (stripDot (str "")) ∧
      ∃ c, Yields (new [(str "", str "x")]) (.ok c) ∧ c.lookup (str "") = none) ∧
    (normalKey (str "*..") = starOver [] ∧ lowercase (stripDot (str "a..")) = str "a" ++ [dot] ∧
      ∃ c, Yields (new [(str "*..", str "x")]) (.ok c) ∧ c.lookup (str "a..") = none) := by
  have hx : trim (str "x") = str "x" := trim_eq_self (by decide) (by decide)
  -- only the dot at the end goes, so the key is the star over nothing
  have hstar : normalKey (str "*..") = starOver [] := by
    rw [normalKey, trim_eq_self (by decide) (by decide)]
    decide
  have ha : lowercase (stripDot (str "a..")) = str "a" ++ [dot] := by decide
  -- the empty key, which is dropped
  refine ⟨⟨by rw [hx]; decide, ?_, newOf _, new_yields _, ?_⟩,
    hstar, ha, newOf _, new_yields _, ?_⟩
  · rw [normalKey, trim_eq_self (by decide) (by decide)]
  -- nothing was put in the table
  · have hfound := lookup_newOf [(str "", str "x")] (str "") (by decide)
    refine hfound.unique (.none (lastTarget_nil _) fun p hp => ?_)
    exact absurd hp (not_parentOf rfl p)
  -- the name has `a` and an empty parent
  · have hfound := lookup_newOf [(str "*..", str "x")] (str "a..") (by decide)
    rw [ha] at hfound
    refine hfound.unique (.none ?_ fun p hp => ?_)
    · rw [lastTarget, List.filter_cons, if_neg (by simp [Defines, hstar]; decide)]
      rfl
    · have hcut : (str "a" ++ [dot]).splitOnce dot = some (str "a", []) := by decide
      obtain ⟨hne, rfl | hp⟩ := (parentOf_iff hcut).mp hp
      · exact absurd rfl hne
      · exact absurd hp (not_parentOf rfl p)

end CNAMEs

end HopDns

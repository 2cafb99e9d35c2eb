import HopDns.Spec.CNAMEsCorrect
import HopDns.Spec.Verdict
import HopDns.Spec.ZoneCorrect

/-!
# The zones of the CNAMEs

The table lists its zones in one place and looks for the zone of a name in another. Both
run over the keys; what they say agrees, with each other and with what a lookup finds.

## Key results

- `CNAMEs.zoneOf_eq_some`: the zone of a name is the longest it lies in
- `CNAMEs.zones_agree`: the list, the zone of a name and the lookups agree
-/

namespace HopDns

open ForStd

namespace CNAMEs

/-! ## The longest of a list -/

/-- One turn of the search for the longest. -/
def longer (best : Option Str) (z : Str) : Option Str :=
  match best with
  | none => some z
  | some b => if b.length ≤ z.length then some z else some b

/-- The search from `best` on ends with the longest of what it saw. -/
private theorem foldl_longer (best : Option Str) (l : List Str) {z : Str}
    (h : l.foldl longer best = some z) :
    (best = some z ∨ z ∈ l) ∧ (∀ b, best = some b → b.length ≤ z.length) ∧
      ∀ z' ∈ l, z'.length ≤ z.length := by
  -- the induction is on the zones, with the longest so far
  induction l generalizing best with
  | nil =>
    refine ⟨.inl h, fun b hb => ?_, fun z' hz' => absurd hz' List.not_mem_nil⟩
    rw [List.foldl_nil, hb] at h
    exact Nat.le_of_eq (congrArg List.length (Option.some.inj h))
  | cons a l ih =>
    obtain ⟨hz, hbest, hl⟩ := ih (longer best a) h
    -- the first zone is the longest so far
    cases best with
    | none =>
      have ha := hbest a rfl
      refine ⟨.inr ?_, nofun, List.forall_mem_cons.mpr ⟨ha, hl⟩⟩
      obtain hz | hz := hz
      · exact Option.some.inj hz ▸ List.mem_cons_self
      · exact List.mem_cons_of_mem a hz
    | some b =>
      unfold longer at hz hbest
      simp only at hz hbest
      split at hz
      -- the new one is at least as long, and takes its place
      · rename_i hle
        have ha := hbest a (if_pos hle)
        refine ⟨.inr ?_, fun b' hb' => ?_, List.forall_mem_cons.mpr ⟨ha, hl⟩⟩
        · obtain hz | hz := hz
          · exact Option.some.inj hz ▸ List.mem_cons_self
          · exact List.mem_cons_of_mem a hz
        · obtain rfl := Option.some.inj hb'
          exact Nat.le_trans hle ha
      · rename_i hlt
        have hb := hbest b (if_neg hlt)
        refine ⟨hz.imp_right (List.mem_cons_of_mem a), fun b' hb' => ?_,
          List.forall_mem_cons.mpr ⟨by omega, hl⟩⟩
        obtain rfl := Option.some.inj hb'
        exact hb

private theorem maxByLen_eq_foldl (l : List Str) : maxByLen l = l.foldl longer none := rfl

/-- The longest of a list is in it, and nothing in it is longer. -/
private theorem maxByLen_eq_some {l : List Str} {z : Str} (h : maxByLen l = some z) :
    z ∈ l ∧ ∀ z' ∈ l, z'.length ≤ z.length := by
  obtain ⟨hz, -, hl⟩ := foldl_longer none l (maxByLen_eq_foldl l ▸ h)
  exact ⟨hz.resolve_left nofun, hl⟩

/-- A list with an element has a longest one. -/
private theorem exists_maxByLen {l : List Str} {z : Str} (h : z ∈ l) : ∃ z', maxByLen l = some z' :=
    by
  -- once there is one, there is one at the end
  have hsome (best : Str) (l : List Str) : ∃ z', l.foldl longer (some best) = some z' := by
    induction l generalizing best with
    | nil => exact ⟨best, rfl⟩
    | cons a l ih =>
      rw [List.foldl_cons, longer]
      split
      · exact ih a
      · exact ih best
  -- the first zone of the list is enough
  cases l with
  | nil => cases h
  | cons a l => exact hsome a l

end CNAMEs

/-- A name lies in one zone of each length. -/
theorem LiesIn.eq_of_length {name z z' : Str} (h : LiesIn name z) (h' : LiesIn name z')
    (hlen : z.length = z'.length) : z = z' := by
  obtain rfl | ⟨pre, rfl⟩ := h
  · obtain h' | ⟨pre', rfl⟩ := h'
    · exact h'
    · simp only [List.length_append, List.length_cons] at hlen
      omega
  · obtain rfl | ⟨pre', heq⟩ := h'
    · simp only [List.length_append, List.length_cons] at hlen
      omega
    · exact (List.cons.inj (List.append_inj_right' heq (by simp [hlen]))).2

namespace CNAMEs

/-! ## The zones -/

/-- The zones before doubles are left out. -/
def allZones (c : CNAMEs) : List Str :=
  (c.exactZones.filter fun z => !z.isEmpty) ++ c.wildcardZones

/-- The zones are computed, each one once, or there is no memory for them. -/
private theorem zones_yields (c : CNAMEs) : Yields c.zones (.ok c.allZones.eraseDups) := by
  have hstep (out : List Str) (z : Str) : Yields
      (if out.contains z then pure out else do tryReserve; return out ++ [z])
      (.ok (if out.contains z then out else out ++ [z])) := by
    split
    · exact Computes.pure _
    · exact tryReserve_yields.bind (Computes.pure _)
  have h := Computes.foldlM hstep [] c.allZones
  rw [List.foldl_pushNew, List.nil_append, List.newTo_eraseDups] at h
  exact h

/-- A zone of an exact name is what stands behind its first label. -/
private theorem mem_exactZones {c : CNAMEs} {z : Str} :
    z ∈ c.exactZones ↔
      ∃ label, dot ∉ label ∧ ∃ target, c.exact.get (label ++ dot :: z) = some target := by
  simp only [exactZones, List.mem_filterMap, Option.map_eq_some_iff]
  -- a key gives the zone behind its first dot
  constructor
  · intro h
    obtain ⟨⟨key, target⟩, hrow, ⟨label, z'⟩, hcut, rfl⟩ := h
    obtain ⟨rfl, hlabel⟩ := List.splitOnce_eq_some hcut
    exact ⟨label, hlabel, target, c.exact.mem_iter.mp hrow⟩
  · intro h
    obtain ⟨label, hlabel, target, hget⟩ := h
    exact ⟨_, c.exact.mem_iter.mpr hget, (label, z), List.splitOnce_append z hlabel, rfl⟩

/-- A zone of a wildcard is its parent. -/
private theorem mem_wildcardZones {c : CNAMEs} {z : Str} :
    z ∈ c.wildcardZones ↔ ∃ target, c.wildcard.get z = some target := by
  simp only [wildcardZones, List.mem_map]
  constructor
  · intro h
    obtain ⟨⟨key, target⟩, hrow, rfl⟩ := h
    exact ⟨target, c.wildcard.mem_iter.mp hrow⟩
  · intro h
    obtain ⟨target, hget⟩ := h
    exact ⟨_, c.wildcard.mem_iter.mpr hget, rfl⟩

/-- No parent of a wildcard is empty. -/
private theorem Kept.wildcardZones_ne_nil {c : CNAMEs} (hc : c.Kept) {z : Str}
    (h : z ∈ c.wildcardZones) : z ≠ [] := by
  obtain ⟨target, hget⟩ := mem_wildcardZones.mp h
  exact hc.wildcard z (by rw [hget]; exact Option.some_ne_none _)

/-- A zone is a part of an exact key, and not empty, or the parent of a wildcard. -/
private theorem mem_allZones {c : CNAMEs} {z : Str} :
    z ∈ c.allZones ↔ (z ≠ [] ∧ z ∈ c.exactZones) ∨ z ∈ c.wildcardZones := by
  simp only [allZones, List.mem_append, List.mem_filter, Bool.not_eq_true',
    List.isEmpty_eq_false_iff, and_comm]

/-- No zone is empty. -/
theorem Kept.ne_nil {c : CNAMEs} (hc : c.Kept) {z : Str} (h : z ∈ c.allZones) : z ≠ [] := by
  obtain ⟨hne, -⟩ | hwild := mem_allZones.mp h
  · exact hne
  · exact hc.wildcardZones_ne_nil hwild

/-- The zones a name is looked for in are those of the list. -/
private theorem Kept.mem_candidates {c : CNAMEs} (hc : c.Kept) {name z : Str} :
    z ∈ (c.exactZones ++ c.wildcardZones).filter (fun z => !z.isEmpty && inZone name z) ↔
      z ∈ c.allZones ∧ LiesIn name z := by
  simp only [List.mem_filter, List.mem_append, Bool.and_eq_true, Bool.not_eq_true',
    List.isEmpty_eq_false_iff, inZone_iff]
  -- the loop leaves out the empty zone, which no wildcard has
  constructor
  · intro h
    obtain ⟨hexact | hwild, hne, hin⟩ := h
    · exact ⟨mem_allZones.mpr (.inl ⟨hne, hexact⟩), hin⟩
    · exact ⟨mem_allZones.mpr (.inr hwild), hin⟩
  · intro h
    obtain ⟨hz, hin⟩ := h
    exact ⟨(mem_allZones.mp hz).imp_left And.right, hc.ne_nil hz, hin⟩

/-- The zone of a name is the one zone it lies in that is longer than all others. -/
theorem Kept.zoneOf_eq_some {c : CNAMEs} (hc : c.Kept) {name z : Str} :
    c.zoneOf name = some z ↔ z ∈ c.allZones ∧ LiesIn name z ∧
      ∀ z' ∈ c.allZones, LiesIn name z' → z' ≠ z → z'.length < z.length := by
  unfold zoneOf
  -- the zone that is found is the longest, and no other is as long
  constructor
  · intro h
    obtain ⟨hz, hlongest⟩ := maxByLen_eq_some h
    obtain ⟨hz, hin⟩ := hc.mem_candidates.mp hz
    refine ⟨hz, hin, fun z' hz' hin' hne => ?_⟩
    -- no other zone the name lies in has the same length
    have hle := hlongest z' (hc.mem_candidates.mpr ⟨hz', hin'⟩)
    exact Nat.lt_of_le_of_ne hle fun hlen => hne (hin'.eq_of_length hin hlen)
  · intro h
    obtain ⟨hz, hin, hlongest⟩ := h
    have hcandidate := hc.mem_candidates.mpr ⟨hz, hin⟩
    obtain ⟨z', hz'⟩ := exists_maxByLen hcandidate
    rw [hz']
    obtain ⟨hmem', hmax⟩ := maxByLen_eq_some hz'
    obtain ⟨hmem', hin'⟩ := hc.mem_candidates.mp hmem'
    -- the longest is not shorter than `z`, so it is `z`
    have hlen := hmax z hcandidate
    refine congrArg some (Decidable.byContradiction fun hne => ?_)
    have := hlongest z' hmem' hin' hne
    omega

/-- A name that lies in a zone has a zone. -/
private theorem Kept.zoneOf_isSome {c : CNAMEs} (hc : c.Kept) {name : Str} :
    (c.zoneOf name).isSome ↔ ∃ z ∈ c.allZones, LiesIn name z := by
  -- a zone is found if there is any
  constructor
  · intro h
    obtain ⟨z, hz⟩ := Option.isSome_iff_exists.mp h
    obtain ⟨hz, hin, -⟩ := hc.zoneOf_eq_some.mp hz
    exact ⟨z, hz, hin⟩
  · intro h
    obtain ⟨z, hz, hin⟩ := h
    obtain ⟨z', hz'⟩ := exists_maxByLen (hc.mem_candidates.mpr ⟨hz, hin⟩)
    rw [zoneOf, hz']
    rfl

/-! ## The zones and the lookups -/

/-- A name with a CNAME lies below a zone, when it has more than one label and none is empty. -/
private theorem Kept.below_of_lookup {c : CNAMEs} (hc : c.Kept) {name target : Str}
    (hfold : lowercase name = name) (hlabels : ∀ label ∈ name.splitOn dot, label ≠ [])
    (hdot : dot ∈ name) (h : c.lookup name = some target) :
    ∃ z ∈ c.allZones, ∃ labels, name = labels ++ dot :: z := by
  -- the name ends in no dot, so the lookup takes it as it stands
  have hstrip : stripDot name = name := by
    refine if_neg fun hlast => ?_
    obtain ⟨labels, rfl⟩ := List.getLast?_eq_some_iff.mp hlast
    exact List.ne_nil_of_splitOn hlabels rfl
  have hfits : (stripDot name).length ≤ 256 := by
    refine Decidable.byContradiction fun hlong => ?_
    have hlower : lowerInto (stripDot name) = none := if_neg hlong
    rw [lookup, hlower] at h
    cases h
  -- the lookup is one of the name as it stands
  rw [hc.lookup_eq hfits, hstrip, hfold] at h
  -- the target is an exact one, or a wildcard's
  obtain hentry | ⟨-, hwild⟩ := Option.or_eq_some_iff.mp h
  · unfold entry at hentry
    split at hentry
    -- a wildcard that is asked for by its own name
    · rename_i parent hstar
      obtain ⟨rfl, -⟩ := starParent_eq_some.mp hstar
      exact ⟨parent, mem_allZones.mpr (.inr (mem_wildcardZones.mpr ⟨target, hentry⟩)), [0x2A], rfl⟩
    · cases hcut : name.splitOnce dot with
      | none => exact absurd hdot (List.not_mem_of_splitOnce hcut)
      | some cut =>
        obtain ⟨label, z⟩ := cut
        obtain ⟨rfl, hlabel⟩ := List.splitOnce_eq_some hcut
        have hzone : z ∈ c.exactZones := mem_exactZones.mpr ⟨label, hlabel, target, hentry⟩
        exact ⟨z, mem_allZones.mpr (.inl ⟨List.ne_nil_of_splitOn hlabels, hzone⟩), label, rfl⟩
  -- the parent of a wildcard is a zone
  · obtain ⟨parent, ⟨-, labels, hname⟩, hget, -⟩ := lookupWildcard_eq_some hwild
    exact ⟨parent, mem_allZones.mpr (.inr (mem_wildcardZones.mpr ⟨target, hget⟩)), labels, hname⟩

/-- What the zones `zs` of a table, the zone of a name and the lookups have to do with each
    other. -/
structure ZonesAgree (c : CNAMEs) (zs : List Str) : Prop where
  /-- every zone is listed once -/
  nodup : zs.Nodup
  /-- no zone is empty -/
  nonempty : [] ∉ zs
  /-- a zone is an exact key without its first label, or has a wildcard -/
  mem : ∀ z, z ∈ zs ↔
    (z ≠ [] ∧ ∃ label, dot ∉ label ∧ c.exact.containsKey (label ++ dot :: z)) ∨
      c.wildcard.containsKey z
  /-- the zone of a name is the longest it lies in -/
  zoneOf : ∀ name z, c.zoneOf name = some z ↔
    z ∈ zs ∧ LiesIn name z ∧ ∀ z' ∈ zs, LiesIn name z' → z' ≠ z → z'.length < z.length
  /-- a name that lies in a zone has one -/
  zoneOf_isSome : ∀ name, (c.zoneOf name).isSome ↔ ∃ z ∈ zs, LiesIn name z
  /-- a name with a CNAME lies below a zone, and a miss in that zone is not refused -/
  below : ∀ name target, lowercase name = name → (∀ label ∈ name.splitOn dot, label ≠ []) →
    dot ∈ name → c.lookup name = some target →
      ∃ z ∈ zs, (∃ labels, name = labels ++ dot :: z) ∧
        ∀ (s : Server) (cache : Cache) (miss : Str) (qtype : UInt16), s.cnames = c →
          LiesIn miss z → c.lookup miss = none →
            ∃ known ips zone, s.verdictOn cache miss qtype = .zone known ips zone ∧
              LiesIn miss zone

/-- A miss of a name that has a zone is answered from a zone the name lies in. -/
private theorem Kept.verdictOn_miss {s : Server} (hc : s.cnames.Kept) (cache : Cache) {miss z : Str}
    (qtype : UInt16) (hz : z ∈ s.cnames.allZones) (hin : LiesIn miss z)
    (hmiss : s.cnames.lookup miss = none) :
    ∃ known ips zone, s.verdictOn cache miss qtype = .zone known ips zone ∧
      LiesIn miss zone := by
  simp only [Server.verdictOn, hmiss]
  split
  -- the name is missing in the domain or in the zone of an alias
  · rename_i hdomain
    exact ⟨_, _, _, rfl, inZone_iff.mp hdomain⟩
  · obtain ⟨z', hz'⟩ := Option.isSome_iff_exists.mp (hc.zoneOf_isSome.mpr ⟨z, hz, hin⟩)
    rw [hz']
    exact ⟨_, _, _, rfl, (hc.zoneOf_eq_some.mp hz').2.1⟩

/-- The list of zones, the zone of a name and the lookups agree, for the table of any pairs. -/
theorem zones_agree (pairs : List (Str × Str)) :
    ∃ c zs, Yields (new pairs) (.ok c) ∧ Yields c.zones (.ok zs) ∧ ZonesAgree c zs := by
  have hc := newOf_kept pairs
  -- leaving out doubles leaves the zones what they are
  have hmem (z : Str) : z ∈ (newOf pairs).allZones.eraseDups ↔ z ∈ (newOf pairs).allZones :=
    List.mem_eraseDups
  refine ⟨newOf pairs, _, new_yields pairs, zones_yields _, ⟨List.nodup_eraseDups _, ?_, ?_, ?_,
    ?_, ?_⟩⟩
  -- the six facts about the list of zones
  · exact fun h => hc.ne_nil ((hmem []).mp h) rfl
  · intro z
    simp only [hmem, mem_allZones, mem_exactZones, mem_wildcardZones, Table.containsKey_eq,
      Option.isSome_iff_exists]
  · intro name z
    simp only [hmem]
    exact hc.zoneOf_eq_some
  · intro name
    simp only [hmem]
    exact hc.zoneOf_isSome
  · intro name target hfold hlabels hdot hlookup
    obtain ⟨z, hz, hbelow⟩ := hc.below_of_lookup hfold hlabels hdot hlookup
    refine ⟨z, (hmem z).mpr hz, hbelow, fun s cache miss qtype hs hin hmiss => ?_⟩
    rw [← hs] at hc hz hmiss
    exact hc.verdictOn_miss cache qtype hz hin hmiss

end CNAMEs

end HopDns

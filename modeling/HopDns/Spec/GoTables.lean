import HopDns.ForStd.Interleaving
import HopDns.ForStd.Simulation
import HopDns.Native.Go
import HopDns.Spec.CNAMEsCorrect
import HopDns.Spec.CacheMap
import HopDns.Spec.NameText

/-!
# The tables of the Go generation

The maps of CNAMEs and of addresses that the Go generation keeps, and those of the port: what
the one finds after the same pairs and the same calls, the other finds.

## Key results

- `Go.CNAMEs.lookup_eq`: the two tables of CNAMEs give the same targets
- `Go.Cache.holds_run`: the two caches hold the same addresses
- `Go.Cache.Holds.merged`: and the same over all clusters, in some order
-/

namespace HopDns

open ForStd

namespace Go

/-! ## What is known of the libraries -/

/-- `'\\'` -/
def backslash : UInt8 := 0x5C

/-- The bytes that `miekg/dns` puts a backslash before. -/
def escaped : List UInt8 := [0x20, 0x22, 0x27, 0x28, 0x29, dot, 0x3B, 0x40, backslash]

/-- A label that is its own text. -/
def PlainLabel (l : Str) : Prop := ∀ b ∈ l, (0x21 ≤ b ∧ b ≤ 0x7E) ∧ b ∉ escaped

instance (l : Str) : Decidable (PlainLabel l) :=
  inferInstanceAs (Decidable (∀ b ∈ l, (0x21 ≤ b ∧ b ≤ 0x7E) ∧ b ∉ escaped))

/-- What the libraries say of themselves, for texts without a backslash and of ASCII. -/
structure Lib.Documented (lib : Lib) : Prop where
  name : ∀ labels, labels ≠ [] → (∀ l ∈ labels, PlainLabel l) →
    lib.name labels = labels.flatMap (· ++ [dot])
  fqdn : ∀ s, backslash ∉ s → lib.fqdn s = if s.getLast? = some dot then s else s ++ [dot]
  toLower : ∀ s : Str, (∀ b ∈ s, b < 0x80) → lib.toLower s = lowercase s

/-- `dns.Fqdn` as it documents itself: one dot at the end, whatever stood there. -/
theorem stripDot_append_dot (s : Str) :
    (if s.getLast? = some dot then s else s ++ [dot]) = stripDot s ++ [dot] := by
  unfold stripDot
  split
  · rename_i hlast
    have hne : s ≠ [] := by
      rintro rfl
      cases hlast
    rw [List.getLast?_eq_some_getLast hne] at hlast
    rw [← Option.some.inj hlast, List.dropLast_append_getLast hne]
  · rfl

theorem stripDot_concat (s : Str) : stripDot (s ++ [dot]) = s := by
  rw [stripDot, if_pos List.getLast?_concat, List.dropLast_concat]

/-- A dot at the end is no star over a parent and none in front. -/
private theorem stripStar_stripDot {k : Str} (h : stripStar k = none) : starParent
    (stripDot k) = none := by
  cases hparent : starParent (stripDot k) with
  | none => rfl
  | some parent =>
    -- what is left without the dot is the start of the key
    obtain ⟨heq, -⟩ := starParent_eq_some.mp hparent
    have hstart : stripDot k <+: k := by
      unfold stripDot
      split
      · exact List.dropLast_prefix k
      · exact List.prefix_rfl
    rw [heq] at hstart
    obtain ⟨rest, rfl⟩ := hstart
    cases h

/-- What stands behind a star and a dot is the parent. -/
private theorem stripStar_eq_some {k parent : Str} (h : stripStar k = some parent) :
    k = starOver parent := by
  unfold stripStar at h
  split at h
  · split at h
    · rename_i hbytes
      obtain ⟨rfl, rfl⟩ := hbytes
      rw [Option.some.inj h]
      rfl
    · cases h
  · cases h

/-- The dot at the end of a wildcard is that of its parent. -/
private theorem stripDot_starOver {parent : Str} (h : parent ≠ []) :
    stripDot (starOver parent) = starOver (stripDot parent) := by
  have hlast : (starOver parent).getLast? = parent.getLast? := by
    simp [starOver, List.getLast?_cons, List.getLast?_eq_some_getLast h]
  unfold stripDot
  rw [hlast]
  split
  · rw [starOver, starOver, List.dropLast_cons_of_ne_nil (List.cons_ne_nil _ _),
      List.dropLast_cons_of_ne_nil h]
  · rfl

/-- A key that both tables take for the same name: no root, no star alone, and without a dot at
    its end. -/
structure Tame (key : Str) : Prop where
  ne_nil : key ≠ []
  ne_star : key ≠ [0x2A]
  undotted : key.getLast? ≠ some dot

private theorem Tame.parent_ne_nil {parent : Str} (h : Tame (starOver parent)) : parent ≠ [] := by
  rintro rfl
  exact h.undotted rfl

/-- A pair of which the libraries say what they do. -/
structure PlainPair (pair : Str × Str) : Prop where
  ascii : ∀ b ∈ trim pair.1, b < 0x80
  key : backslash ∉ trim pair.1
  target : backslash ∉ trim pair.2

namespace CNAMEs

variable {lib : Lib}

/-- The key of a pair in lower case, as it stands. -/
def keyText (pair : Str × Str) : Str := lowercase (trim pair.1)

/-- The key of a pair is its text without the dot at the end. -/
private theorem normalKey_eq (pair : Str × Str) : normalKey pair.1 = stripDot (keyText pair) := by
  have hlast : (keyText pair).getLast? = some dot ↔ (trim pair.1).getLast? = some dot := by
    rw [keyText, lowercase, List.getLast?_map]
    cases (trim pair.1).getLast? <;> simp [toAsciiLowercase_eq_dot]
  unfold normalKey stripDot
  split
  · rename_i h
    rw [if_pos (hlast.mpr h), keyText, lowercase, lowercase, List.map_dropLast]
  · rename_i h
    rw [if_neg (mt hlast.mp h)]
    rfl

/-- What the loop does with a pair that the libraries say all of. -/
private theorem add_plain (hlib : lib.Documented) (c : CNAMEs) {pair : Str × Str}
    (hpair : PlainPair pair) :
    c.add lib pair =
      if keyText pair = [] ∨ trim pair.2 = [] then c
      else
        match stripStar (keyText pair) with
        | some parent => { c with
            wildcard := Function.update c.wildcard (stripDot parent ++ [dot])
              (some (dotted pair.2)) }
        | none => { c with
            exact := Function.update c.exact (stripDot (keyText pair) ++ [dot])
              (some (dotted pair.2)) } := by
  -- both keys are folded, and no backslash escapes the dot behind them
  have hkey : lib.toLower (trim pair.1) = keyText pair := hlib.toLower _ hpair.ascii
  have hslash : backslash ∉ keyText pair := by
    rw [keyText, lowercase, List.mem_map]
    rintro ⟨b, hb, hfold⟩
    rw [toAsciiLowercase_eq_iff (by decide) (by decide)] at hfold
    exact hpair.key (hfold ▸ hb)
  -- the three branches of `Add`, with the library's functions replaced by what they do
  unfold add
  simp only [hkey, hlib.fqdn _ hpair.target, hlib.fqdn _ hslash]
  split
  · rfl
  · cases hstar : stripStar (keyText pair) with
    | none => simp only [stripDot_append_dot, dotted]
    | some parent =>
      have hparent : backslash ∉ parent := fun h => hslash (by
        rw [stripStar_eq_some hstar]
        exact List.mem_cons_of_mem _ (List.mem_cons_of_mem _ h))
      simp only [hlib.fqdn _ hparent, stripDot_append_dot, dotted]

/-- What one pair does to the two maps, as both tables are told by the pairs. -/
private theorem add_eq (hlib : lib.Documented) (c : CNAMEs) {pair : Str × Str}
    (hpair : PlainPair pair) : (∀ key, Tame key → (c.add lib pair).exact (key ++ [dot]) =
      if Defines pair key ∧ starParent key = none then some (dotted pair.2)
      else c.exact (key ++ [dot])) ∧
    ∀ parent, Tame (starOver parent) → (c.add lib pair).wildcard (parent ++ [dot]) =
      if Defines pair (starOver parent) then some (dotted pair.2)
      else c.wildcard (parent ++ [dot]) := by
  -- a pair defines a key if the key is what its own text gives
  have hdefines : ∀ key, Tame key →
      (Defines pair key ↔ stripDot (keyText pair) = key ∧ trim pair.2 ≠ []) := by
    intro key hkey
    rw [Defines, normalKey_eq]
    exact and_congr_right fun _ => and_iff_right hkey.ne_nil
  rw [add_plain hlib c hpair]
  -- a blank pair, a plain one and one with a star
  split
  · rename_i hblank
    have hnot : ∀ key, Tame key → ¬Defines pair key := by
      intro key hkey hdef
      obtain ⟨rfl, htarget⟩ := (hdefines key hkey).mp hdef
      obtain h | h := hblank
      · exact hkey.ne_nil (by rw [h]; rfl)
      · exact htarget h
    exact ⟨fun key hkey => (if_neg fun h => hnot key hkey h.1).symm,
      fun parent hparent => (if_neg (hnot _ hparent)).symm⟩
  · rename_i hfull
    obtain ⟨-, htarget⟩ := not_or.mp hfull
    have hdefines : ∀ key, Tame key → (Defines pair key ↔ key = stripDot (keyText pair)) :=
      fun key hkey => (hdefines key hkey).trans ((and_iff_left htarget).trans eq_comm)
    -- a plain pair sets one exact entry, and no wildcard
    cases hstar : stripStar (keyText pair) with
    | none =>
      have hplain := stripStar_stripDot hstar
      constructor
      · intro key hkey
        have hiff : Defines pair key ∧ starParent key = none ↔ key = stripDot (keyText pair) := by
          rw [hdefines key hkey]
          exact and_iff_left_of_imp fun h => h ▸ hplain
        simp only [Function.update_apply, List.append_left_inj, hiff]
      · intro parent hparent
        -- it defines no key with a star
        refine (if_neg fun h => ?_).symm
        rw [← (hdefines _ hparent).mp h, starParent_eq_some.mpr ⟨rfl, hparent.parent_ne_nil⟩]
          at hplain
        cases hplain
    | some above =>
      -- a pair with a star sets one wildcard, and no exact entry
      have hkey := stripStar_eq_some hstar
      constructor
      · intro key hkey'
        refine (if_neg fun h => ?_).symm
        obtain ⟨hdef, hplain⟩ := h
        obtain rfl := (hdefines key hkey').mp hdef
        by_cases habove : above = []
        -- a star and a dot are a star alone
        · exact hkey'.ne_star (by rw [hkey, habove]; rfl)
        · rw [hkey, stripDot_starOver habove] at hkey' hplain
          rw [starParent_eq_some.mpr ⟨rfl, hkey'.parent_ne_nil⟩] at hplain
          cases hplain
      -- the wildcard it sets is the one over what stands behind the star
      · intro parent hparent
        have hiff : Defines pair (starOver parent) ↔ parent = stripDot above := by
          rw [hdefines _ hparent, hkey]
          by_cases habove : above = []
          · subst habove
            refine iff_of_false (fun h => hparent.ne_star h) fun h => hparent.parent_ne_nil h
          · rw [stripDot_starOver habove]
            simp [starOver]
        simp only [Function.update_apply, List.append_left_inj, hiff]

/-- A wildcard over a name without a dot at its end is tame. -/
private theorem tame_starOver {parent : Str} (hne : parent ≠ [])
    (hparent : parent.getLast? ≠ some dot) :
    Tame (starOver parent) := by
  refine ⟨List.cons_ne_nil _ _, by simp [starOver], ?_⟩
  -- it ends as its parent does
  rw [show starOver parent = [0x2A, dot] ++ parent from rfl, List.getLast?_append_of_ne_nil _ hne]
  exact hparent

/-- What is behind the first dot of a name that ends in no dot. -/
private theorem rest_of_cut {name label rest : Str} (hcut : name.splitOnce dot = some (label, rest))
    (hname : name.getLast? ≠ some dot) : rest ≠ [] ∧ rest.getLast? ≠ some dot := by
  obtain ⟨rfl, -⟩ := List.splitOnce_eq_some hcut
  have hne : rest ≠ [] := by
    rintro rfl
    exact hname (by simp)
  refine ⟨hne, fun hrest => hname ?_⟩
  rw [List.getLast?_append_of_ne_nil _ (List.cons_ne_nil _ _), List.getLast?_cons, hrest]
  rfl

/-- A name of one label has no parent to look for. -/
private theorem lookupParent_uncut (c : CNAMEs) {name : Str} (hcut : name.splitOnce dot = none) :
    c.lookupParent (name ++ [dot]) = none := by
  have hcut' := List.splitOnce_append [] (List.not_mem_of_splitOnce hcut)
  rw [lookupParent]
  split
  · rfl
  · rename_i hsome
    rw [hcut'] at hsome
    cases hsome
    rfl

/-- A name of more labels is looked for under what stands behind its first one, and then further up.
    -/
private theorem lookupParent_cut (c : CNAMEs) {name label rest : Str}
    (hcut : name.splitOnce dot = some (label, rest)) :
    c.lookupParent (name ++ [dot]) =
      (c.wildcard (rest ++ [dot])).or (c.lookupParent (rest ++ [dot])) := by
  -- both sides are cut at the first dot, with the dot at the end left on the rest
  obtain ⟨rfl, hlabel⟩ := List.splitOnce_eq_some hcut
  have hcut' := List.splitOnce_append (rest ++ [dot]) hlabel
  rw [List.append_assoc, List.cons_append, lookupParent]
  split
  · rename_i hnone
    rw [hcut'] at hnone
    cases hnone
  · rename_i hsome
    rw [hcut'] at hsome
    cases hsome
    rw [if_neg (by simp)]
    cases c.wildcard (rest ++ [dot]) <;> rfl

section

variable (hlib : lib.Documented) {pairs : List (Str × Str)}
  (hpairs : ∀ pair ∈ pairs, PlainPair pair)
include hlib hpairs

/-- Among the exact names there is what the pairs say of a key without a star over a parent. -/
private theorem exact_new {key : Str} (hkey : Tame key) :
    (new lib pairs).exact (key ++ [dot]) =
      if starParent key = none then lastTarget pairs key else none := by
  -- the last pair for the key is what the map holds
  have hlast := foldl_last (add lib) (fun c => c.exact (key ++ [dot]))
    (fun pair => Defines pair key ∧ starParent key = none) (fun pair => dotted pair.2)
    (fun c pair hpair => (add_eq hlib c (hpairs pair hpair)).1 key hkey) ⟨Map.make, Map.make⟩
  rw [new, hlast, show (⟨Map.make, Map.make⟩ : CNAMEs).exact (key ++ [dot]) = none from rfl,
    Option.or_none]
  -- an exact entry is one without a star
  split
  · rename_i hplain
    simp only [hplain, and_true]
    rfl
  · rename_i hstar
    simp [hstar]

/-- Among the wildcards there is what the pairs say of the star over the parent. -/
private theorem wildcard_new {parent : Str} (hparent : Tame (starOver parent)) :
    (new lib pairs).wildcard (parent ++ [dot]) =
      (HopDns.CNAMEs.newOf pairs).wildcard.get parent := by
  have hlast := foldl_last (add lib) (fun c => c.wildcard (parent ++ [dot]))
    (fun pair => Defines pair (starOver parent)) (fun pair => dotted pair.2)
    (fun c pair hpair => (add_eq hlib c (hpairs pair hpair)).2 parent hparent)
    ⟨Map.make, Map.make⟩
  rw [new, hlast, HopDns.CNAMEs.get_wildcard_newOf pairs hparent.parent_ne_nil]
  exact Option.or_none

/-- The two loops over the parents of a name find the same. -/
private theorem lookupParent_new {name : Str} (hname : name.getLast? ≠ some dot) :
    (new lib pairs).lookupParent (name ++ [dot]) =
      (HopDns.CNAMEs.newOf pairs).lookupWildcard name := by
  -- the cases are those of the loop over the dots
  fun_induction HopDns.CNAMEs.lookupWildcard (HopDns.CNAMEs.newOf pairs) name with
  | case1 name hcut => exact lookupParent_uncut _ hcut
  | case2 name label rest hcut hempty =>
    -- a name that ends in no dot has something behind each dot
    obtain ⟨rfl, -⟩ := List.splitOnce_eq_some hcut
    rw [List.isEmpty_iff.mp hempty] at hname
    exact absurd (by simp) hname
  | case3 name label rest hcut hfull v hget =>
    obtain ⟨hne, hrest⟩ := rest_of_cut hcut hname
    rw [lookupParent_cut _ hcut, wildcard_new hlib hpairs (tame_starOver hne hrest), hget]
    rfl
  | case4 name label rest hcut hfull hget ih =>
    obtain ⟨hne, hrest⟩ := rest_of_cut hcut hname
    rw [lookupParent_cut _ hcut, wildcard_new hlib hpairs (tame_starOver hne hrest), hget,
      ih hrest]
    rfl

/-- The two tables give a name the same target. -/
theorem lookup_eq {name : Str} (hname : NameLike name) (htame : Tame name)
    (hslash : backslash ∉ name) :
    lookup lib (some (new lib pairs)) (name ++ [dot]) =
      (HopDns.CNAMEs.newOf pairs).lookup name := by
  -- the name has its one dot at the end already, and is in lower case
  have hfqdn : lib.fqdn (name ++ [dot]) = name ++ [dot] := by
    rw [hlib.fqdn _ (by simpa using ⟨hslash, by decide⟩), if_pos (by simp)]
  have hlower : lib.toLower (name ++ [dot]) = name ++ [dot] := by
    rw [hlib.toLower, lowercase_append, hname.lower]
    · rfl
    · intro b hb
      obtain hb | hb := List.mem_append.mp hb
      · exact UInt8.lt_of_le_of_lt (hname.visible b hb).2 (by decide)
      · rw [List.mem_singleton.mp hb]
        decide
  have hfits : (stripDot name).length ≤ 256 := by
    rw [hname.stripDot_eq]
    exact Nat.le_succ_of_le hname.length_le
  rw [(HopDns.CNAMEs.newOf_kept pairs).lookup_eq hfits, hname.stripDot_eq, hname.lower, lookup]
  simp only [hfqdn, hlower]
  rw [exact_new hlib hpairs htame, lookupParent_new hlib hpairs hname.undotted]
  cases hstar : starParent name with
  | none =>
    rw [if_pos rfl, HopDns.CNAMEs.get_newOf]
    cases lastTarget pairs name <;> rfl
  | some parent =>
    -- the star over a parent is its wildcard, which is asked for first
    obtain ⟨rfl, hne⟩ := starParent_eq_some.mp hstar
    rw [if_neg (Option.some_ne_none _), HopDns.CNAMEs.entry_starOver _ hne,
      HopDns.CNAMEs.lookupWildcard_starOver _ hne]
    cases (HopDns.CNAMEs.newOf pairs).wildcard.get parent <;> rfl

end

end CNAMEs

/-! ## The caches -/

namespace Cache

/-- A call to the cache of the Go generation that goes with a call to that of the port, with the
    same addresses in any order. Where the port ran out of memory, none goes with it. -/
inductive Step : Cache → CacheCall × Except Error (Option Jobs) → Cache → Prop
  | failed (c : Cache) (call : CacheCall) (e : Error) : Step c (call, .error e) c
  | set (c : Cache) (cluster job : Str) {ips ips' : List Ipv4Addr} (h : ips'.Perm ips)
      (r : Option Jobs) : Step c (.set cluster job ips, .ok r) (c.set cluster job ips')
  | update (c : Cache) (cluster : Str) {jobs : Jobs} {data : Map (List Ipv4Addr)}
      (h : ∀ job, ((data job).getD []).Perm ((jobs.get job).getD [])) (r : Option Jobs) :
      Step c (.update cluster jobs, .ok r) (c.update cluster data)
  | replace (c : Cache) (cluster : Str) {jobs : Jobs} {data : Map (List Ipv4Addr)}
      (h : ∀ job, ((data job).getD []).Perm ((jobs.get job).getD [])) (r : Option Jobs) :
      Step c (.replace cluster jobs, .ok r) (c.update cluster data)
  | clear (c : Cache) (cluster : Str) (r : Option Jobs) :
      Step c (.clear cluster, .ok r) (c.clear cluster)

/-- The two caches hold the same addresses. -/
def Holds (c : HopDns.Cache) (g : Cache) : Prop :=
  ∀ cluster job, (g.getCluster cluster job).Perm ((c.getCluster cluster job).getD [])

/-- An order in which `range` may go through the map: each key once. -/
structure Ranges (g : Cache) (order : List Str) : Prop where
  nodup : order.Nodup
  keys : ∀ cluster, cluster ∈ order ↔ g.clusters cluster ≠ none

/-- A cluster that is not there has no addresses of any job. -/
private theorem getCluster_eq_bind (g : Cache) (cluster job : Str) :
    g.getCluster cluster job = ((g.clusters cluster).bind fun jobs => jobs job).getD [] := by
  unfold getCluster
  cases g.clusters cluster <;> rfl

/-- What is set is there, and everything else is as it was. -/
theorem getCluster_set (g : Cache) (cluster' job' : Str) (ips : List Ipv4Addr) (cluster job : Str) :
    (g.set cluster' job' ips).getCluster cluster job =
      if cluster' = cluster ∧ job' = job then ips else g.getCluster cluster job := by
  -- the cell that is set, another job of the cluster, another cluster
  rw [getCluster_eq_bind, getCluster_eq_bind, set]
  by_cases hcluster : cluster' = cluster
  · subst hcluster
    by_cases hjob : job' = job
    · simp [hjob]
    · rw [if_neg fun h => hjob h.2]
      simp only [Function.update_self, Option.bind_some, Function.update_of_ne (Ne.symm hjob)]
      cases g.clusters cluster' <;> rfl
  · rw [if_neg fun h => hcluster h.1]
    simp only [Function.update_of_ne (Ne.symm hcluster)]

/-- What is updated is there, and the other clusters are as they were. -/
private theorem getCluster_update (g : Cache) (cluster' : Str) (data : Map (List Ipv4Addr))
    (cluster job : Str) : (g.update cluster' data).getCluster cluster job =
      if cluster' = cluster then (data job).getD [] else g.getCluster cluster job := by
  rw [getCluster_eq_bind, getCluster_eq_bind, update]
  by_cases hcluster : cluster' = cluster
  · simp [hcluster]
  · simp only [Function.update_of_ne (Ne.symm hcluster), if_neg hcluster]

/-- What is cleared is gone, and the other clusters are as they were. -/
private theorem getCluster_clear (g : Cache) (cluster' cluster job : Str) :
    (g.clear cluster').getCluster cluster job =
      if cluster' = cluster then [] else g.getCluster cluster job := by
  rw [getCluster_eq_bind, getCluster_eq_bind, clear]
  by_cases hcluster : cluster' = cluster
  · simp [hcluster]
  · simp only [Function.update_of_ne (Ne.symm hcluster), if_neg hcluster]

/-- One call more, and the caches still hold the same. -/
theorem Holds.step {c c' : HopDns.Cache} {g g' : Cache}
    {l : CacheCall × Except Error (Option Jobs)} (hc : Holds c g) (h : CacheStep c l c')
    (hgo : Step g l g') : Holds c' g' := by
  intro cluster job
  obtain ⟨call, result⟩ := l
  -- the call went through or failed
  obtain ⟨rfl, rfl⟩ | ⟨rfl, rfl⟩ := h.outcome
  · rw [call.getCluster_applied, CacheCall.puts]
    -- each call of the Go cache changes the rows that the same call changes here
    cases hgo with
    | set cluster' job' hips r =>
      rw [getCluster_set]
      by_cases hcluster : cluster' = cluster
      · by_cases hjob : job' = job
        · simpa [CacheCall.cluster, CacheCall.putsJob, hcluster, hjob] using hips
        · simpa [CacheCall.cluster, CacheCall.putsJob, hcluster, hjob] using hc cluster job
      · simpa [CacheCall.cluster, hcluster] using hc cluster job
    | update cluster' hdata r | replace cluster' hdata r =>
      rw [getCluster_update]
      by_cases hcluster : cluster' = cluster
      · simpa [CacheCall.cluster, CacheCall.putsJob, hcluster] using hdata job
      · simpa [CacheCall.cluster, hcluster] using hc cluster job
    | clear cluster' r =>
      rw [getCluster_clear]
      by_cases hcluster : cluster' = cluster
      · simp [CacheCall.cluster, CacheCall.putsJob, hcluster]
      · simpa [CacheCall.cluster, hcluster] using hc cluster job
  · cases hgo with
    | failed => exact hc cluster job

/-- After the same calls the caches hold the same addresses. -/
theorem holds_run {ls : List (CacheCall × Except Error (Option Jobs))} {c : HopDns.Cache}
    {g : Cache} (h : Run CacheStep HopDns.Cache.new ls c) (hgo : Run Step new ls g) :
    Holds c g := by
  have hstep : ∀ c g l c' g', Holds c g → CacheStep c l c' → Step g l g' → Holds c' g' :=
    fun _ _ _ _ _ hc hstep hgo => hc.step hstep hgo
  exact Run.lockstep hstep h hgo fun _ _ => .nil

/-- A job that is there is one of a cluster that is there. -/
private theorem has_of_getCluster {c : HopDns.Cache} {cluster job : Str} {ips : List Ipv4Addr}
    (h : c.getCluster cluster job = some ips) : c.hasCluster cluster = true := by
  obtain ⟨jobs, hview, -⟩ := Option.bind_eq_some_iff.mp h
  rw [HopDns.Cache.hasCluster, Table.containsKey_eq, hview]
  rfl

/-- Both make the same of the addresses in all clusters, in their own order. -/
theorem Holds.merged {c : HopDns.Cache} {g : Cache} (hc : Holds c g) {order : List Str}
    (horder : g.Ranges order) (job : Str) :
    (g.getMerged order job).Perm (c.merged job).flatten.eraseDups := by
  -- the Go cache goes over its clusters in any order and keeps each address once
  have hgo : g.getMerged order job =
      (order.flatMap fun cluster => g.getCluster cluster job).eraseDups := foldl_pushNew_nil _
  rw [hgo, List.perm_ext_iff_of_nodup (List.nodup_eraseDups _) (List.nodup_eraseDups _)]
  -- both lists have no address twice, so it is enough that they have the same ones
  intro ip
  rw [List.mem_eraseDups, List.mem_eraseDups, List.mem_flatMap, c.merged_eq]
  simp only [List.mem_flatten, List.mem_filterMap, HopDns.Cache.mem_clusterNames]
  -- an address of a cluster that is there
  constructor
  · rintro ⟨cluster, -, hip⟩
    have hip := (hc cluster job).mem_iff.mp hip
    cases hget : c.getCluster cluster job with
    | none =>
      rw [hget] at hip
      cases hip
    | some ips =>
      rw [hget] at hip
      exact ⟨ips, ⟨cluster, has_of_getCluster hget, hget⟩, hip⟩
  -- its cluster has an entry in the Go map, or it would have no addresses
  · rintro ⟨ips, ⟨cluster, -, hget⟩, hip⟩
    have hip : ip ∈ g.getCluster cluster job := (hc cluster job).mem_iff.mpr (by rwa [hget])
    refine ⟨cluster, (horder.keys cluster).mpr fun hnone => ?_, hip⟩
    rw [getCluster_eq_bind, hnone] at hip
    cases hip

end Cache

end Go

end HopDns

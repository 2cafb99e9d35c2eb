import HopDns.Spec.NameTree
import HopDns.Spec.OrderCorrect

/-!
# Reading a job again

A full refresh leaves a job without an address out of the view, and a refresh of that
job alone puts it in with no addresses. The two caches differ in whether the job is
known, and in nothing else.

## Key results

- `Server.handle_of_verdict`: the same verdicts give the same replies
- `Reread.verdict_eq`: the questions that tell the two caches apart ask for the job
- `sameReplies_set_iff`: when a row without addresses tells two caches apart
- `reread_sameReplies`: exactly when no question tells the two caches apart
-/

namespace HopDns

open ForStd
open Reply (encodeZone)

/-! ## The same replies -/

/-- Every question is answered with the same bytes from both caches. -/
def SameReplies (c c' : Cache) : Prop :=
  ∀ (s : Server) (msg out : List UInt8), (s.handle c msg out).1 = (s.handle c' msg out).1 ∧
    ∀ len, (s.handle c msg out).1 = some len →
      (s.handle c msg out).2.take len = (s.handle c' msg out).2.take len

namespace Server

/-- The same verdicts draw up the same reply. -/
private theorem Drafted.of_verdict {s : Server} {c c' : Cache} {msg out : List UInt8} {d : Draft}
    (hd : Drafted s c msg out d) (h : ∀ q n, q.Asks n → s.verdict c q = s.verdict c' q) :
    Drafted s c' msg out d := by
  cases hd with
  | answer hq hn hfits =>
    rw [replyDraft, h _ _ hn]
    exact .answer hq hn hfits
  | bare hq hout => exact .bare hq hout

/-- The same verdicts give the same replies. -/
theorem handle_of_verdict (s : Server) {c c' : Cache} (msg out : List UInt8)
    (h : ∀ q n, q.Asks n → s.verdict c q = s.verdict c' q) :
    (s.handle c msg out).1 = (s.handle c' msg out).1 ∧
      ∀ len, (s.handle c msg out).1 = some len →
        (s.handle c msg out).2.take len = (s.handle c' msg out).2.take len := by
  apply handle_of_drafted
  intro d
  -- a bare reply is drawn up without the cache
  exact ⟨fun hd => hd.of_verdict h, fun hd => hd.of_verdict fun q n hn => (h q n hn).symm⟩

/-- From caches with the same replies, the same names are answered with NXDOMAIN. -/
private theorem NxDomain.of_sameReplies {c c' : Cache} (h : SameReplies c c') {s : Server}
    {n : Dns.Name} (hn : s.NxDomain c n) : s.NxDomain c' n := by
  obtain ⟨m, ⟨msg, out, q, len, hq, hasks, hlen, hread⟩, hcode⟩ := hn
  obtain ⟨hfst, hbytes⟩ := h s msg out
  refine ⟨m, ⟨msg, out, q, len, hq, hasks, hfst ▸ hlen, ?_⟩, hcode⟩
  rw [← hbytes len hlen]
  exact hread

end Server

/-! ## The two caches -/

namespace Cache

private theorem hasCluster_eq (cache : Cache) (c : Str) : cache.hasCluster c =
    (cache.view c).isSome :=
  Table.containsKey_eq _ _

end Cache

namespace Reread

/-- A row that is there already, with the same addresses, changes nothing. -/
private theorem applied_set_eq {full : Cache} {c key : Str} {v : Jobs} {ips : List Ipv4Addr}
    (hview : full.view c = some v) (hget : v.get key = some ips) :
    Update.applied full (.set c key ips) = full := by
  apply Cache.ext_view
  intro c'
  rw [Update.view_applied]
  split
  · rename_i hc
    have hc : c = c' := hc
    rw [← hc, hview]
    exact congrArg some (Table.put_get hget)
  · rfl

/-- After a full refresh that left the job out, the job is known when another cluster knows it,
    or when it has the name of a cluster. -/
private theorem known_replace (cache : Cache) {c key : Str} {v : Jobs} (hkey : v.get key = none) :
    ((Update.applied cache (.replace c v)).hasJob key ||
        (Update.applied cache (.replace c v)).hasCluster key) = true ↔
      (∃ c', c' ≠ c ∧ (cache.getCluster c' key).isSome) ∨ key = c ∨
        cache.hasCluster key = true := by
  -- after the full refresh the cluster's view is the new one
  have hview : (Update.applied cache (.replace c v)).view c = some v := by
    rw [Update.view_applied]
    exact if_pos rfl
  have hother : ∀ c', c' ≠ c → (Update.applied cache (.replace c v)).view c' = cache.view c' := by
    intro c' hc'
    rw [Update.view_applied]
    exact if_neg fun h => hc' h.symm
  have hrow : (Update.applied cache (.replace c v)).getCluster c key = none := by
    rw [Cache.getCluster_eq, hview]
    exact hkey
  rw [Bool.or_eq_true, Cache.hasJob_iff, Cache.hasCluster_eq, Cache.hasCluster_eq]
  constructor
  -- the row is one of another cluster; a cluster's name may be the new one
  · intro h
    obtain ⟨c', hc'⟩ | hcluster := h
    · by_cases hc : c' = c
      · rw [hc, hrow] at hc'
        cases hc'
      · rw [Cache.getCluster_eq, hother c' hc] at hc'
        exact .inl ⟨c', hc, hc'⟩
    · by_cases hname : key = c
      · exact .inr (.inl hname)
      · rw [hother key hname] at hcluster
        exact .inr (.inr hcluster)
  · intro h
    obtain ⟨c', hc, hc'⟩ | rfl | hcluster := h
    · refine .inl ⟨c', ?_⟩
      rwa [Cache.getCluster_eq, hother c' hc]
    · rw [hview]
      exact .inr rfl
    · refine .inr ?_
      by_cases hname : key = c
      · rw [hname, hview]
        rfl
      · rwa [hother key hname]

variable {full : Cache} {c key : Str} {v : Jobs} (hview : full.view c = some v)
  (hkey : v.get key = none)

/-- A job without addresses is one row more, for a cluster that is there. -/
theorem getCluster_set (full : Cache) (c key c' job : Str) :
    (Update.applied full (.set c key [])).getCluster c' job =
      if c' = c ∧ job = key then some [] else full.getCluster c' job := by
  by_cases hc : c' = c
  · rw [hc, Update.getCluster_set]
    simp only [true_and]
  · have hne : ¬(Update.set c key []).cluster = c' := fun h => hc h.symm
    rw [if_neg fun h => hc h.1, Cache.getCluster_eq, Update.view_applied, if_neg hne]
    rfl

include hview

/-- No cluster comes or goes with a row. -/
private theorem hasCluster_set (c' : Str) :
    (Update.applied full (.set c key [])).hasCluster c' = full.hasCluster c' := by
  rw [Cache.hasCluster_eq, Cache.hasCluster_eq, Update.view_applied]
  split
  · rename_i h
    have h : c = c' := h
    rw [← h, hview]
    rfl
  · rfl

omit hview in
/-- No other job comes or goes with a row. -/
private theorem hasJob_set {job : Str} (hjob : job ≠ key) :
    (Update.applied full (.set c key [])).hasJob job = full.hasJob job := by
  rw [Bool.eq_iff_iff, Cache.hasJob_iff, Cache.hasJob_iff]
  simp only [getCluster_set, hjob, and_false, if_false]

include hkey

/-- No address is added and none is taken away. -/
private theorem merged_set (job : Str) :
    ((Update.applied full (.set c key [])).merged job).flatten = (full.merged job).flatten := by
  -- only the table of the one cluster changes
  have hrows :
      (Update.applied full (.set c key [])).clusters = full.clusters.put c (v.put key []) := by
    simp only [Update.applied, Update.cluster, Update.change, hview, Option.getD_some]
    rfl
  obtain ⟨before, after, hbefore, hafter⟩ := Table.exists_rows_put hview (v.put key [])
  simp only [Cache.merged, hrows, Table.values, hafter, hbefore, List.map_append, List.map_cons,
    List.filterMap_append, List.flatten_append]
  congr 1
  -- the two rows of the cluster differ at the job, where neither has an address
  rw [List.filterMap_cons, List.filterMap_cons, Table.get_put]
  by_cases hjob : job = key
  · rw [if_pos hjob, hjob, hkey]
    rfl
  -- any other job has the same row
  · rw [if_neg hjob]

/-- A name of the domain is looked up alike in both, unless it is the job in its cluster, or the
    job alone while nothing else is known by its name. -/
theorem lookup_eq (s : Server) {t : Str} (ht : LiesIn t s.domain)
    (hservice : dot ∉ key → t ≠ key ++ dot :: (c ++ dot :: s.domain))
    (hlabel : dot ∉ key → t = key ++ dot :: s.domain →
      (full.hasJob key || full.hasCluster key) = true) :
    (s.lookup full t).known full = (s.lookup (Update.applied full (.set c key [])) t).known
        (Update.applied full (.set c key [])) ∧
      (s.lookup full t).addresses full =
        (s.lookup (Update.applied full (.set c key [])) t).addresses
          (Update.applied full (.set c key [])) := by
  -- the domain, a name of two labels, a name of one
  obtain rfl | ⟨pre, rfl⟩ := ht
  · rw [Server.lookup_domain, Server.lookup_domain]
    exact ⟨rfl, rfl⟩
  rw [Server.lookup_append, Server.lookup_append]
  cases hcut : pre.splitOnce dot with
  | some cut =>
    obtain ⟨service, cluster⟩ := cut
    obtain ⟨rfl, hdot⟩ := List.splitOnce_eq_some hcut
    have hget : (Update.applied full (.set c key [])).getCluster cluster service =
        full.getCluster cluster service := by
      rw [getCluster_set, if_neg]
      intro h
      obtain ⟨rfl, rfl⟩ := h
      exact hservice hdot (by simp)
    simp only [hget]
    exact ⟨rfl, rfl⟩
  -- the merged addresses are the same, so only the question whether the name is known is left
  | none =>
    refine ⟨?_, congrArg List.eraseDups (merged_set hview hkey pre).symm⟩
    show (full.hasJob pre || full.hasCluster pre) = (_ || _)
    rw [hasCluster_set hview]
    by_cases hjob : pre = key
    · subst hjob
      rw [hlabel (List.not_mem_of_splitOnce hcut) rfl]
      symm
      -- the cluster itself knows the job now
      have hknown : (Update.applied full (.set c pre [])).hasJob pre = true :=
        (Cache.hasJob_iff _ _).mpr ⟨c, by rw [getCluster_set, if_pos ⟨rfl, rfl⟩]; rfl⟩
      rw [hknown, Bool.true_or]
    · rw [hasJob_set hjob]

/-- The questions that tell the two caches apart ask for the job: in its cluster, or in all
    of them while no other cluster knows it. -/
theorem verdict_eq (s : Server) {q : Query} {n : Dns.Name} (hn : q.Asks n)
    (hservice : dot ∉ key → nameText n.wire ≠ some (key ++ dot :: (c ++ dot :: s.domain)))
    (hlabel : dot ∉ key → nameText n.wire = some (key ++ dot :: s.domain) →
      (full.hasJob key || full.hasCluster key) = true) :
    s.verdict full q = s.verdict (Update.applied full (.set c key [])) q := by
  unfold Server.verdict
  rw [hn.qname]
  -- the answer depends on the cache for names of the domain only
  cases ht : nameText n.wire with
  | none => rfl
  | some t =>
    simp only
    -- neither an alias nor a name elsewhere depends on it
    split
    · unfold Server.verdictOn
      cases s.cnames.lookup t with
      | some target => rfl
      | none =>
        simp only
        split
        · rename_i hin
          obtain ⟨hknown, haddresses⟩ := lookup_eq hview hkey s (inZone_iff.mp hin)
            (fun hdot heq => hservice hdot (by rw [ht, heq]))
            (fun hdot heq => hlabel hdot (by rw [ht, heq]))
          rw [hknown, haddresses]
        · rfl
    · rfl

end Reread

/-! ## A question that tells them apart -/

/-- The first label of a text, where it has more than one. -/
private theorem exists_of_text_label {labels : List Str} (hvisible : VisibleLabels labels)
    {label rest : Str} (hdot : dot ∉ label) (h : text labels = label ++ dot :: rest) :
    ∃ l ls, labels = l :: ls ∧ lowercase l = label ∧ text ls = rest := by
  obtain ⟨ls, ls', rfl, hls, -, hlabel, hrest⟩ := exists_of_text_eq hvisible h
  cases ls with
  -- the name has a label, as its text is not empty
  | nil => exact absurd rfl hls
  | cons l ls =>
    cases ls with
    | nil => exact ⟨l, ls', rfl, by simpa [text] using hlabel, hrest⟩
    | cons l' ls =>
      -- two labels have a dot between them
      have htext := text_append (List.cons_ne_nil l []) (List.cons_ne_nil l' ls)
      rw [List.singleton_append, hlabel] at htext
      exact absurd (htext ▸ List.mem_append_right _ List.mem_cons_self) hdot

/-- A question can ask for a job of the cluster: the name of the cluster is one of visible
    labels, and with the job there is room for a domain. -/
def Askable (c key : Str) : Prop :=
  ∃ labels, labels ≠ [] ∧ Dns.Legal labels ∧ VisibleLabels labels ∧ text labels = c ∧
    (Dns.wire (key :: labels)).length + 2 ≤ 255

/-- A question for the job is one for a label in lower case. -/
private theorem label_of_asked {n : Dns.Name} {key rest : Str} (hdot : dot ∉ key)
    (h : nameText n.wire = some (key ++ dot :: rest)) : Dns.LegalLabel key ∧ VisibleLabel key := by
  obtain ⟨hvisible, htext⟩ := visible_of_nameText h
  obtain ⟨l, ls, hlabels, rfl, -⟩ := exists_of_text_label hvisible hdot htext.symm
  have hmem : l ∈ n.labels := hlabels ▸ List.mem_cons_self
  refine ⟨?_, (visibleLabel_lowercase l).mpr (hvisible l hmem)⟩
  have hlegal := n.legal l hmem
  unfold Dns.LegalLabel at hlegal ⊢
  rwa [length_lowercase]

/-- A question for the job in the cluster is one the names leave room for. -/
private theorem askable_of_asked {n : Dns.Name} {c key domain : Str} (hdot : dot ∉ key)
    (h : nameText n.wire = some (key ++ dot :: (c ++ dot :: domain))) : Askable c key := by
  obtain ⟨hvisible, htext⟩ := visible_of_nameText h
  -- the labels of the name are the job, those of the cluster and those of the domain
  obtain ⟨l, ls, hlabels, rfl, hrest⟩ := exists_of_text_label hvisible hdot htext.symm
  have hlegal := n.legal
  have hfits := n.fits
  rw [hlabels] at hvisible hlegal hfits
  obtain ⟨cs, ds, rfl, hcs, hds, rfl, -⟩ :=
    exists_of_text_eq (visibleLabels_cons.mp hvisible).2 hrest
  refine ⟨cs, hcs, fun l' hl' => hlegal l' (by simp [hl']),
    fun l' hl' => hvisible l' (by simp [hl']),
    rfl, ?_⟩
  -- the domain is a label at least
  cases ds with
  | nil => exact absurd rfl hds
  | cons d ds =>
    have hd := hlegal d (by simp)
    unfold Dns.LegalLabel at hd
    simp only [Dns.length_wire_cons, length_lowercase, Dns.wire_append, List.length_append]
      at hfits ⊢
    have hwire : (Dns.wire cs).length = (cs.flatMap Dns.labelBytes).length + 1 := by
      rw [Dns.wire, List.length_append, List.length_singleton]
    have := Dns.length_wire_pos ds
    omega

/-! ## When no question tells them apart -/

/-- The status of a job tells of the job what the report of the cluster tells. -/
structure Tells (agents : List AgentInfo) (tasks : List AgentTasks) (key : Str)
    (status : JobStatus) : Prop where
  agents : status.agents = agents
  tasks : (entries status.tasks).filter (fun e => jobOf e = key) =
    (entries tasks).filter fun e => jobOf e = key

/-- No question can tell whether the cluster `c` has a row for the job: a task of the job has an
    address, or the job is no label, or it is known without the row and cannot be asked for in
    its cluster. -/
def Steady (cache : Cache) (c : Str) (agents : List AgentInfo) (tasks : List AgentTasks)
    (here : Option Local) (key : Str) : Prop :=
  (∃ e ∈ entries tasks, jobOf e = key ∧ ∃ ip, AddressOf agents here e ip) ∨
    ¬(Dns.LegalLabel key ∧ VisibleLabel key) ∨
    (((∃ c', c' ≠ c ∧ (cache.getCluster c' key).isSome) ∨ key = c ∨ cache.hasCluster key = true) ∧
      ¬Askable c key)

/-- A server without CNAMEs for the domain `a`. -/
def shortServer : Server := ⟨str "a", CNAMEs.default⟩

/-- The default table has no CNAMEs. -/
private theorem lookup_default (t : Str) : CNAMEs.default.lookup t = none := by
  -- an empty table has no wildcard at any of the parents
  have hwildcard : ∀ name : Str, CNAMEs.default.lookupWildcard name = none := by
    intro name
    induction name using CNAMEs.lookupWildcard.induct CNAMEs.default with
    | case1 name hcut =>
      rw [CNAMEs.lookupWildcard]
      split
      · rfl
      · simp_all only [reduceCtorEq]
    | case2 name first rest hcut hrest =>
      rw [CNAMEs.lookupWildcard]
      split
      · rfl
      · simp_all
    | case3 name first rest hcut hrest target htarget => cases htarget
    | case4 name first rest hcut hrest hnone ih =>
      rw [CNAMEs.lookupWildcard]
      split
      · rfl
      · simp_all
  -- the exact side is empty, too
  unfold CNAMEs.lookup
  cases lowerInto (stripDot t) with
  | none => rfl
  | some lower =>
    simp only [Option.bind_eq_bind, Option.bind_some, hwildcard]
    rfl

/-- A name of that domain is answered with NXDOMAIN exactly when it is not known. -/
private theorem shortServer_nxDomain {cache : Cache} {n : Dns.Name} {known : Bool}
    {ips : List Ipv4Addr} (hvisible : VisibleLabels n.labels)
    (hnames : Server.Names shortServer cache (text n.labels) known ips) :
    shortServer.NxDomain cache n ↔ known = false := by
  have htext := nameText_of_visible hvisible
  rw [Server.nxDomain_iff]
  obtain ⟨hin, hknown, -⟩ := Server.names_iff.mp hnames
  -- a name of this server's domain is denied for one reason only
  constructor
  · intro h
    obtain ⟨t, ht, -, ⟨hmissing, -⟩ | ⟨hout, -⟩⟩ := h
    · obtain rfl := Option.some.inj (htext.symm.trans ht)
      rw [hknown, ← (Server.names_iff.mp hmissing).2.1]
    · obtain rfl := Option.some.inj (htext.symm.trans ht)
      exact absurd hin hout
  · rintro rfl
    obtain rfl := hnames.eq_nil
    exact ⟨_, htext, lookup_default _, .inl ⟨hnames, ⟨[str "a"], by decide, by decide⟩, by decide⟩⟩

private theorem text_singleton (l : Str) : text [l] = lowercase l := List.intercalate_singleton

section

variable {full : Cache} {c key : Str} {v : Jobs} (hview : full.view c = some v)
  (hkey : v.get key = none) (hfold : lowercase key = key) (hlabel : Dns.LegalLabel key)
  (hvisible : VisibleLabel key)
include hfold hlabel hvisible

/-- A job that is not known without its row is answered differently over all clusters. -/
private theorem known_of_sameReplies (h : SameReplies full (Update.applied full (.set c key []))) :
    (full.hasJob key || full.hasCluster key) = true := by
  unfold Dns.LegalLabel at hlabel
  -- a question for the job in a domain of one letter
  have hlen : (Dns.wire [key, str "a"]).length ≤ 255 := by
    rw [Dns.length_wire_cons]
    show key.length + 1 + 3 ≤ 255
    omega
  let n : Dns.Name := ⟨[key, str "a"], Dns.Legal.cons hlabel (by decide), hlen⟩
  have hn : VisibleLabels n.labels := visibleLabels_cons.mpr ⟨hvisible, by decide +kernel⟩
  have htext : text n.labels = key ++ dot :: shortServer.domain := by
    have := text_append (List.cons_ne_nil key []) (List.cons_ne_nil (str "a") [])
    rw [text_singleton, hfold] at this
    exact this
  -- a key of one label
  have hdot : dot ∉ key := hfold ▸ hvisible.dot_not_mem
  have hfull := @Server.Names.label shortServer full key hdot
  have hset := @Server.Names.label shortServer (Update.applied full (.set c key [])) key hdot
  rw [← htext] at hfull hset
  -- with its row the job is known
  have hknown : (Update.applied full (.set c key [])).hasJob key = true :=
    (Cache.hasJob_iff _ _).mpr ⟨c, by rw [Reread.getCluster_set, if_pos ⟨rfl, rfl⟩]; rfl⟩
  rw [hknown, Bool.true_or] at hset
  -- if it was unknown, the one cache denies the name and the other does not
  refine Decidable.byContradiction fun hunknown => ?_
  have hnx := (shortServer_nxDomain hn hfull).mpr (Bool.eq_false_iff.mpr hunknown)
  cases (shortServer_nxDomain hn hset).mp (hnx.of_sameReplies h)

include hview hkey

/-- A job that can be asked for in its cluster is answered differently there. -/
private theorem not_askable_of_sameReplies
    (h : SameReplies full (Update.applied full (.set c key []))) :
    ¬Askable c key := by
  intro h'
  obtain ⟨labels, hne, hlegal, hvisible', rfl, hfits⟩ := h'
  -- a question for the job in its cluster, below a domain of one letter
  have hlen : (Dns.wire (key :: (labels ++ [str "a"]))).length ≤ 255 := by
    rw [Dns.length_wire_cons, Dns.wire, List.length_append, List.length_singleton] at hfits
    rw [Dns.length_wire_cons, Dns.wire_append, List.length_append]
    show key.length + 1 + ((labels.flatMap Dns.labelBytes).length + 3) ≤ 255
    omega
  let n : Dns.Name := ⟨key :: (labels ++ [str "a"]), (hlegal.append (by decide)).cons hlabel, hlen⟩
  -- the name is visible, label by label
  have hn : VisibleLabels n.labels := by
    refine visibleLabels_cons.mpr ⟨hvisible, fun l hl => ?_⟩
    obtain hl | hl := List.mem_append.mp hl
    · exact hvisible' l hl
    · rw [List.mem_singleton.mp hl]
      decide +kernel
  -- its text is the job, the cluster and the domain
  have htext : text n.labels = key ++ dot :: (text labels ++ dot :: shortServer.domain) := by
    have h₁ := text_append (List.cons_ne_nil key [])
      (List.append_ne_nil_of_left_ne_nil hne [str "a"])
    have h₂ := text_append hne (List.cons_ne_nil (str "a") [])
    rw [text_singleton, hfold, h₂] at h₁
    exact h₁
  have hdot : dot ∉ key := hfold ▸ hvisible.dot_not_mem
  have hfull := @Server.Names.service shortServer full key (text labels) hdot
  have hset := @Server.Names.service shortServer
    (Update.applied full (.set (text labels) key [])) key (text labels) hdot
  rw [← htext] at hfull hset
  -- without the row the name is missing, and with it the name is there
  have hnone : full.getCluster (text labels) key = none := by
    rw [Cache.getCluster_eq, hview]
    exact hkey
  rw [hnone] at hfull
  rw [Reread.getCluster_set, if_pos ⟨rfl, rfl⟩] at hset
  have hnx := (shortServer_nxDomain hn hfull).mpr rfl
  cases (shortServer_nxDomain hn hset).mp (hnx.of_sameReplies h)

end

/-- A row without addresses changes no reply exactly when the job is no label, or is known
    without the row and cannot be asked for in its cluster. -/
theorem sameReplies_set_iff {full : Cache} {c key : Str} {v : Jobs} (hview : full.view c = some v)
    (hkey : v.get key = none) (hfold : lowercase key = key) :
    SameReplies full (Update.applied full (.set c key [])) ↔
      ¬(Dns.LegalLabel key ∧ VisibleLabel key) ∨
        ((full.hasJob key || full.hasCluster key) = true ∧ ¬Askable c key) := by
  -- from equal replies, two questions give the two conditions
  constructor
  · intro h
    by_cases hlabel : Dns.LegalLabel key ∧ VisibleLabel key
    · exact .inr ⟨known_of_sameReplies hfold hlabel.1 hlabel.2 h,
        not_askable_of_sameReplies hview hkey hfold hlabel.1 hlabel.2 h⟩
    · exact .inl hlabel
  -- for the other direction both caches give every question the same verdict
  · intro h s msg out
    apply s.handle_of_verdict
    intro q n hn
    obtain hlabel | ⟨hknown, hask⟩ := h
    · -- whoever asks for the job asks for a label
      exact Reread.verdict_eq hview hkey s hn
        (fun hdot ht => absurd (label_of_asked hdot ht) hlabel)
        (fun hdot ht => absurd (label_of_asked hdot ht) hlabel)
    · exact Reread.verdict_eq hview hkey s hn (fun hdot ht => hask (askable_of_asked hdot ht))
        (fun _ _ => hknown)

/-- Reading a job again after a full refresh, from the same report: no question is answered
    differently exactly when no question can tell whether the cluster has a row for the job. -/
theorem reread_sameReplies {w : Watcher} {c : Str} (hw : w.cluster = some c)
    (agents : List AgentInfo) (tasks : List AgentTasks) (here : Option Local) (job : Str)
    {status : JobStatus} (hstatus : Tells agents tasks (lowercase job) status) (cache : Cache)
    {u u' : Update} {mem mem' mem₁ mem₁' : Mem}
    (hfull : (w.refreshedFull agents tasks here).run mem = (.ok u, mem'))
    (hjob : (w.refreshedJob job status here).run mem₁ = (.ok u', mem₁')) :
    SameReplies (drain [u] (cache, [])).1 (drain [u, u'] (cache, [])).1 ↔
      Steady cache c agents tasks here (lowercase job) := by
  -- what the two refreshes send
  obtain rfl := Except.ok.inj ((Watcher.refreshedFull_yields hw agents tasks here).eq_of_ok hfull)
  obtain rfl := Except.ok.inj ((Watcher.refreshedJob_yields hw job status here).eq_of_ok hjob)
  -- both refreshes find the same addresses
  have haddresses : addresses status.agents status.tasks here (lowercase job) =
      addresses agents tasks here (lowercase job) := by
    rw [hstatus.agents]
    exact congrArg (addressesIn agents here) hstatus.tasks
  have hget := get_viewOf agents tasks here (lowercase job)
  have hview : (Update.applied cache (.replace c (viewOf agents tasks here))).view c =
      some (viewOf agents tasks here) := by
    rw [Update.view_applied]
    exact if_pos rfl
  rw [haddresses, drain_eq, drain_eq, List.foldl_cons, List.foldl_cons, List.foldl_cons,
    List.foldl_nil, List.foldl_nil]
  -- the job has no address, or it has a row already
  by_cases hnone : addresses agents tasks here (lowercase job) = []
  · -- the full refresh left the job out, and no task of it has an address
    rw [if_pos hnone] at hget
    have hstopped := mt addresses_ne_nil_iff.mpr (not_not_intro hnone)
    rw [hnone, sameReplies_set_iff hview hget (lowercase_idem job), Reread.known_replace cache hget,
      Steady]
    exact ⟨.inr, fun h => h.resolve_left hstopped⟩
  · -- the row is there already, with the same addresses
    rw [if_neg hnone] at hget
    rw [Reread.applied_set_eq hview hget]
    exact ⟨fun _ => .inl (addresses_ne_nil_iff.mp hnone), fun _ _ _ _ => ⟨rfl, fun _ _ => rfl⟩⟩

/-- A watcher of the cluster `prod`. -/
def prodWatcher : Watcher := { Watcher.peer with cluster := some (str "prod") }

/-- The only task of the job `web` has stopped. -/
def stoppedTasks : List AgentTasks :=
  [⟨str "node1", some [⟨str "web", .other 3, str "docker", 0⟩]⟩]

/-- `web.hop.local` -/
def webHop : Dns.Name := ⟨[str "web", str "hop", str "local"], by decide, by decide⟩

/-- A stopped task, read again alone and with all others. -/
theorem reread_sameReplies_stopped :
    SameReplies (drain [.replace (str "prod") Table.new] (Cache.new, [])).1
        (drain [.replace (str "prod") Table.new, .set (str "prod") (str "web") []]
          (Cache.new, [])).1 ↔
      Steady Cache.new (str "prod") [] stoppedTasks none (lowercase (str "web")) :=
  @reread_sameReplies prodWatcher (str "prod") rfl [] stoppedTasks none (str "web")
    ⟨[], stoppedTasks⟩ ⟨rfl, rfl⟩ Cache.new _ _ [] [] [] []
    (show _ = (Except.ok (Update.replace (str "prod") Table.new), _) from rfl)
    (show _ = (Except.ok (Update.set (str "prod") (str "web") []), _) from rfl)

/-- After a full refresh a job whose tasks have all stopped is answered with NXDOMAIN, and after
    it was read again with NOERROR. -/
theorem stopped_reread :
    (prodWatcher.refreshedFull [] stoppedTasks none).run [] =
        (.ok (.replace (str "prod") Table.new), []) ∧
      (prodWatcher.refreshedJob (str "web") ⟨[], stoppedTasks⟩ none).run [] =
        (.ok (.set (str "prod") (str "web") []), []) ∧
      (Dns.Message.read (((⟨DEFAULT_DOMAIN, CNAMEs.default⟩ : Server).handle
        (drain [.replace (str "prod") Table.new] (Cache.new, [])).1
          (queryFor webHop rtype.A) (List.replicate 1232 0)).2.take 119)).map Dns.Message.rcode =
            some Rcode.nxDomain.toUInt16 ∧
      (Dns.Message.read (((⟨DEFAULT_DOMAIN, CNAMEs.default⟩ : Server).handle
        (drain [.replace (str "prod") Table.new, .set (str "prod") (str "web") []]
          (Cache.new, [])).1
          (queryFor webHop rtype.A) (List.replicate 1232 0)).2.take 119)).map Dns.Message.rcode =
            some Rcode.noError.toUInt16 := by
  refine ⟨rfl, rfl, ?_, ?_⟩ <;> decide +kernel

end HopDns

import Mathlib.Data.List.Basic
import HopDns.Spec.AskCorrect

/-!
# What an NXDOMAIN says about the names below

A resolver takes an NXDOMAIN for everything below the name as well. The server keeps
to that for the name of a cluster with one label, since it knows the clusters; it
does not for the other names that have records below them only.

## Key results

- `Server.nxDomain_iff`: the names that are answered with NXDOMAIN
- `Server.hasRecord_iff`: the names that are answered with an address or a CNAME
- `Server.nxDomain_beneath`: exactly when an NXDOMAIN is right about a name below
-/

namespace HopDns

open Reply (aRecord cnameRecord soaRecord encodeZone)

namespace Server

/-- Some question for the name is answered with NXDOMAIN. -/
def NxDomain (s : Server) (cache : Cache) (n : Dns.Name) : Prop :=
  ∃ m, s.Answers cache n m ∧ m.rcode = Rcode.nxDomain.toUInt16

/-- Some question for the name is answered with an address or a CNAME. -/
def HasRecord (s : Server) (cache : Cache) (n : Dns.Name) : Prop :=
  ∃ m, s.Answers cache n m ∧
    ∃ rr ∈ m.answers, rr.rtype = HopDns.rtype.A ∨ rr.rtype = HopDns.rtype.CNAME

/-- The name has no CNAME and is not known, and it lies in a zone that has an SOA record: the
    domain, or else a zone of CNAMEs. -/
structure Missing (s : Server) (cache : Cache) (t : Str) : Prop where
  lookup : s.cnames.lookup t = none
  zone : (Names s cache t false [] ∧ ∃ z, encodeZone s.domain = some z) ∨
    (¬LiesIn t s.domain ∧ ∃ zone z, s.cnames.zoneOf t = some zone ∧ encodeZone zone = some z)

/-- The name has a CNAME to a name. -/
def HasAlias (s : Server) (u : Str) : Prop :=
  ∃ target z, s.cnames.lookup u = some target ∧ encodeName target = some z

/-- The name is one of the domain with addresses, and without a CNAME. -/
def HasAddress (s : Server) (cache : Cache) (u : Str) : Prop :=
  s.cnames.lookup u = none ∧ ∃ known ips, Names s cache u known ips ∧ ips ≠ []

/-! ## The two kinds of replies -/

/-- Only a known name has addresses. -/
theorem Names.eq_nil {s : Server} {cache : Cache} {t : Str} {ips : List Ipv4Addr}
    (h : Names s cache t false ips) : ips = [] := by
  generalize hk : false = known at h
  cases h with
  | apex => cases hk
  | @service service cluster hdot =>
    cases hget : cache.getCluster cluster service with
    | none => rfl
    | some ips => simp [hget] at hk
  | @label job hdot =>
    have hjob : cache.hasJob job = false := (Bool.or_eq_false_iff.mp hk.symm).1
    -- a job no cluster knows has no list of addresses
    unfold Cache.hasJob at hjob
    cases hmerged : cache.merged job with
    | nil => rfl
    | cons first rest => simp [hmerged] at hjob

/-- The names that are answered with NXDOMAIN: the missing ones. -/
theorem nxDomain_iff (s : Server) (cache : Cache) (n : Dns.Name) :
    s.NxDomain cache n ↔ ∃ t, nameText n.wire = some t ∧ Missing s cache t := by
  constructor
  · intro h'
    obtain ⟨m, hm, hcode⟩ := h'
    obtain ⟨q, limit, hn, rfl⟩ := hm.exists_replyTo
    obtain ⟨ips, zone, z, hv, hz⟩ := verdict_of_nxDomain hcode
    obtain ⟨t, ht, hl, ⟨rfl, all, hall, -⟩ | ⟨-, -, hout, hzone⟩⟩ := verdict_eq_zone hn hv
    · obtain rfl := hall.eq_nil
      exact ⟨t, ht, hl, .inl ⟨hall, z, hz⟩⟩
    · exact ⟨t, ht, hl, .inr ⟨hout, zone, z, hzone, hz⟩⟩
  · intro h'
    obtain ⟨t, ht, hl, hzone⟩ := h'
    -- a question for the SOA record never has an answer
    have hdecides := decides_queryFor s cache n HopDns.rtype.SOA
    have hroom := room_queryOf n HopDns.rtype.SOA
    refine ⟨_, answers_queryFor s cache n HopDns.rtype.SOA, ?_⟩
    -- with the zone encoded the SOA record fits, so the code is not a failure
    have hcode : ∀ {zone : Str} {z : Dns.Name} {m : Dns.Message},
        Negative m ((Reply.startDraft (queryOf n HopDns.rtype.SOA) n).room 1232) .nxDomain zone →
          encodeZone zone = some z → m.rcode = Rcode.nxDomain.toUInt16 := by
      intro zone z m hneg hz
      obtain ⟨-, -, -, hcode, -⟩ | ⟨hnone, -⟩ := hneg
      · exact hcode
      · have := hnone z hz
        have hmax := (Reply.encodeZone_eq_some.mp hz).2
        unfold Reply.SOA_ZONE_MAX at hmax
        omega
    obtain ⟨hnames, z, hz⟩ | ⟨hout, zone, z, hzone, hz⟩ := hzone
    · have hneg := hdecides.negative t false [] ht rfl hl hnames (fun h => h.2 rfl)
      exact hcode hneg hz
    · exact hcode (hdecides.zone t zone ht rfl hl hout hzone) hz

/-- The names that are answered with an address or a CNAME: those that have one. -/
theorem hasRecord_iff (s : Server) (cache : Cache) (n : Dns.Name) :
    s.HasRecord cache n ↔
      ∃ u, nameText n.wire = some u ∧ (HasAlias s u ∨ HasAddress s cache u) := by
  constructor
  · intro h
    obtain ⟨m, hm, rr, hrr, -⟩ := h
    obtain ⟨q, limit, hn, rfl⟩ := hm.exists_replyTo
    obtain ⟨target, z, hv, hz⟩ | ⟨known, ips, zone, hv, hips⟩ :=
      verdict_of_answer (List.ne_nil_of_mem hrr)
    · obtain ⟨u, hu, hl⟩ := verdict_eq_aliased hn hv
      exact ⟨u, hu, .inl ⟨target, z, hl, hz⟩⟩
    · obtain ⟨u, hu, hl, ⟨-, all, hall, rfl | rfl⟩ | ⟨-, rfl, -, -⟩⟩ := verdict_eq_zone hn hv
      · exact ⟨u, hu, .inr ⟨hl, known, ips, hall, hips⟩⟩
      · exact absurd rfl hips
      · exact absurd rfl hips
  · intro h
    obtain ⟨u, hu, ⟨target, z, hl, hz⟩ | ⟨hl, known, ips, hnames, hips⟩⟩ := h
    · have hdecides := decides_queryFor s cache n HopDns.rtype.A
      have hroom := room_queryOf n HopDns.rtype.A
      refine ⟨_, answers_queryFor s cache n HopDns.rtype.A, ?_⟩
      obtain ⟨z', -, -, -, hm, -⟩ | ⟨hnone, -⟩ := hdecides.aliased u target hu rfl hl
      · exact ⟨cnameRecord z' TTL, hm ▸ List.mem_singleton_self _, .inr rfl⟩
      · have := hnone z hz
        have := z.length_wire_le
        omega
    · have hdecides := decides_queryFor s cache n HopDns.rtype.A
      refine ⟨_, answers_queryFor s cache n HopDns.rtype.A, ?_⟩
      obtain ⟨-, hne, hall, -⟩ := hdecides.addressed u known ips hu rfl hl hnames rfl hips
      obtain ⟨rr, hrr⟩ := List.exists_mem_of_ne_nil _ hne
      obtain ⟨ip, -, rfl⟩ := hall rr hrr
      exact ⟨aRecord ip TTL, hrr, .inl rfl⟩

/-! ## The names below a missing one -/

/-- The records below the missing name `t` that its NXDOMAIN denies. -/
inductive Denied (s : Server) (cache : Cache) (t : Str) : Str → Prop
  /-- a CNAME, exact or from a wildcard -/
  | aliased {u : Str} : HasAlias s u → Denied s cache t u
  /-- an address in the domain, when the domain itself lies below `t` -/
  | domain {u : Str} : ¬LiesIn t s.domain → HasAddress s cache u → Denied s cache t u
  /-- an address in a cluster whose name holds a dot -/
  | cluster {service cluster : Str} {ips : List Ipv4Addr} : LiesIn t s.domain → dot ∉ service →
      dot ∈ cluster → cache.getCluster cluster service = some ips → ips ≠ [] →
        s.cnames.lookup (service ++ dot :: (cluster ++ dot :: s.domain)) = none →
          Denied s cache t (service ++ dot :: (cluster ++ dot :: s.domain))

/-- What is denied by mistake has a record. -/
private theorem Denied.hasRecord {s : Server} {cache : Cache} {t u : Str} (h : Denied s cache t u) :
    HasAlias s u ∨ HasAddress s cache u := by
  cases h with
  | aliased halias => exact .inl halias
  | domain hout haddress => exact .inr haddress
  | @cluster service cluster ips hin hservice hcluster hget hips hl =>
    have hnames := @Names.service s cache service cluster hservice
    rw [hget] at hnames
    exact .inr ⟨hl, _, _, hnames, hips⟩

/-- A cluster with a job is there. -/
private theorem hasCluster_of_getCluster {cache : Cache} {cluster service : Str}
    {ips : List Ipv4Addr}
    (h : cache.getCluster cluster service = some ips) : cache.hasCluster cluster = true := by
  obtain ⟨jobs, hjobs, -⟩ := Option.bind_eq_some_iff.mp h
  rw [Cache.hasCluster, Table.containsKey_eq, hjobs]
  rfl

/-- A name of the domain that is not known, with an address below it: the address is in a
    cluster whose name holds a dot. For a cluster with one label, the name between the service
    and the domain is the cluster's, and that one is known. -/
private theorem denied_of_below {s : Server} {cache : Cache} {n m : Dns.Name}
    (hbelow : LiesBelow m n) (hmissing : Names s cache (text n.labels) false [])
    (haddress : HasAddress s cache (text m.labels)) :
    Denied s cache (text n.labels) (text m.labels) := by
  have hin := (names_iff.mp hmissing).1
  obtain ⟨hl, known, ips, hnames, hips⟩ := haddress
  -- the apex is known, so there is something before the domain
  obtain ⟨pre, hpre⟩ : ∃ pre, text n.labels = pre ++ dot :: s.domain := by
    obtain heq | hpre := hin
    · rw [heq] at hmissing
      have := (names_iff.mp hmissing).2.1
      rw [lookup_domain] at this
      cases this
    · exact hpre
  -- a name with a domain behind a dot is not the root
  have hne : n.labels ≠ [] := by
    intro hnil
    rw [hnil, text_nil] at hpre
    simp at hpre
  obtain ⟨above, habove⟩ := hbelow.text_eq hne
  rw [hpre, ← List.cons_append, ← List.append_assoc] at habove
  generalize hu : text m.labels = u at hnames habove hl ⊢
  cases hnames with
  | apex => exact absurd rfl hips
  | @label job hdot =>
    -- what stands before the domain holds the dot below the name
    have hjob := List.append_cancel_right habove
    exact absurd (hjob ▸ List.mem_append_right above List.mem_cons_self) hdot
  | @service service cluster hservice =>
    cases hget : cache.getCluster cluster service with
    | none =>
      rw [hget] at hips
      exact absurd rfl hips
    | some ips =>
      rw [hget] at hips
      refine .cluster hin hservice ?_ hget hips hl
      -- a cluster without a dot is the label the missing name stands for
      refine Decidable.byContradiction fun hcluster => ?_
      rw [← List.cons_append, ← List.append_assoc] at habove
      obtain ⟨-, -, rfl⟩ := (List.append_cons_inj_of_notMem hservice hcluster).mp
        (List.append_cancel_right habove)
      rw [hpre] at hmissing
      have hknown := (names_iff.mp hmissing).2.1
      rw [lookup_append, List.splitOnce_eq_none hcluster] at hknown
      have hview : cache.hasCluster cluster = true := hasCluster_of_getCluster hget
      simp [Lookup.known, hview] at hknown

/-- The NXDOMAIN of a missing name denies a record below it. -/
def Denies (s : Server) (cache : Cache) (n m : Dns.Name) : Prop :=
  ∃ t u, nameText n.wire = some t ∧ nameText m.wire = some u ∧ Missing s cache t ∧
    Denied s cache t u

/-- An NXDOMAIN is right about a name below, for every question for the two names, exactly
    when it does not deny a record of these kinds: a CNAME, an address when the domain itself
    lies below, and an address in a cluster whose name holds a dot. -/
theorem nxDomain_beneath (s : Server) (cache : Cache) (n m : Dns.Name) (h : LiesBelow m n) :
    (s.NxDomain cache n → ¬s.HasRecord cache m) ↔ ¬Denies s cache n m := by
  rw [nxDomain_iff, hasRecord_iff]
  constructor
  · rintro hright ⟨t, u, ht, hu, hmissing, hdenied⟩
    exact hright ⟨t, ht, hmissing⟩ ⟨u, hu, hdenied.hasRecord⟩
  · rintro hnone ⟨t, ht, hmissing⟩ ⟨u, hu, halias | haddress⟩
    · exact hnone ⟨t, u, ht, hu, hmissing, .aliased halias⟩
    · refine hnone ⟨t, u, ht, hu, hmissing, ?_⟩
      obtain ⟨-, rfl⟩ := visible_of_nameText ht
      obtain ⟨-, rfl⟩ := visible_of_nameText hu
      obtain ⟨hnames, -⟩ | ⟨hout, -⟩ := hmissing.zone
      · exact denied_of_below h hnames haddress
      · exact .domain hout haddress

/-- `apps.hop.local` -/
def appsName : Dns.Name := ⟨[str "apps", str "hop", str "local"], by decide, by decide⟩

/-- `foo.Apps.hop.local` -/
def fooName : Dns.Name :=
  ⟨[str "foo", str "Apps", str "hop", str "local"], by decide, by decide⟩

private theorem foo_liesBelow : LiesBelow fooName appsName := ⟨[str "foo"], by decide, by decide⟩

/-- A name below a wildcard's parent, which the server denies. -/
theorem nxDomain_beneath_foo :
    ((⟨DEFAULT_DOMAIN, CNAMEs.default⟩ : Server).NxDomain Cache.new appsName →
        ¬(⟨DEFAULT_DOMAIN, CNAMEs.default⟩ : Server).HasRecord Cache.new fooName) ↔
      ¬Denies ⟨DEFAULT_DOMAIN, CNAMEs.default⟩ Cache.new appsName fooName :=
  nxDomain_beneath ⟨DEFAULT_DOMAIN, CNAMEs.default⟩ Cache.new appsName fooName foo_liesBelow

/-- The parent of a wildcard is answered with NXDOMAIN, and a name below it with the CNAME. -/
theorem wildcard_denied :
    LiesBelow fooName appsName ∧
      (withAlias (str "*.apps.hop.local") (str "ingress.prod-eu.hop.local")).NxDomain Cache.new
        appsName ∧
      (withAlias (str "*.apps.hop.local") (str "ingress.prod-eu.hop.local")).HasRecord Cache.new
        fooName := by
  refine ⟨foo_liesBelow, ⟨_, answers_queryFor _ _ appsName HopDns.rtype.A, ?_⟩,
    ⟨_, answers_queryFor _ _ fooName HopDns.rtype.A, ?_⟩⟩ <;> decide +kernel

end Server

end HopDns

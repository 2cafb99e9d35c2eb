import HopDns.Native.Server

/-!
# Names and zones

A name lies in a zone when it is the zone, or ends in a dot and the zone.

## Key results

- `inZone_iff`: the test the server makes is this one
- `Server.lookup_append`: a name of the domain is looked up by what stands before it
-/

namespace HopDns

/-- The name is the zone, or something, a dot and the zone. -/
def LiesIn (name zone : Str) : Prop := name = zone ∨ ∃ pre, name = pre ++ dot :: zone

/-- A name is in a zone when it is the zone or ends in a dot and the zone. -/
theorem inZone_iff {name zone : Str} : inZone name zone = true ↔ LiesIn name zone := by
  simp only [inZone, Bool.or_eq_true, beq_iff_eq, Bool.and_eq_true, decide_eq_true_eq,
    List.isSuffixOf_iff_suffix, LiesIn]
  constructor
  · intro h'
    obtain h | ⟨⟨hlt, pre, rfl⟩, hdot⟩ := h'
    · exact .inl h
    · -- the byte before the zone is the last one of what stands before it
      refine .inr ⟨pre.dropLast, ?_⟩
      rw [List.length_append] at hlt
      have hne : pre ≠ [] := List.ne_nil_of_length_pos (by omega)
      rw [List.length_append, Nat.add_sub_cancel, List.getElem?_append_left (by omega),
        ← List.getLast?_eq_getElem?, List.getLast?_eq_some_getLast hne, Option.some.injEq] at hdot
      rw [← List.singleton_append, ← List.append_assoc, ← hdot, List.dropLast_concat_getLast hne]
  · intro h'
    obtain h | ⟨pre, rfl⟩ := h'
    · exact .inl h
    · refine .inr ⟨⟨?_, ⟨pre ++ [dot], by simp⟩⟩, ?_⟩
      · rw [List.length_append, List.length_cons]
        omega
      -- the dot is where the zone, and one byte more, are taken off the end
      · have hlen : (pre ++ dot :: zone).length - zone.length - 1 = pre.length := by
          rw [List.length_append, List.length_cons]
          omega
        rw [hlen, List.getElem?_append_right (Nat.le_refl _), Nat.sub_self]
        rfl

namespace Server

/-- What a name of the domain stands for: whether it exists, and the addresses it has. -/
inductive Names (s : Server) (cache : Cache) : Str → Bool → List Ipv4Addr → Prop
  /-- the domain itself -/
  | apex : Names s cache s.domain true []
  /-- a service in one cluster -/
  | service {service cluster : Str} : dot ∉ service →
      Names s cache (service ++ dot :: (cluster ++ dot :: s.domain))
        (cache.getCluster cluster service).isSome ((cache.getCluster cluster service).getD [])
  /-- a service in all clusters, or the name of a cluster -/
  | label {job : Str} : dot ∉ job →
      Names s cache (job ++ dot :: s.domain) (cache.hasJob job || cache.hasCluster job)
        (cache.merged job).flatten.eraseDups

/-- What stands before the domain is looked up. -/
theorem lookup_append (s : Server) (cache : Cache) (pre : Str) :
    s.lookup cache (pre ++ dot :: s.domain) =
      match pre.splitOnce dot with
      | some (service, cluster) => .cluster (cache.getCluster cluster service)
      | none => .merged pre := by
  have hlen : (pre ++ dot :: s.domain).length = pre.length + (s.domain.length + 1) := by
    rw [List.length_append, List.length_cons]
  have hlong : ¬pre.length + (s.domain.length + 1) < s.domain.length + 1 := by omega
  have htake : (pre ++ dot :: s.domain).take pre.length = pre := List.take_left' rfl
  cases hcut : pre.splitOnce dot <;>
    simp only [lookup, hlen, if_neg hlong, Nat.add_sub_cancel, htake, hcut]

theorem lookup_domain (s : Server) (cache : Cache) : s.lookup cache s.domain = .apex := by
  rw [lookup, if_pos (Nat.lt_succ_self _)]

end Server

end HopDns

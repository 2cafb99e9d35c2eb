import HopDns.Spec.CacheCorrect
import HopDns.Spec.WatcherCorrect
import HopDns.Spec.ZoneCorrect

/-!
# The order of the peers

Each watcher sends messages about its own cluster. The order in which the messages
of different watchers arrive does not matter.

## Key results

- `Server.handle_congr`: an answer about one cluster depends on the view of that cluster
- `drain_interleaving`: any two orders of arrival leave the same cache
- `peers_order`: the order of the peers does not matter
-/

namespace HopDns

open ForStd

namespace Server

variable (s : Server) {c c' : Cache} {service cluster : Str}

/-- What is written for a name of one cluster depends on the view of that cluster. -/
private theorem service_congr (hview : c.view cluster = c'.view cluster) (hdot : dot ∉ service)
    (qtype : UInt16) :
    s.service c (service ++ dot :: (cluster ++ dot :: s.domain)) qtype =
      s.service c' (service ++ dot :: (cluster ++ dot :: s.domain)) qtype := by
  -- the name splits at its first dot into the service and the cluster
  have hname : service ++ dot :: (cluster ++ dot :: s.domain) =
      (service ++ dot :: cluster) ++ dot :: s.domain := by simp
  have hlookup : ∀ c : Cache, s.lookup c (service ++ dot :: (cluster ++ dot :: s.domain)) =
      .cluster (c.getCluster cluster service) := by
    intro c
    rw [hname, lookup_append, List.splitOnce_append cluster hdot]
  -- so the row is read in the view of that cluster alone
  have hget : c.getCluster cluster service = c'.getCluster cluster service := by
    rw [Cache.getCluster_eq, Cache.getCluster_eq, hview]
  simp only [Server.service, hlookup, hget]
  rfl

/-- The answer to `service.cluster.domain` depends on the view of that cluster only. -/
theorem handle_congr (hview : c.view cluster = c'.view cluster) (hdot : dot ∉ service)
    {msg : List UInt8} {q : Query} (hq : parseQuery msg = .ok q)
    (hname : nameText q.qname = some (service ++ dot :: (cluster ++ dot :: s.domain)))
    (hcname : s.cnames.lookup (service ++ dot :: (cluster ++ dot :: s.domain)) = none)
    (out : List UInt8) : s.handle c msg out = s.handle c' msg out := by
  have hanswer : s.answer c q = s.answer c' q := by
    simp only [answer, hname, hcname, s.service_congr hview hdot]
  simp only [handle, hq, hanswer]

end Server

/-! ## Orders of arrival -/

section

variable {ι : Type} {us : ι → List Update} {name : ι → Str}
  (hname : ∀ i j, name i = name j → i = j) (hown : ∀ i, ∀ u ∈ us i, u.cluster = name i)
  {l l' : List Update} (hl : Interleaving us l) (hl' : Interleaving us l')
include hname hown hl

/-- The view of a sender's cluster comes from its own messages. -/
private theorem view_drain_interleaving (i : ι) {c c₀ : Cache}
    (hc : c₀.view (name i) = c.view (name i)) :
    (drain l (c, [])).1.view (name i) = (drain (us i) (c₀, [])).1.view (name i) := by
  have hall : (us i).filter (fun u => u.cluster = name i) = us i :=
    List.filter_eq_self.mpr fun u hu => decide_eq_true (hown i u hu)
  rw [get_drain, get_drain, hl.filter_eq hname hown, hall, hc]

omit hname in
/-- A cluster that is no sender's keeps its view. -/
private theorem view_drain_other {cluster : Str} (hcluster : ∀ i, name i ≠ cluster) (c : Cache) :
    (drain l (c, [])).1.view cluster = c.view cluster := by
  have hnone : l.filter (fun u => u.cluster = cluster) = [] := by
    rw [List.filter_eq_nil_iff]
    intro u hu h
    obtain ⟨i, hi⟩ := hl.mem hu
    exact hcluster i ((hown i u hi).symm.trans (of_decide_eq_true h))
  rw [get_drain, hnone]
  rfl

include hl'

/-- Any two orders of arrival leave the same cache. -/
theorem drain_interleaving (c : Cache) : drain l (c, []) = drain l' (c, []) := by
  have hcache : (drain l (c, [])).1 = (drain l' (c, [])).1 := by
    apply Cache.ext_view
    intro cluster
    by_cases hcluster : ∃ i, name i = cluster
    · obtain ⟨i, rfl⟩ := hcluster
      rw [view_drain_interleaving hname hown hl i rfl, view_drain_interleaving hname hown hl' i rfl]
    · have hother : ∀ i, name i ≠ cluster := fun i hi => hcluster ⟨i, hi⟩
      rw [view_drain_other hown hl hother, view_drain_other hown hl' hother]
  rw [drain_eq, drain_eq] at hcache ⊢
  exact Prod.ext hcache rfl

end

/-- The order of the peers does not matter. Where any number of watchers have clusters of their
    own, two orders of arrival that keep the order of each watcher leave the same cache; the
    view of a cluster, and the answers about it, come from the messages of its own watcher. -/
theorem peers_order {ι : Type} (us : ι → List Update) (name : ι → Str)
    (hname : ∀ i j, name i = name j → i = j)
    (hsent : ∀ i, ∀ u ∈ us i, ∃ w : Watcher, w.cluster = some (name i) ∧ w.Sends u)
    {l l' : List Update} (hl : Interleaving us l) (hl' : Interleaving us l') (c : Cache) :
    drain l (c, []) = drain l' (c, []) ∧
      (∀ i (c₀ : Cache), c₀.view (name i) = c.view (name i) →
        (drain l (c, [])).1.view (name i) = (drain (us i) (c₀, [])).1.view (name i)) ∧
      (∀ i (c₀ : Cache), c₀.view (name i) = c.view (name i) →
        ∀ (s : Server) (msg out : List UInt8) (q : Query) (service : Str),
          parseQuery msg = .ok q → dot ∉ service →
          nameText q.qname = some (service ++ dot :: (name i ++ dot :: s.domain)) →
          s.cnames.lookup (service ++ dot :: (name i ++ dot :: s.domain)) = none →
            s.handle (drain l (c, [])).1 msg out = s.handle (drain (us i) (c₀, [])).1 msg out) := by
  -- a watcher sends nothing but its own cluster
  have hown : ∀ i, ∀ u ∈ us i, u.cluster = name i := by
    intro i u hu
    obtain ⟨w, hw, hsends⟩ := hsent i u hu
    exact hsends.cluster hw
  refine ⟨drain_interleaving hname hown hl hl' c,
    fun i c₀ hc => view_drain_interleaving hname hown hl i hc,
    fun i c₀ hc s msg out q service hq hdot hq' hcname => ?_⟩
  -- the two caches agree on the cluster that the question is about
  have hview := view_drain_interleaving hname hown hl i hc
  exact s.handle_congr hview hdot hq hq' hcname out

/-- The messages of two peers. -/
def twoPeers (a b : List Update) : Bool → List Update
  | true => a
  | false => b

/-- A view of the one cluster and a job of the other, in either order. -/
theorem peers_order_two :
    drain [.replace (str "a") Table.new, .set (str "b") (str "web") []] (Cache.new, []) =
      drain [.set (str "b") (str "web") [], .replace (str "a") Table.new] (Cache.new, []) :=
  (peers_order (twoPeers [.replace (str "a") Table.new] [.set (str "b") (str "web") []])
    (fun i => if i then str "a" else str "b") (by decide +kernel)
    (fun i u hu => by
      cases i with
      | true =>
        rw [List.mem_singleton.mp hu]
        exact ⟨{ Watcher.peer with cluster := some (str "a") }, rfl,
          .inl ⟨[], [], none, [], [], rfl⟩⟩
      | false =>
        rw [List.mem_singleton.mp hu]
        exact ⟨{ Watcher.peer with cluster := some (str "b") }, rfl,
          .inr ⟨str "web", ⟨[], []⟩, none, [], [], rfl⟩⟩)
    (@Interleaving.cons _ _ _ (twoPeers [] [.set (str "b") (str "web") []]) _ true _ rfl
      (by simp [twoPeers])
      (@Interleaving.cons _ _ _ (twoPeers [] []) _ false _ rfl (by simp [twoPeers])
        (.nil (by simp [twoPeers]))))
    (@Interleaving.cons _ _ _ (twoPeers [.replace (str "a") Table.new] []) _ false _ rfl
      (by simp [twoPeers])
      (@Interleaving.cons _ _ _ (twoPeers [] []) _ true _ rfl (by simp [twoPeers])
        (.nil (by simp [twoPeers]))))
    Cache.new).1

end HopDns

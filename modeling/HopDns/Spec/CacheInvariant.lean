import HopDns.Spec.AnswerCorrect
import HopDns.Spec.AskCorrect
import HopDns.Spec.Coalesce

/-!
# What holds of every cache

A cache is fed by the messages of any number of watchers, in any order. The names in it
are in lower case, as the server looks them up, and no list of addresses has a double:
both builders see to that, and a reply for a job of one cluster writes the list as it is.

## Key results

- `Watcher.Reachable.plain`: the name of the cluster a watcher knows
- `Fed.wellKept`: the invariant of every cache
- `fed_invariant`: no reply from such a cache holds an address twice
-/

namespace HopDns

open ForStd
open Reply (aRecord cnameRecord soaRecord)

/-- The name is in lower case, and no white space stands around it. -/
def Plain (name : Str) : Prop := lowercase name = name ∧ trim name = name

/-- The name of a job is in lower case, and its addresses are distinct. -/
def RowKept (job : Str) (ips : List Ipv4Addr) : Prop := lowercase job = job ∧ ips.Nodup

/-- What holds of a cache at all times. -/
structure Cache.WellKept (cache : Cache) : Prop where
  /-- the clusters are in strictly ascending order -/
  clusters : (cache.clusters.rows.map Prod.fst).Pairwise (· < ·)
  plain : ∀ row ∈ cache.clusters.rows, Plain row.1
  /-- the jobs of each cluster are in strictly ascending order -/
  jobs : ∀ row ∈ cache.clusters.rows, (row.2.rows.map Prod.fst).Pairwise (· < ·)
  rows : ∀ row ∈ cache.clusters.rows, row.2.Every RowKept

/-- The caches that messages of watchers lead to from an empty one, whatever the order of the
    messages, the watchers they are of, and the answers of the allocator. -/
inductive Fed : Cache → Prop where
  | new : Fed Cache.new
  | apply {cache cache' : Cache} {w : Watcher} {u : Update} {mem mem' : Mem}
      {result : Except Error Unit} (h : Fed cache) (hw : w.Reachable) (hu : w.Sends u)
      (happly : u.apply.run (cache, mem) = (result, cache', mem')) : Fed cache'

/-! ## The names of the clusters -/

/-- The name a watcher makes of what `/v1/status` says. -/
private theorem plain_lowercase_trim (name : Str) : Plain (lowercase (trim name)) :=
  ⟨lowercase_idem _, trim_eq_self (leadingSpace_lowercase (leadingSpace_trim name))
    (trailingSpace_lowercase (trailingSpace_trim name))⟩

namespace Watcher

/-- A call leaves the cluster alone, or sets it to a plain name. -/
private theorem cluster_after (w : Watcher) (call : Call) :
    (w.after call).cluster = w.cluster ∨ ∃ c, (w.after call).cluster = some c ∧ Plain c := by
  -- only the answer to the status call sets the name
  cases call with
  | next now => exact .inl (w.next_frame now).1
  | event now ev => exact .inl (w.cluster_hears now ev)
  | discovered now name =>
    simp only [after, learns]
    split
    · exact .inl rfl
    · exact .inr ⟨_, rfl, plain_lowercase_trim name⟩
  | discoverFailed now => exact .inl rfl
  | lost => exact .inl rfl
  | refreshedFull agents tasks here => exact .inl rfl
  | refreshedJob job status here => exact .inl rfl
  | refreshFailed now what => exact .inl rfl

/-- The name of the cluster a watcher knows is plain. -/
theorem Reachable.plain {w : Watcher} (h : w.Reachable) : ∀ c, w.cluster = some c → Plain c := by
  -- no name is known at the start
  have hinit : ∀ w, Fresh w → ∀ c, w.cluster = some c → Plain c := by
    intro w hw c hc
    obtain ⟨endpoint, interval, rfl⟩ := hw.exists_eq
    cases hc
  -- a step keeps the name, or sets one that was cleaned up
  have hstep : ∀ w call w', (∀ c, w.cluster = some c → Plain c) → Step w call w' →
      ∀ c, w'.cluster = some c → Plain c := by
    intro w call w' hw hstep c hc
    obtain rfl | rfl := (step_cases hstep).1
    · obtain hcluster | ⟨c', hc', hplain⟩ := w.cluster_after call.1
      · exact hw c (hcluster.symm.trans hc)
      · obtain rfl := Option.some.inj (hc'.symm.trans hc)
        exact hplain
    · exact hw c hc
  exact ForStd.Reachable.invariant hinit hstep h

end Watcher

/-! ## The messages -/

/-- The view of a report is well kept. -/
private theorem every_viewOf (agents : List AgentInfo) (tasks : List AgentTasks)
    (here : Option Local) : (viewOf agents tasks here).Every RowKept := by
  refine Table.every_iff.mpr fun job ips hget => ?_
  rw [get_viewOf] at hget
  split at hget
  · cases hget
  · rename_i hne
    obtain rfl := Option.some.inj hget
    -- the name is that of a task, in lower case
    obtain ⟨ip, hip⟩ := List.exists_mem_of_ne_nil _ hne
    obtain ⟨e, -, rfl, -⟩ := mem_addresses.mp hip
    exact ⟨lowercase_idem _, nodup_addresses agents tasks here _⟩

/-! ## The caches -/

/-- The row of a cluster in a cache that is well kept. -/
def ClusterKept (cluster : Str) (jobs : Jobs) : Prop := Plain cluster ∧ jobs.Every RowKept

/-- A message of a watcher keeps the rows of a cache. -/
private theorem Watcher.Sends.every_applied {w : Watcher} (hw : w.Reachable) {u : Update}
    (hu : w.Sends u) {cache : Cache} (h : cache.clusters.Every ClusterKept) :
    (Update.applied cache u).clusters.Every ClusterKept := by
  obtain ⟨c, hc, ⟨agents, tasks, here, rfl⟩ | ⟨agents, tasks, here, job, rfl⟩⟩ := hu.eq
  · exact h.put ⟨hw.plain c hc, every_viewOf agents tasks here⟩
  · have hbefore : ((cache.view c).getD Table.new).Every RowKept := by
      cases hview : cache.view c with
      | none => exact Table.Every.new _
      | some jobs => exact (Table.every_iff.mp h c jobs hview).2
    exact h.put ⟨hw.plain c hc,
      hbefore.put ⟨lowercase_idem job, nodup_addresses agents tasks here _⟩⟩

/-- Whatever messages have filled the cache, every cluster in it is as a watcher leaves it. -/
private theorem Fed.every {cache : Cache} (h : Fed cache) : cache.clusters.Every ClusterKept := by
  induction h with
  | new => exact Table.Every.new _
  | @apply cache cache' w u mem mem' result _ hw hu happly ih =>
    have hstate := (Update.apply_commits cache u).state mem
    rw [happly] at hstate
    obtain rfl | rfl : cache' = Update.applied cache u ∨ cache' = cache := hstate
    · exact hu.every_applied hw ih
    · -- the message was dropped
      exact ih

/-- The keys of a table are in strictly ascending order. -/
private theorem Table.keys_ascending {V : Type} (t : Table V) : (t.rows.map Prod.fst).Pairwise
    (· < ·) :=
  List.pairwise_map.mpr t.sorted

/-- Every cache is well kept. -/
theorem Fed.wellKept {cache : Cache} (h : Fed cache) : cache.WellKept where
  clusters := cache.clusters.keys_ascending
  plain := fun row hrow => (h.every row hrow).1
  jobs := fun row _ => row.2.keys_ascending
  rows := fun row hrow => (h.every row hrow).2

/-! ## The replies -/

/-- The A records of a message, in all of its sections. -/
def addressRecords (m : Dns.Message) : List Dns.Record :=
  (m.answers ++ m.authority ++ m.additional).filter fun rr => rr.rtype = rtype.A

/-- The addresses a server finds in a well-kept cache are distinct, also those of one cluster,
    which are written as they are. -/
theorem Cache.WellKept.nodup_addresses {cache : Cache} (h : cache.WellKept) (s : Server)
    (name : Str) : ((s.lookup cache name).addresses cache).Nodup := by
  -- the addresses of one cluster are a row of its table
  have hrow : ∀ cluster job, ((cache.getCluster cluster job).getD []).Nodup := by
    intro cluster job
    rw [Cache.getCluster_eq]
    cases hview : cache.view cluster with
    | none => exact List.nodup_nil
    | some jobs =>
      have hjobs : jobs.Every RowKept :=
        h.rows (cluster, jobs) (SortedRows.mem_of_lookup
          ((cache.clusters.get_eq_lookup cluster).symm.trans hview))
      rw [Option.bind_some]
      cases hget : jobs.get job with
      | none => exact List.nodup_nil
      | some ips => exact (Table.every_iff.mp hjobs job ips hget).2
  -- no cluster, one cluster, or all of them
  unfold Server.lookup
  split
  · exact List.nodup_nil
  · simp only
    split
    · exact hrow _ _
    · exact List.nodup_eraseDups _

/-- The addresses of a verdict are distinct. -/
private theorem Cache.WellKept.nodup_verdict {cache : Cache} (h : cache.WellKept) {s : Server}
    {q : Query} {n : Dns.Name} (hn : q.Asks n) {known : Bool} {ips : List Ipv4Addr} {zone : Str}
    (hverdict : s.verdict cache q = .zone known ips zone) : ips.Nodup := by
  obtain ⟨t, -, -, ⟨-, all, hnames, hips⟩ | ⟨-, rfl, -, -⟩⟩ := Server.verdict_eq_zone hn hverdict
  · obtain ⟨-, -, rfl⟩ := Server.names_iff.mp hnames
    obtain rfl | rfl := hips
    · exact h.nodup_addresses s t
    · exact List.nodup_nil
  · exact List.nodup_nil

/-- The OPT record is no A record. -/
private theorem addressRecords_message (d : Draft) : addressRecords d.message =
    (d.message.answers ++ d.message.authority).filter fun rr => rr.rtype = rtype.A := by
  have hopt : d.message.additional.filter (fun rr => rr.rtype = rtype.A) = [] := by
    simp only [Draft.message, Draft.additional]
    split
    · decide
    · rfl
  rw [addressRecords, List.filter_append, hopt, List.append_nil]

/-- A draft without records has no addresses, whatever its code. -/
private theorem addressRecords_withRcode {d : Draft} (hempty : d.records = []) (rcode : Rcode) :
    addressRecords (d.withRcode rcode).message = [] := by
  obtain ⟨-, hanswers, hauthority⟩ := message_withRcode hempty rcode
  rw [addressRecords_message, hanswers, hauthority]
  rfl

/-- A record of another type is no address. -/
private theorem addressRecords_add {d : Draft} (hempty : d.records = []) (sec : Section)
    {rr : Dns.Record} (hrr : rr.rtype ≠ rtype.A) : addressRecords (d.add sec rr).message = [] := by
  obtain ⟨-, hanswers, hauthority⟩ := message_add hempty sec rr
  rw [addressRecords_message, hanswers, hauthority]
  cases sec <;> simp [hrr]

/-- The A records of a reply are those of the addresses of the verdict that fit. -/
theorem addressRecords_render {d : Draft} (hempty : d.records = []) (limit : Nat) (v : Verdict) :
    addressRecords (d.render limit v).message = [] ∨ ∃ known ips zone, v = .zone known ips zone ∧
      addressRecords (d.render limit v).message =
        (d.fitting limit ips).map fun ip => aRecord ip TTL := by
  -- everything but the addresses of a zone leaves the answers without any
  obtain ⟨d₀, hd₀, hcases⟩ | ⟨known, ips, zone, hv, heq⟩ := d.render_cases limit v
  · have hempty₀ : d₀.records = [] := by obtain rfl | rfl := hd₀ <;> exact hempty
    refine .inl ?_
    obtain ⟨rcode, heq⟩ | ⟨sec, rr, -, hrr, heq⟩ := hcases
    · rw [heq, addressRecords_withRcode hempty₀]
    · rw [heq, addressRecords_add hempty₀ sec hrr]
  -- the addresses go in as they are, one record each
  · refine .inr ⟨known, ips, zone, hv, ?_⟩
    obtain ⟨-, hanswers, hauthority⟩ :=
      message_addAnswers hempty ((d.fitting limit ips).map fun ip => aRecord ip TTL)
    rw [heq, addressRecords_message, hanswers, hauthority, List.append_nil]
    refine List.filter_eq_self.mpr fun rr hrr => ?_
    obtain ⟨ip, -, rfl⟩ := List.mem_map.mp hrr
    rfl

/-- Every cache that watchers feed is well kept, and no reply from it holds the same A record
    twice: its A records have distinct addresses. -/
theorem fed_invariant {cache : Cache} (h : Fed cache) : cache.WellKept ∧
    ∀ (s : Server) (msg out : List UInt8) (len : Nat), (s.handle cache msg out).1 = some len →
      ∃ m, Dns.Message.read ((s.handle cache msg out).2.take len) = some m ∧
        ((addressRecords m).map Dns.Record.rdata).Nodup := by
  refine ⟨h.wellKept, fun s msg out len hlen => ?_⟩
  obtain ⟨d, hd, hread⟩ := Server.exists_message hlen
  refine ⟨_, hread, ?_⟩
  -- the bare replies hold no records at all
  cases hd with
  | @answer q n hq hn hfits =>
    obtain hnone | ⟨known, ips, zone, hverdict, hrecords⟩ :=
      addressRecords_render (d := Reply.startDraft q n) rfl (Server.replyLimit q out)
        (s.verdict cache q)
    · rw [Server.replyDraft, hnone]
      exact List.nodup_nil
    · have hips : ips.Nodup := h.wellKept.nodup_verdict hn hverdict
      have hfit : ((Reply.startDraft q n).fitting (Server.replyLimit q out) ips).Nodup :=
        hips.sublist (List.take_sublist _ _)
      rw [Server.replyDraft, hrecords, List.map_map, List.Nodup, List.pairwise_map]
      -- different addresses have different octets
      exact hfit.imp fun hne hdata => hne (octets_inj hdata)
  | bare hq hout => exact List.nodup_nil

/-- The cache after one report of one cluster. -/
def oneCluster : Cache :=
  Update.applied Cache.new
    (.replace (str "prod") (viewOf Server.oneReport.agents Server.oneReport.tasks none))

/-- The one cluster was filled by a watcher. -/
private theorem oneCluster_fed : Fed oneCluster := by
  have hcluster : Watcher.known.cluster = some (str "prod") := by decide +kernel
  exact .apply .new Watcher.known_reachable
    (.inl ⟨_, _, none, [], [], (Watcher.refreshedFull_yields hcluster _ _ none).ample⟩)
    (Update.apply_commits Cache.new _).ample

/-- A job of one cluster is asked for. -/
theorem fed_invariant_oneCluster : oneCluster.WellKept ∧
    ∃ m, Dns.Message.read (((⟨DEFAULT_DOMAIN, CNAMEs.default⟩ : Server).handle oneCluster
        (queryFor Server.webName rtype.A) (List.replicate 1232 0)).2.take 63) = some m ∧
      ((addressRecords m).map Dns.Record.rdata).Nodup := by
  obtain ⟨hkept, hreply⟩ := fed_invariant oneCluster_fed
  exact ⟨hkept, hreply ⟨DEFAULT_DOMAIN, CNAMEs.default⟩ (queryFor Server.webName rtype.A)
    (List.replicate 1232 0) 63 (by decide +kernel)⟩

end HopDns

import HopDns.Spec.HandleCorrect

/-!
# The shape of every reply

What holds of a reply whatever the question and the cache: its size, its structure,
and that it owes nothing to what the buffer held before.

## Key results

- `Server.handle_shape`: a reply is one complete message within its limit
- `Server.handle_stale`: a reply depends on the length of the buffer only
-/

namespace HopDns

namespace Server

/-- The shape of a reply of `len` bytes to the datagram `msg`: the question of the datagram,
    byte for byte, where it has one, and an OPT record where it has one. -/
def Shaped (msg : List UInt8) (len : Nat) (m : Dns.Message) : Prop :=
  match parseQuery msg with
  | .ok q =>
    len ≤ limitFor q.edns ∧ m.questions.length = 1 ∧
      m.questions.flatMap Dns.Question.bytes = q.question ∧
        m.additional = if q.edns.isSome then [Draft.opt] else []
  | .error _ => len ≤ UDP_MAX ∧ m.questions = [] ∧ m.additional = []

/-- A reply lies within the buffer and within what the asker takes, and it is one complete
    message: the question section is the asker's question, and the last record is an OPT
    record exactly when the question spoke EDNS. -/
theorem handle_shape (s : Server) (cache : Cache) (msg out : List UInt8) (len : Nat)
    (h : (s.handle cache msg out).1 = some len) :
    (s.handle cache msg out).2.length = out.length ∧ len ≤ out.length ∧
      ∃ m, Dns.Message.read ((s.handle cache msg out).2.take len) = some m ∧ Shaped msg len m := by
  obtain ⟨d, hd, rfl, htake, hsize⟩ := exists_drafted h
  have hlen := congrArg List.length htake
  rw [List.length_take, hsize] at hlen
  have hread := (congrArg Dns.Message.read htake).trans hd.sound.read_closed
  refine ⟨hsize, by omega, d.message, hread, ?_⟩
  unfold Shaped
  cases hd with
  | @answer q n hq hn hfits =>
    obtain ⟨-, -, -, -, hle⟩ := handle_ok s cache hq hn hfits
    -- the records of the verdict leave the question and EDNS alone
    obtain ⟨-, hquestion, hedns⟩ :=
      Draft.render_frame (Reply.startDraft q n) (replyLimit q out) (s.verdict cache q)
    have hmin : replyLimit q out ≤ limitFor q.edns := Nat.min_le_left _ _
    rw [hq]
    refine ⟨by omega, ?_, ?_, ?_⟩
    · simp only [Draft.message, replyDraft, hquestion]
      rfl
    · simp only [Draft.message, replyDraft, hquestion, hn.question]
      exact List.append_nil _
    · simp only [Draft.message, Draft.additional, replyDraft, hedns]
      rfl
  | @bare id flags rcode hq _ =>
    have hbare : (Reply.bareDraft id flags rcode).closed.length = HEADER_LEN := rfl
    rw [hq]
    refine ⟨?_, rfl, rfl⟩
    rw [hbare]
    decide

/-- `hop.local` -/
def hopLocal : Dns.Name := ⟨[str "hop", str "local"], by decide, by decide⟩

/-- The domain itself has no address: the reply is the SOA record and the OPT record. -/
theorem handle_shape_apex :
    ∃ m, Dns.Message.read
        (((⟨DEFAULT_DOMAIN, CNAMEs.default⟩ : Server).handle Cache.new (queryFor hopLocal rtype.A)
          (List.replicate 600 0)).2.take 115) = some m ∧
      Shaped (queryFor hopLocal rtype.A) 115 m :=
  (handle_shape ⟨DEFAULT_DOMAIN, CNAMEs.default⟩ Cache.new (queryFor hopLocal rtype.A)
    (List.replicate 600 0) 115 (by decide +kernel)).2.2

/-- Buffers of equal length give the same reply, whatever they held before. -/
theorem handle_stale (s : Server) (cache : Cache) (msg out out' : List UInt8)
    (hsize : out.length = out'.length) :
    (s.handle cache msg out).1 = (s.handle cache msg out').1 ∧
      ∀ len, (s.handle cache msg out).1 = some len →
        (s.handle cache msg out).2.take len = (s.handle cache msg out').2.take len := by
  apply handle_of_drafted
  intro d
  exact ⟨fun h => h.of_length_eq hsize, fun h => h.of_length_eq hsize.symm⟩

/-- The buffer that was used before changes nothing in the reply at the apex. -/
theorem handle_stale_apex :
    ((⟨DEFAULT_DOMAIN, CNAMEs.default⟩ : Server).handle Cache.new (queryFor hopLocal rtype.A)
        (List.replicate 600 0)).2.take 115 =
      ((⟨DEFAULT_DOMAIN, CNAMEs.default⟩ : Server).handle Cache.new (queryFor hopLocal rtype.A)
        (List.replicate 600 0xFF)).2.take 115 :=
  (handle_stale ⟨DEFAULT_DOMAIN, CNAMEs.default⟩ Cache.new (queryFor hopLocal rtype.A)
    (List.replicate 600 0) (List.replicate 600 0xFF)
    (List.length_replicate.trans List.length_replicate.symm)).2 115 (by decide +kernel)

end Server

end HopDns

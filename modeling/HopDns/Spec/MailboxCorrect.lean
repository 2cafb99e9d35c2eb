import Mathlib.Data.Fintype.Card
import HopDns.Spec.DaemonCorrect

/-!
# The mailbox of HopOS

The mailbox `UPDATES` is small, and a watcher waits while it is full. Nothing is lost by
that, and nobody waits for ever: no watcher is more than one message ahead of the mailbox,
and what is held back gets into the cache in a number of steps that depends on the number
of peers only.

## Key results

- `Daemon.Level.step`: the mailbox keeps its size
- `Daemon.deliveries_end`: posting and taking come to an end, and only when all is delivered
-/

namespace HopDns

open ForStd

namespace Daemon

variable {ι α : Type} [DecidableEq ι]

/-- The step brings a message nearer to the cache. -/
def Act.Delivers : Act ι α → Prop
  | .post _ _ => True
  | .take _ => True
  | _ => False

/-- The mailbox holds no more than it has room for, no watcher is more than one message ahead of
    it, and `serve` goes on. -/
structure Level (d : Daemon ι) : Prop where
  bus : d.bus.length ≤ 16
  posted : ∀ i, d.posted i ≤ (d.loops i).sent.length
  held : ∀ i, (d.loops i).sent.length ≤ d.posted i + 1
  stand : d.stand ≠ .ended

omit [DecidableEq ι] in
/-- A daemon that starts has an empty mailbox, and nobody waits for it. -/
private theorem Initial.level {d : Daemon ι} (h : d.Initial .hopos) : d.Level where
  bus := by rw [h.bus]; decide
  posted := fun i => by rw [h.posted i]; exact Nat.zero_le _
  held := fun i => by
    obtain ⟨-, -, -, -, hsent⟩ := h.loops i
    rw [hsent]
    exact Nat.zero_le _
  stand := by rw [h.stand]; decide

/-- The steps of HopOS keep the mailbox at its size. -/
theorem Level.step {d d' : Daemon ι} {act : Act ι α} (h : d.Level)
    (hstep : Step .hopos d act d') : d'.Level := by
  -- a message lies with its watcher, in the mailbox, or it is with the owner
  cases hstep with
  | @peer l i act hheld hstep =>
    obtain ⟨u, hu⟩ := hstep.sent
    -- one step of a watcher makes one message at most
    have hone : u.toList.length ≤ 1 := by cases u <;> simp
    have hloop : ∀ j, d.posted j ≤ (Function.update d.loops i l j).sent.length ∧
        (Function.update d.loops i l j).sent.length ≤ d.posted j + 1 := by
      intro j
      by_cases hj : j = i
      · subst hj
        rw [Function.update_self, hu, List.length_append]
        omega
      · rw [Function.update_of_ne hj]
        exact ⟨h.posted j, h.held j⟩
    exact ⟨h.bus, fun j => (hloop j).1, fun j => (hloop j).2, h.stand⟩
  | post i u hheld hroom =>
    -- the message that the watcher holds is its one and only
    have hlt := (List.getElem?_eq_some_iff.mp hheld).1
    have hsize : d.bus.length < 16 := hroom
    have hpost : ∀ j, Function.update d.posted i (d.posted i + 1) j ≤ (d.loops j).sent.length ∧
        (d.loops j).sent.length ≤ Function.update d.posted i (d.posted i + 1) j + 1 := by
      intro j
      by_cases hj : j = i
      · subst hj
        have := h.held j
        rw [Function.update_self]
        omega
      · rw [Function.update_of_ne hj]
        exact ⟨h.posted j, h.held j⟩
    refine ⟨?_, fun j => (hpost j).1, fun j => (hpost j).2, h.stand⟩
    simp only [List.length_append, List.length_singleton]
    omega
  | take u rest hbus hstand =>
    have hlen := h.bus
    rw [hbus, List.length_cons] at hlen
    exact ⟨Nat.le_of_succ_le hlen, h.posted, h.held, fun hended => by cases hended⟩
  | empty hbus hstand => exact ⟨h.bus, h.posted, h.held, fun hended => by cases hended⟩
  | question asker datagram hstand =>
    exact ⟨h.bus, h.posted, h.held, fun hended => by cases hended⟩
  | quiet hstand => exact ⟨h.bus, h.posted, h.held, fun hended => by cases hended⟩
  | failed hp hstand => cases hp

/-- The watchers that hold a message back. -/
def holders [Fintype ι] (d : Daemon ι) : Finset ι :=
  Finset.univ.filter fun i => d.posted i < (d.loops i).sent.length

/-- The steps that what is held back is away from the cache. -/
def backlog [Fintype ι] (d : Daemon ι) : Nat := 2 * d.holders.card + d.bus.length

/-- A step that delivers makes the way shorter. -/
private theorem Level.backlog_lt [Fintype ι] {d d' : Daemon ι} {act : Act ι α} (h : d.Level)
    (hstep : Step .hopos d act d') (hdelivers : act.Delivers) : d'.backlog < d.backlog := by
  -- one step nearer to the owner, either from a watcher or from the mailbox
  cases hstep with
  | post i u hheld hroom =>
    have hlt := (List.getElem?_eq_some_iff.mp hheld).1
    have hmem : i ∈ d.holders := Finset.mem_filter.mpr ⟨Finset.mem_univ i, hlt⟩
    -- a watcher holds no more than the one message
    have hholders : Daemon.holders
        { d with bus := d.bus ++ [u], posted := Function.update d.posted i (d.posted i + 1) } =
          d.holders.erase i := by
      ext j
      simp only [holders, Finset.mem_filter, Finset.mem_univ, true_and, Finset.mem_erase]
      by_cases hj : j = i
      · subst hj
        have := h.held j
        simp only [Function.update_self, ne_eq, not_true_eq_false, false_and, iff_false]
        omega
      · simp only [Function.update_of_ne hj, ne_eq, hj, not_false_eq_true, true_and]
    have hcard := Finset.card_erase_of_mem hmem
    have hpos : 0 < d.holders.card := Finset.card_pos.mpr ⟨i, hmem⟩
    simp only [backlog, hholders, List.length_append, List.length_singleton]
    omega
  | take u rest hbus hstand =>
    simp only [backlog, holders, hbus, List.length_cons]
    omega
  | _ => exact hdelivers.elim

/-- Where no step can deliver, all is delivered. -/
theorem Level.delivered {d : Daemon ι} (h : d.Level)
    (hstuck : ∀ (act : Act ι α) d', act.Delivers → ¬Step .hopos d act d') :
    d.bus = [] ∧ ∀ i, d.posted i = (d.loops i).sent.length := by
  -- a message in the mailbox could be taken
  have hbus : d.bus = [] := by
    cases hd : d.bus with
    | nil => rfl
    | cons u rest =>
      -- `serve` takes messages wherever it stands
      have htakes : Platform.hopos.Takes d.stand := by
        cases hs : d.stand with
        | ended => exact absurd hs h.stand
        | draining => trivial
        | receiving => trivial
      exact absurd (.take u rest hd htakes) (hstuck (.take u) _ trivial)
  refine ⟨hbus, fun i => ?_⟩
  have hle := h.posted i
  -- a message with a watcher could be posted
  cases hnext : (d.loops i).sent[d.posted i]? with
  | none =>
    have := List.getElem?_eq_none_iff.mp hnext
    omega
  | some u =>
    -- there is room in an empty mailbox
    have hroom : Platform.hopos.HasRoom d.bus := by
      rw [hbus]
      decide
    exact absurd (.post i u hnext hroom) (hstuck (.post i u) _ trivial)

/-- Posting and taking leave the loops alone. -/
private theorem loops_deliveries {p : Platform} {d d' : Daemon ι} {deliveries : List (Act ι α)}
    (hrun : Run (Step p) d deliveries d') (hall : ∀ act ∈ deliveries, act.Delivers) :
    d'.loops = d.loops := by
  refine Run.keepsWhile (I := fun e => e.loops = d.loops) ?_ hrun hall rfl
  intro e act e' he hdelivers hstep
  cases hstep with
  | post i u hheld hroom => exact he
  | take u rest hbus hstand => exact he
  | _ => exact hdelivers.elim

omit [DecidableEq ι] in
/-- When nothing is on its way, the cache comes from all messages that were sent. -/
theorem Follows.delivered {s : Server} {mem : Mem} {d : Daemon ι} {k : Ledger}
    (h : Follows s mem d k) (hbus : d.bus = [])
    (hposted : ∀ i, d.posted i = (d.loops i).sent.length) :
    ∃ l, Interleaving (fun i => (d.loops i).sent) l ∧
      (d.owner.cache, d.owner.mem) = drain l (Cache.new, mem) := by
  refine ⟨k.log, ?_, ?_⟩
  · have harrived := h.arrived
    simp only [hposted, List.take_length] at harrived
    exact harrived
  · have hdrop := List.drop_eq_nil_iff.mp (h.bus.symm.trans hbus)
    rw [h.store, Ledger.store, List.take_of_length_le hdrop]

/-- The mailbox delivers. Wherever a run of HopOS has led, the mailbox holds at most 16 messages
    and each watcher holds back at most one; posting and taking, in any order, end after at most
    two steps for each peer and 16 more; and where they cannot go on, every message that was
    sent was drained into the cache, in the order of its peer. So no watcher waits for ever for the
    mailbox, and nothing is lost in it; what `drain` drops is what finds no memory. -/
theorem deliveries_end [Fintype ι] {d₀ d d' : Daemon ι} {acts deliveries : List (Act ι α)}
    (h₀ : d₀.Initial .hopos) (hrun : Run (Step .hopos) d₀ acts d)
    (hdeliveries : Run (Step .hopos) d deliveries d') (hall : ∀ act ∈ deliveries, act.Delivers) :
    d.bus.length ≤ 16 ∧ (∀ i, (d.loops i).sent.length ≤ d.posted i + 1) ∧
      deliveries.length ≤ 2 * Fintype.card ι + 16 ∧
      ((∀ (act : Act ι α) d'', act.Delivers → ¬Step .hopos d' act d'') →
        ∃ l, Interleaving (fun i => (d.loops i).sent) l ∧
          (d'.owner.cache, d'.owner.mem) = drain l (Cache.new, d₀.owner.mem)) := by
  have hkeep : ∀ e (act : Act ι α) e', Level e → Step .hopos e act e' → Level e' :=
    fun _ _ _ h hstep => h.step hstep
  have hlevel : d.Level := hrun.keeps hkeep h₀.level
  refine ⟨hlevel.bus, hlevel.held, ?_, fun hstuck => ?_⟩
  · -- every step makes the way shorter, and it is no longer than this at the start
    have hlower : ∀ e (act : Act ι α) e', Level e → act.Delivers → Step .hopos e act e' →
        e'.backlog < e.backlog := fun _ _ _ h hdelivers hstep => h.backlog_lt hstep hdelivers
    have hlen := hdeliveries.length_le_while hkeep hlower hall hlevel
    have hholders : d.holders.card ≤ Fintype.card ι := Finset.card_le_univ _
    have hbus := hlevel.bus
    unfold backlog at hlen
    omega
  -- at the end nothing is on its way
  · have hlevel' : d'.Level := hdeliveries.keeps hkeep hlevel
    obtain ⟨hbus, hposted⟩ := hlevel'.delivered hstuck
    obtain ⟨k, h, -⟩ := Follows.exists_log h₀ (hrun.append hdeliveries)
    rw [← loops_deliveries hdeliveries hall]
    exact h.delivered hbus hposted

/-- The message of the one peer is posted and taken, and then nothing is on its way. -/
theorem deliveries_end_taken :
    ∃ l, Interleaving (fun _ : Unit => fetched.sent) l ∧
      ((taken .hopos).owner.cache, (taken .hopos).owner.mem) = drain l (Cache.new, []) := by
  -- nothing can be posted or taken after this run
  have hdone : ∀ (act : Act Unit Unit) d, act.Delivers → ¬Step .hopos (taken .hopos) act d := by
    intro act d hdelivers hstep
    generalize hd : taken .hopos = e at hstep
    cases hstep with
    | post i u hheld hroom =>
      subst hd
      rw [show ((taken .hopos).loops i).sent = [webUpdate] from fetched_sent] at hheld
      cases hheld
    | take u rest hbus hstand =>
      subst hd
      cases hbus
    | _ => exact hdelivers
  have hall : ∀ act ∈ ([.post () webUpdate, .take webUpdate] : List (Act Unit Unit)),
      act.Delivers := by
    intro act hact
    obtain rfl | hact := List.mem_cons.mp hact
    · trivial
    · obtain rfl := List.mem_singleton.mp hact
      trivial
  exact (deliveries_end (alone_initial .hopos) (fetches_run .hopos) (taken_run .hopos) hall).2.2.2
    hdone

end Daemon

end HopDns

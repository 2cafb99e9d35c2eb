import HopDns.ForStd.Slice

/-!
# Domain names on the wire

A domain name (RFC 1035 §3.1) is a list of labels. On the wire each label follows
its length, and the empty label ends the name.

## Key results

- `Dns.wire_inj`: a name on the wire gives back its labels
- `Dns.Name`: the names a message may hold
-/

namespace Dns

/-- A label as a name may have it. -/
def LegalLabel (l : List UInt8) : Prop := 0 < l.length ∧ l.length ≤ 63

instance (l : List UInt8) : Decidable (LegalLabel l) := inferInstanceAs (Decidable (_ ∧ _))

/-- Labels as a name may have them. -/
def Legal (labels : List (List UInt8)) : Prop := ∀ l ∈ labels, LegalLabel l

instance (labels : List (List UInt8)) : Decidable (Legal labels) :=
  inferInstanceAs (Decidable (∀ l ∈ labels, LegalLabel l))

/-- A label on the wire. -/
def labelBytes (l : List UInt8) : List UInt8 := UInt8.ofNat l.length :: l

/-- A name on the wire. -/
def wire (labels : List (List UInt8)) : List UInt8 := labels.flatMap labelBytes ++ [0]

@[simp] theorem length_labelBytes (l : List UInt8) : (labelBytes l).length = l.length + 1 := rfl

@[simp] theorem wire_nil : wire [] = [0] := rfl

/-- The first label stands at the front. -/
theorem wire_cons (l : List UInt8) (labels : List (List UInt8)) :
    wire (l :: labels) = labelBytes l ++ wire labels := by
  rw [wire, List.flatMap_cons, List.append_assoc, wire]

/-- The labels of the front stand before the rest of the name. -/
theorem wire_append (labels labels' : List (List UInt8)) :
    wire (labels ++ labels') = labels.flatMap labelBytes ++ wire labels' := by
  rw [wire, List.flatMap_append, List.append_assoc, wire]

/-- The length of a name, label by label. -/
theorem length_wire_cons (l : List UInt8) (labels : List (List UInt8)) :
    (wire (l :: labels)).length = l.length + 1 + (wire labels).length := by
  rw [wire_cons, List.length_append, length_labelBytes]

/-- Even the root takes a byte. -/
theorem length_wire_pos (labels : List (List UInt8)) : 0 < (wire labels).length := by
  rw [wire, List.length_append, List.length_singleton]
  omega

theorem legal_nil : Legal [] := fun _ hl => nomatch hl

/-- The first label of a legal name is legal. -/
theorem Legal.head {l : List UInt8} {labels : List (List UInt8)} (h : Legal (l :: labels)) :
    LegalLabel l := h l List.mem_cons_self

/-- What stands behind it is legal. -/
theorem Legal.tail {l : List UInt8} {labels : List (List UInt8)} (h : Legal (l :: labels)) :
    Legal labels := fun l' hl' => h l' (List.mem_cons_of_mem l hl')

/-- A legal label may stand before a legal name. -/
theorem Legal.cons {l : List UInt8} {labels : List (List UInt8)} (hl : LegalLabel l)
    (h : Legal labels) : Legal (l :: labels) := List.forall_mem_cons.mpr ⟨hl, h⟩

/-- Legal names may stand behind one another. -/
theorem Legal.append {labels labels' : List (List UInt8)} (h : Legal labels)
    (h' : Legal labels') : Legal (labels ++ labels') :=
  fun l hl => (List.mem_append.mp hl).elim (h l) (h' l)

/-- The length byte of a legal label says its length. -/
theorem LegalLabel.toNat_ofNat {l : List UInt8} (h : LegalLabel l) :
    (UInt8.ofNat l.length).toNat = l.length := by
  obtain ⟨-, h⟩ := h
  rw [UInt8.toNat_ofNat']
  omega

/-- A name on the wire gives back its labels. -/
theorem wire_append_inj {labels labels' : List (List UInt8)} {rest rest' : List UInt8}
    (h : Legal labels) (h' : Legal labels')
    (heq : wire labels ++ rest = wire labels' ++ rest') : labels = labels' ∧ rest = rest' := by
  induction labels generalizing labels' with
  | nil =>
    cases labels' with
    | nil => exact ⟨rfl, List.append_cancel_left heq⟩
    | cons l labels' =>
      -- the first byte is zero on one side only
      rw [wire_cons, labelBytes] at heq
      have hb : 0 = UInt8.ofNat l.length := (List.cons.inj heq).1
      have := congrArg UInt8.toNat hb
      rw [h'.head.toNat_ofNat] at this
      exact absurd this.symm (Nat.pos_iff_ne_zero.mp h'.head.1)
  | cons l labels ih =>
    cases labels' with
    | nil =>
      rw [wire_cons, labelBytes] at heq
      have hb : UInt8.ofNat l.length = 0 := (List.cons.inj heq).1
      have := congrArg UInt8.toNat hb
      rw [h.head.toNat_ofNat] at this
      exact absurd this (Nat.pos_iff_ne_zero.mp h.head.1)
    | cons l' labels' =>
      rw [wire_cons, wire_cons, labelBytes, labelBytes, List.append_assoc, List.append_assoc,
        List.cons_append, List.cons_append] at heq
      obtain ⟨hb, htail⟩ := List.cons.inj heq
      -- the same length byte, so the two labels end at the same place
      have hlen : l.length = l'.length := by
        rw [← h.head.toNat_ofNat, hb, h'.head.toNat_ofNat]
      obtain ⟨rfl, hwire⟩ := List.append_inj htail hlen
      obtain ⟨rfl, hrest⟩ := ih h.tail h'.tail hwire
      exact ⟨rfl, hrest⟩

/-- Different labels are different on the wire. -/
theorem wire_inj {labels labels' : List (List UInt8)} (h : Legal labels) (h' : Legal labels')
    (heq : wire labels = wire labels') : labels = labels' :=
  (wire_append_inj h h' (congrArg (· ++ []) heq)).1

/-- A name a message may hold: legal labels, at most 255 bytes on the wire. -/
structure Name where
  labels : List (List UInt8)
  legal : Legal labels
  fits : (wire labels).length ≤ 255
deriving DecidableEq

/-- The name on the wire. -/
def Name.wire (n : Name) : List UInt8 := Dns.wire n.labels

/-- The name of these labels, if a message may hold it. -/
def Name.ofLabels? (labels : List (List UInt8)) : Option Name :=
  if h : Legal labels ∧ (Dns.wire labels).length ≤ 255 then some ⟨labels, h.1, h.2⟩ else none

/-- There is a name of the labels exactly when a message may hold them. -/
theorem Name.ofLabels?_eq_some {labels : List (List UInt8)} {n : Name} :
    Name.ofLabels? labels = some n ↔ n.labels = labels := by
  unfold Name.ofLabels?
  constructor
  · intro h
    split at h
    · rw [← Option.some.inj h]
    · exact nomatch h
  · rintro rfl
    rw [dif_pos ⟨n.legal, n.fits⟩]

/-- Different names are different on the wire. -/
theorem Name.wire_inj {n n' : Name} (h : n.wire = n'.wire) : n = n' := by
  have := Dns.wire_inj n.legal n'.legal h
  cases n
  cases n'
  congr

theorem Name.length_wire_le (n : Name) : n.wire.length ≤ 255 := n.fits

end Dns

import HopDns.ForStd.DnsMessage

/-!
# Names with pointers

A name in a message may end in a pointer to an earlier place (RFC 1035 §4.1.4), and goes on
with the name that is there. Where every pointer goes back no name goes round.

## Key results

- `NameAt.exists_bytes`: what stands at the place itself
-/

namespace Dns

/-- The place that the two bytes of a pointer name, in 14 bits. -/
def pointerTarget (b₀ b₁ : UInt8) : Nat := b₀.toNat % 64 * 256 + b₁.toNat

/-- The name at a place of a message, which is read on where its pointers lead. -/
inductive NameAt (msg : List UInt8) : Nat → List (List UInt8) → Prop
  | root {pos : Nat} (h : msg[pos]? = some 0) : NameAt msg pos []
  | label {pos : Nat} {l : List UInt8} {labels : List (List UInt8)} (hl : LegalLabel l)
      (hat : msg.HasAt pos (labelBytes l)) (h : NameAt msg (pos + (labelBytes l).length) labels) :
      NameAt msg pos (l :: labels)
  | pointer {pos : Nat} {b₀ b₁ : UInt8} {labels : List (List UInt8)}
      (hat : msg.HasAt pos [b₀, b₁]) (hptr : 0xC0 ≤ b₀.toNat) (hback : pointerTarget b₀ b₁ < pos)
      (h : NameAt msg (pointerTarget b₀ b₁) labels) : NameAt msg pos labels

namespace NameAt

variable {msg : List UInt8} {pos : Nat} {labels : List (List UInt8)}

/-- At the place itself stand labels, up to the end of the name or to its first pointer. -/
theorem exists_bytes (h : NameAt msg pos labels) :
    ∃ owner, NameBytes owner ∧ msg.HasAt pos owner := by
  induction h with
  | root h => exact ⟨[0], .root, List.hasAt_cons.mpr ⟨h, List.hasAt_nil _ _⟩⟩
  | @label pos l labels hl hat _ ih =>
    obtain ⟨owner, howner, hrest⟩ := ih
    exact ⟨labelBytes l ++ owner, .label l hl howner, List.hasAt_append.mpr ⟨hat, hrest⟩⟩
  | @pointer pos b₀ b₁ labels hat hptr _ _ _ => exact ⟨[b₀, b₁], .pointer b₀ b₁ hptr, hat⟩

end NameAt

end Dns

/-!
# Big-endian numbers

The bytes of a 16- and a 32-bit word, high byte first, and the words back from
their bytes.
-/

/-- The bytes of `v`, high byte first. -/
def UInt16.toBytesBE (v : UInt16) : List UInt8 :=
  [UInt8.ofNat (v.toNat / 256), UInt8.ofNat v.toNat]

/-- The word of two bytes, high byte first. -/
def UInt16.ofBytesBE (b₀ b₁ : UInt8) : UInt16 :=
  UInt16.ofNat (b₀.toNat * 256 + b₁.toNat)

/-- The bytes of `v`, high byte first. -/
def UInt32.toBytesBE (v : UInt32) : List UInt8 :=
  [UInt8.ofNat (v.toNat / 16777216), UInt8.ofNat (v.toNat / 65536), UInt8.ofNat (v.toNat / 256),
    UInt8.ofNat v.toNat]

/-- The word of four bytes, high byte first. -/
def UInt32.ofBytesBE (b₀ b₁ b₂ b₃ : UInt8) : UInt32 :=
  UInt32.ofNat (b₀.toNat * 16777216 + b₁.toNat * 65536 + b₂.toNat * 256 + b₃.toNat)

/-- A number of 16 bits takes two bytes. -/
@[simp] theorem UInt16.length_toBytesBE (v : UInt16) : v.toBytesBE.length = 2 := rfl

/-- A number of 32 bits takes four bytes. -/
@[simp] theorem UInt32.length_toBytesBE (v : UInt32) : v.toBytesBE.length = 4 := rfl

/-- A 16-bit word read back from its bytes. -/
theorem UInt16.ofBytesBE_toBytesBE (v : UInt16) :
    UInt16.ofBytesBE (UInt8.ofNat (v.toNat / 256)) (UInt8.ofNat v.toNat) = v := by
  apply UInt16.toNat_inj.mp
  have := v.toNat_lt
  simp only [UInt16.ofBytesBE, UInt16.toNat_ofNat', UInt8.toNat_ofNat']
  omega

/-- A 32-bit word read back from its bytes. -/
theorem UInt32.ofBytesBE_toBytesBE (v : UInt32) :
    UInt32.ofBytesBE (UInt8.ofNat (v.toNat / 16777216)) (UInt8.ofNat (v.toNat / 65536))
      (UInt8.ofNat (v.toNat / 256)) (UInt8.ofNat v.toNat) = v := by
  apply UInt32.toNat_inj.mp
  have := v.toNat_lt
  simp only [UInt32.ofBytesBE, UInt32.toNat_ofNat', UInt8.toNat_ofNat']
  omega

/-- Two bytes read back from the word they form. -/
theorem UInt16.toBytesBE_ofBytesBE (b₀ b₁ : UInt8) :
    (UInt16.ofBytesBE b₀ b₁).toBytesBE = [b₀, b₁] := by
  have h₀ := b₀.toNat_lt
  have h₁ := b₁.toNat_lt
  simp only [UInt16.toBytesBE, UInt16.ofBytesBE, UInt16.toNat_ofNat', List.cons.injEq, and_true,
    ← UInt8.toNat_inj, UInt8.toNat_ofNat']
  omega

/-- Four bytes read back from the word they form. -/
theorem UInt32.toBytesBE_ofBytesBE (b₀ b₁ b₂ b₃ : UInt8) :
    (UInt32.ofBytesBE b₀ b₁ b₂ b₃).toBytesBE = [b₀, b₁, b₂, b₃] := by
  have h₀ := b₀.toNat_lt
  have h₁ := b₁.toNat_lt
  have h₂ := b₂.toNat_lt
  have h₃ := b₃.toNat_lt
  simp only [UInt32.toBytesBE, UInt32.ofBytesBE, UInt32.toNat_ofNat', List.cons.injEq, and_true,
    ← UInt8.toNat_inj, UInt8.toNat_ofNat']
  omega

/-- Any four bytes are those of a word. -/
theorem UInt32.exists_toBytesBE {bs : List UInt8} (h : bs.length = 4) :
    ∃ v : UInt32, v.toBytesBE = bs := by
  match bs, h with
  | [b₀, b₁, b₂, b₃], _ => exact ⟨_, UInt32.toBytesBE_ofBytesBE b₀ b₁ b₂ b₃⟩

/-- A mask of two words together. -/
theorem UInt16.or_and_distrib (a b c : UInt16) : (a ||| b) &&& c = (a &&& c) ||| (b &&& c) := by
  apply UInt16.toBitVec_inj.mp
  simp only [UInt16.toBitVec_and, UInt16.toBitVec_or]
  ext i hi
  simp [Bool.and_or_distrib_right]

/-!
# Ranges of a list

Reading and overwriting a range of a list that stands for a buffer, both with
the bounds check of a slice access: outside the buffer there is no result.

## Key results

- `take_setRange?`: after a write at the end of a known part, the known part has
  grown by what was written
- `hasAt_append`, `hasAt_cons`: what a list has at a position, part by part
-/

namespace List

/-- The elements of `l` at `[i, j)`, if that range lies within `l`. -/
def getRange? (l : List α) (i j : Nat) : Option (List α) :=
  if i ≤ j ∧ j ≤ l.length then some ((l.take j).drop i) else none

/-- `l` with the elements from `i` on overwritten by `xs`, if they lie within `l`. -/
def setRange? (l : List α) (i : Nat) (xs : List α) : Option (List α) :=
  if i + xs.length ≤ l.length then some (l.take i ++ xs ++ l.drop (i + xs.length)) else none

/-! ## Reading -/

/-- A range that is there lies in the list. -/
private theorem getRange?_eq_some {l xs : List α} {i j : Nat} (h : l.getRange? i j = some xs) :
    i ≤ j ∧ j ≤ l.length ∧ xs = (l.take j).drop i := by
  simp only [getRange?] at h
  split at h
  · rename_i hle
    exact ⟨hle.1, hle.2, (Option.some.inj h).symm⟩
  · exact nomatch h

theorem getRange?_of_le {l : List α} {i j : Nat} (hij : i ≤ j) (hj : j ≤ l.length) :
    l.getRange? i j = some ((l.take j).drop i) := by
  simp only [getRange?, hij, hj, and_self, if_true]

/-- A range is as long as its bounds are apart. -/
theorem length_getRange? {l xs : List α} {i j : Nat} (h : l.getRange? i j = some xs) :
    xs.length = j - i := by
  obtain ⟨_, hj, rfl⟩ := getRange?_eq_some h
  rw [length_drop, length_take, Nat.min_eq_left hj]

/-! ## Overwriting -/

/-- What is written over a range lies in the list, and the rest is as it was. -/
theorem setRange?_eq_some {l l' xs : List α} {i : Nat} (h : l.setRange? i xs = some l') :
    i + xs.length ≤ l.length ∧ l' = l.take i ++ xs ++ l.drop (i + xs.length) := by
  simp only [setRange?] at h
  split at h
  · rename_i hle
    exact ⟨hle, (Option.some.inj h).symm⟩
  · exact nomatch h

theorem setRange?_of_le {l : List α} {i : Nat} (xs : List α) (h : i + xs.length ≤ l.length) :
    l.setRange? i xs = some (l.take i ++ xs ++ l.drop (i + xs.length)) := by
  simp only [setRange?, h, if_true]

/-- A write keeps the length of the buffer. -/
theorem length_setRange? {l l' xs : List α} {i : Nat} (h : l.setRange? i xs = some l') :
    l'.length = l.length := by
  obtain ⟨hle, rfl⟩ := setRange?_eq_some h
  simp only [length_append, length_take, length_drop]
  omega

/-- A write at the end of a known part makes the known part longer by what was written. -/
theorem take_setRange? {l l' xs : List α} {i : Nat} (h : l.setRange? i xs = some l') :
    l'.take (i + xs.length) = l.take i ++ xs := by
  obtain ⟨hle, rfl⟩ := setRange?_eq_some h
  exact take_left' (by rw [length_append, length_take]; omega)

/-- A write within a known part is the same write in that part alone. -/
theorem take_setRange?_within {l l' xs : List α} {i k : Nat} (h : l.setRange? i xs = some l')
    (hk : i + xs.length ≤ k) (hkl : k ≤ l.length) :
    l'.take k = (l.take k).take i ++ xs ++ (l.take k).drop (i + xs.length) := by
  obtain ⟨hle, rfl⟩ := setRange?_eq_some h
  have hlen : (l.take i ++ xs).length = i + xs.length := by
    rw [length_append, length_take]; omega
  obtain ⟨n, rfl⟩ : ∃ n, k = i + xs.length + n := ⟨k - (i + xs.length), by omega⟩
  rw [take_append, hlen, take_of_length_le (by omega), take_take,
    Nat.min_eq_left (by omega), drop_take]

/-- Two writes, the second where the first ends, are one. -/
theorem setRange?_append (l : List α) (i : Nat) (xs ys : List α) :
    l.setRange? i (xs ++ ys) =
      (l.setRange? i xs).bind fun l' => l'.setRange? (i + xs.length) ys := by
  simp only [setRange?, length_append]
  by_cases hxs : i + xs.length ≤ l.length
  · rw [if_pos hxs, Option.bind_some]
    have hlen : (l.take i ++ xs).length = i + xs.length := by
      rw [length_append, length_take]
      omega
    have hlen' : (l.take i ++ xs ++ l.drop (i + xs.length)).length = l.length := by
      rw [length_append, hlen, length_drop]
      omega
    have hdrop : (l.take i ++ xs).drop (i + xs.length + ys.length) = [] :=
      drop_of_length_le (by omega)
    -- the second slice starts where the first one ended
    rw [hlen', take_left' hlen, drop_append, hlen, hdrop, drop_drop]
    by_cases hys : i + (xs.length + ys.length) ≤ l.length
    · rw [if_pos hys, if_pos (by omega), nil_append,
        show i + xs.length + (i + xs.length + ys.length - (i + xs.length)) =
          i + (xs.length + ys.length) by omega]
      simp only [append_assoc]
    · rw [if_neg hys, if_neg (by omega)]
  -- what has no room for the first has none for both
  · rw [if_neg hxs, if_neg (by omega), Option.bind_none]

/-! ## What a list has at a position -/

/-- From `pos` on, `l` has the elements `xs`. -/
def HasAt (l : List α) (pos : Nat) (xs : List α) : Prop := xs <+: l.drop pos

@[simp] theorem hasAt_nil (l : List α) (pos : Nat) : l.HasAt pos [] := nil_prefix

/-- The first item stands at the place, and the others behind it. -/
theorem hasAt_cons {l xs : List α} {pos : Nat} {a : α} :
    l.HasAt pos (a :: xs) ↔ l[pos]? = some a ∧ l.HasAt (pos + 1) xs := by
  unfold HasAt
  rw [← tail_drop, ← head?_drop]
  cases l.drop pos with
  | nil => simp
  | cons b rest => simp [cons_prefix_cons, eq_comm]

/-- Two lists stand behind one another. -/
theorem hasAt_append {l xs ys : List α} {pos : Nat} :
    l.HasAt pos (xs ++ ys) ↔ l.HasAt pos xs ∧ l.HasAt (pos + xs.length) ys := by
  induction xs generalizing pos with
  | nil => simp
  | cons a xs ih =>
    rw [cons_append, hasAt_cons, hasAt_cons, ih, length_cons, and_assoc,
      show pos + 1 + xs.length = pos + (xs.length + 1) by omega]

/-- The middle of three appended lists stands at its place. -/
theorem hasAt_middle (before xs after : List α) :
    (before ++ (xs ++ after)).HasAt before.length xs := by
  unfold HasAt
  rw [drop_left' rfl]
  exact prefix_append xs after

/-- Where a list has something, it reaches. -/
theorem HasAt.lt {l xs : List α} {pos : Nat} (h : l.HasAt pos xs) (hxs : xs ≠ []) :
    pos < l.length := by
  cases xs with
  | nil => exact absurd rfl hxs
  | cons a xs => exact (getElem?_eq_some_iff.mp (hasAt_cons.mp h).1).1

/-- What stands in a list ends within it. -/
theorem HasAt.length_le {l xs : List α} {pos : Nat} (h : l.HasAt pos xs) (hpos : pos ≤ l.length) :
    pos + xs.length ≤ l.length := by
  have hle : xs.length ≤ (l.drop pos).length := IsPrefix.length_le h
  rw [length_drop] at hle
  omega

/-- What stands at a position, element by element. -/
theorem HasAt.getElem? {l xs : List α} {pos i : Nat} (h : l.HasAt pos xs) (hi : i < xs.length) :
    l[pos + i]? = xs[i]? := by
  obtain ⟨rest, hrest⟩ := h
  rw [← getElem?_drop, ← hrest, getElem?_append_left hi]

/-- A range that can be read is what stands there. -/
theorem getRange?_eq_some_iff {l xs : List α} {i j : Nat} :
    l.getRange? i j = some xs ↔ j = i + xs.length ∧ j ≤ l.length ∧ l.HasAt i xs := by
  constructor
  · intro h
    have hlen := length_getRange? h
    obtain ⟨hij, hj, rfl⟩ := getRange?_eq_some h
    refine ⟨by omega, hj, ?_⟩
    unfold HasAt
    rw [drop_take]
    exact take_prefix _ _
  · intro h'
    obtain ⟨rfl, hj, h⟩ := h'
    rw [getRange?_of_le (Nat.le_add_right _ _) hj, drop_take, Nat.add_sub_cancel_left]
    exact congrArg some (prefix_iff_eq_take.mp h).symm

/-- What stands at the start of the rest of a list cut off at `k` stands in the list. -/
theorem HasAt.of_take {l xs : List α} {pos k : Nat} (h : (l.take k).HasAt pos xs) :
    l.HasAt pos xs := by
  unfold HasAt at h ⊢
  rw [drop_take] at h
  exact IsPrefix.trans h ( take_prefix _ _)

end List

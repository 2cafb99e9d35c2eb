/-!
# First occurrences

`List.eraseDups` keeps the first occurrence of each element. A loop that carries the
elements it kept, and drops what is among them, computes it.

## Key results

- `newTo_cons`: one turn of such a loop
- `newTo_append`, `newTo_of_nodup`: the loop over one list after another
- `foldl_pushNew`: the loop that pushes what is new
- `nodup_eraseDups`: what is left has no doubles
-/

namespace List

variable {α : Type} [BEq α] [LawfulBEq α]

/-- The elements of `l` that are not in `seen`, each one once. -/
def newTo (seen l : List α) : List α := (l.filter fun a => !seen.contains a).eraseDups

omit [LawfulBEq α] in
@[simp] theorem newTo_nil (seen : List α) : newTo seen [] = [] := rfl

/-- Where nothing was seen, every element is new once. -/
theorem newTo_eraseDups (l : List α) : newTo [] l = l.eraseDups := by
  rw [newTo, filter_eq_self.mpr fun a _ => by simp]

/-- One turn of a loop that carries what it has seen. -/
theorem newTo_cons (seen : List α) (a : α) (l : List α) :
    newTo seen (a :: l) = if seen.contains a then newTo seen l else a :: newTo (seen ++ [a]) l := by
  unfold newTo
  by_cases h : seen.contains a = true
  · rw [if_pos h, filter_cons_of_neg (by simpa using h)]
  · rw [if_neg h, filter_cons_of_pos (by simpa using h), eraseDups_cons, filter_filter]
    congr 3
    funext b
    by_cases hb : b = a <;> simp [hb]

/-- The loop that pushes what is new. -/
theorem foldl_pushNew (out l : List α) :
    l.foldl (fun out a => if out.contains a then out else out ++ [a]) out = out ++ newTo out l := by
  induction l generalizing out with
  | nil => rw [foldl_nil, newTo_nil, append_nil]
  | cons a l ih =>
    rw [foldl_cons, newTo_cons]
    split
    · rw [ih]
    · rw [ih, append_assoc, singleton_append]

theorem mem_newTo {seen l : List α} {a : α} : a ∈ newTo seen l ↔ a ∈ l ∧ a ∉ seen := by
  simp [newTo, mem_eraseDups]

/-- Only what was seen counts, in any order and number. -/
private theorem newTo_congr {seen seen' : List α} (h : ∀ a, a ∈ seen ↔ a ∈ seen') (l : List α) :
    newTo seen l = newTo seen' l := by
  have hcontains : ∀ a, seen.contains a = seen'.contains a := fun a => by
    rw [Bool.eq_iff_iff, contains_iff_mem, contains_iff_mem, h]
  simp only [newTo, hcontains]

/-- What is new in two lists in a row. -/
theorem newTo_append (seen l l' : List α) :
    newTo seen (l ++ l') = newTo seen l ++ newTo (seen ++ l) l' := by
  induction l generalizing seen with
  | nil => rw [nil_append, newTo_nil, nil_append, append_nil]
  | cons a l ih =>
    rw [cons_append, newTo_cons, newTo_cons]
    split
    · rename_i hseen
      have ha : a ∈ seen := by simpa using hseen
      have hsame : ∀ b, b ∈ seen ++ l ↔ b ∈ seen ++ a :: l := fun b => by
        by_cases hb : b = a <;> simp [hb, ha]
      rw [ih, newTo_congr hsame l']
    · rw [ih, append_assoc, singleton_append, cons_append]

/-- What is new in a list without doubles. -/
theorem newTo_of_nodup {l : List α} (h : l.Nodup) (seen : List α) :
    newTo seen l = l.filter fun a => !seen.contains a := by
  induction l generalizing seen with
  | nil => rfl
  | cons a l ih =>
    obtain ⟨ha, hl⟩ := nodup_cons.mp h
    rw [newTo_cons, filter_cons]
    by_cases hseen : seen.contains a = true
    · rw [if_pos hseen, ih hl, if_neg (by simpa using hseen)]
    · rw [if_neg hseen, ih hl, if_pos (by simpa using hseen)]
      congr 1
      refine filter_congr fun b hb => ?_
      have hne : b ≠ a := fun heq => ha (heq ▸ hb)
      simp [hne]

/-- What is left has no doubles. -/
theorem nodup_newTo (seen l : List α) : (newTo seen l).Nodup := by
  induction l generalizing seen with
  | nil => exact nodup_nil
  | cons a l ih =>
    rw [newTo_cons]
    split
    · exact ih seen
    · exact nodup_cons.mpr ⟨fun h => (mem_newTo.mp h).2 (by simp), ih _⟩

omit [LawfulBEq α] in
/-- Something is left of a list that is not empty. -/
theorem eraseDups_eq_nil {l : List α} : l.eraseDups = [] ↔ l = [] := by
  cases l <;> simp [eraseDups_cons]

theorem nodup_eraseDups (l : List α) : l.eraseDups.Nodup := newTo_eraseDups l ▸ nodup_newTo [] l

/-- One element more at the end is dropped when it was there already. -/
theorem eraseDups_concat (l : List α) (a : α) :
    (l ++ [a]).eraseDups = if a ∈ l then l.eraseDups else l.eraseDups ++ [a] := by
  rw [eraseDups_append]
  by_cases h : a ∈ l <;> simp [removeAll, h, eraseDups_cons]

end List

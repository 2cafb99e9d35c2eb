/-!
# Lists cut at a separator

`splitOnce` cuts a list at the first separator; `List.splitOn` cuts it at all of
them, and `List.intercalate` puts the parts together again. The lemmas here say
how the three work together on a list of parts none of which holds the separator.

## Key results

- `splitOnce_eq_some`: what a cut says about the list
- `rsplitOnce_append`, `splitOnceSeq_append`: the cuts at the last separator, and at one of
  several elements
- `exists_of_intercalate_eq`: a separator in parts put together stands between two of them
- `not_mem_splitOn`: the parts of a list cut at all separators hold none
- `splitOn_flatMap`: parts that each end in a separator
- `ne_nil_of_splitOn`: without empty parts there is no separator at the end
-/

namespace List

variable {α : Type} [DecidableEq α]

/-- `l` before and after the first `sep`, if there is one. -/
def splitOnce (sep : α) : List α → Option (List α × List α)
  | [] => none
  | a :: rest =>
    if a = sep then some ([], rest)
    else (splitOnce sep rest).map fun cut => (a :: cut.1, cut.2)

/-- What lies before the first cut holds no separator, and the cut gives back the list. -/
theorem splitOnce_eq_some {sep : α} {l before after : List α}
    (h : l.splitOnce sep = some (before, after)) :
    l = before ++ sep :: after ∧ sep ∉ before := by
  induction l generalizing before with
  | nil => exact nomatch h
  | cons a rest ih =>
    simp only [splitOnce] at h
    split at h
    -- the separator comes first
    · rename_i ha
      obtain ⟨rfl, rfl⟩ := Prod.mk.inj (Option.some.inj h)
      exact ⟨by rw [ha]; rfl, not_mem_nil⟩
    · rename_i ha
      cases hr : rest.splitOnce sep with
      | none => rw [hr] at h; exact nomatch h
      | some cut =>
        obtain ⟨b, c⟩ := cut
        rw [hr] at h
        obtain ⟨rfl, rfl⟩ := Prod.mk.inj (Option.some.inj h)
        obtain ⟨rfl, hb⟩ := ih hr
        exact ⟨rfl, fun hmem => (mem_cons.mp hmem).elim (fun e => ha e.symm) hb⟩

/-- A list without the separator has no cut. -/
theorem splitOnce_eq_none {sep : α} {l : List α} (h : sep ∉ l) : l.splitOnce sep = none := by
  induction l with
  | nil => rfl
  | cons a rest ih =>
    rw [mem_cons, not_or] at h
    rw [splitOnce, if_neg fun e => h.1 e.symm, ih h.2]
    rfl

/-- Only a list without the separator has no cut. -/
theorem not_mem_of_splitOnce {sep : α} {l : List α} (h : l.splitOnce sep = none) : sep ∉ l := by
  induction l with
  | nil => exact not_mem_nil
  | cons a rest ih =>
    simp only [splitOnce] at h
    split at h
    · exact nomatch h
    · rename_i ha
      rw [mem_cons, not_or]
      exact ⟨fun e => ha e.symm, ih (Option.map_eq_none_iff.mp h)⟩

/-- The cut after a part without the separator. -/
theorem splitOnce_append {sep : α} {before : List α} (after : List α) (h : sep ∉ before) :
    (before ++ sep :: after).splitOnce sep = some (before, after) := by
  induction before with
  | nil => rw [nil_append, splitOnce, if_pos rfl]
  | cons a rest ih =>
    rw [mem_cons, not_or] at h
    rw [cons_append, splitOnce, if_neg fun e => h.1 e.symm, ih h.2]
    rfl

/-- `l` before and after the last `sep`, if there is one. -/
def rsplitOnce (sep : α) (l : List α) : Option (List α × List α) :=
  (l.reverse.splitOnce sep).map fun cut => (cut.2.reverse, cut.1.reverse)

theorem rsplitOnce_eq_none {sep : α} {l : List α} (h : sep ∉ l) : l.rsplitOnce sep = none := by
  rw [rsplitOnce, splitOnce_eq_none (by rwa [mem_reverse]), Option.map_none]

/-- The cut before a part without the separator. -/
theorem rsplitOnce_append {sep : α} (before : List α) {after : List α} (h : sep ∉ after) :
    (before ++ sep :: after).rsplitOnce sep = some (before, after) := by
  have hreverse : (before ++ sep :: after).reverse = after.reverse ++ sep :: before.reverse := by
    rw [reverse_append, reverse_cons, append_assoc, singleton_append]
  rw [rsplitOnce, hreverse, splitOnce_append _ (by rwa [mem_reverse]), Option.map_some,
    reverse_reverse, reverse_reverse]

/-- A list before and after the first place where it has `seq`, if there is one. -/
def splitOnceSeq : List α → List α → Option (List α × List α)
  | [], seq => if seq = [] then some ([], []) else none
  | a :: rest, seq =>
    if seq.isPrefixOf (a :: rest) then some ([], (a :: rest).drop seq.length)
    else (rest.splitOnceSeq seq).map fun cut => (a :: cut.1, cut.2)

/-- The cut after a part without the first element of `seq`. -/
theorem splitOnceSeq_append {a : α} {seq before : List α} (after : List α) (h : a ∉ before) :
    (before ++ (a :: seq ++ after)).splitOnceSeq (a :: seq) = some (before, after) := by
  induction before with
  | nil =>
    rw [nil_append, cons_append, splitOnceSeq, ← cons_append, if_pos (by simp), drop_left' rfl]
  | cons b rest ih =>
    rw [mem_cons, not_or] at h
    rw [cons_append, splitOnceSeq, if_neg (by simp [h.1]), ih h.2]
    rfl

/-! ## Parts put together -/

omit [DecidableEq α] in
/-- The first of several parts, the separator, and the others put together. -/
theorem intercalate_cons (sep : α) (part : List α) {parts : List (List α)} (h : parts ≠ []) :
    [sep].intercalate (part :: parts) = part ++ sep :: [sep].intercalate parts := by
  rw [intercalate_cons_of_ne_nil h, append_assoc, singleton_append]

omit [DecidableEq α] in
/-- Two nonempty runs of parts put together. -/
theorem intercalate_append (sep : α) {parts parts' : List (List α)} (h : parts ≠ [])
    (h' : parts' ≠ []) : [sep].intercalate (parts ++ parts') =
      [sep].intercalate parts ++ sep :: [sep].intercalate parts' := by
  induction parts with
  | nil => exact absurd rfl h
  | cons part rest ih =>
    cases rest with
    | nil => rw [singleton_append, intercalate_cons sep part h', intercalate_singleton]
    | cons second rest =>
      rw [cons_append, intercalate_cons sep part (by simp), ih (by simp),
        intercalate_cons sep part (by simp), append_assoc, cons_append]

omit [DecidableEq α] in
/-- An element of a part is an element of the parts put together. -/
theorem mem_intercalate {sep a : α} {parts : List (List α)} {part : List α} (hp : part ∈ parts)
    (ha : a ∈ part) : a ∈ [sep].intercalate parts := by
  induction parts with
  | nil => exact nomatch hp
  | cons head rest ih =>
    cases rest with
    | nil => rwa [intercalate_singleton, ← mem_singleton.mp hp]
    | cons second rest =>
      rw [intercalate_cons sep head (by simp), mem_append, mem_cons]
      obtain rfl | hp := mem_cons.mp hp
      · exact .inl ha
      · exact .inr (.inr (ih hp))

/-- The parts of a list cut at every separator hold none. -/
theorem not_mem_splitOn {sep : α} {l part : List α} (h : part ∈ l.splitOn sep) : sep ∉ part := by
  induction l generalizing part with
  | nil => rw [splitOn_nil, mem_singleton] at h; rw [h]; exact not_mem_nil
  | cons a rest ih =>
    rw [splitOn_cons_eq_if_modifyHead] at h
    split at h
    · obtain rfl | h := mem_cons.mp h
      · exact not_mem_nil
      · exact ih h
    · rename_i ha
      obtain ⟨first, others, heq⟩ := exists_cons_of_ne_nil (splitOn_ne_nil sep rest)
      rw [heq, modifyHead_cons] at h
      obtain rfl | h := mem_cons.mp h
      -- `a` joins the first part, and is no separator
      · have hfirst : sep ∉ first := ih (heq ▸ mem_cons_self)
        exact fun hmem => (mem_cons.mp hmem).elim (fun e => ha (beq_iff_eq.mpr e.symm)) hfirst
      · exact ih (heq ▸ mem_cons_of_mem _ h)

/-- Where parts put together have a separator, they are two runs of parts put together. -/
theorem exists_of_intercalate_eq {sep : α} {parts : List (List α)}
    (hparts : ∀ part ∈ parts, sep ∉ part) {before after : List α}
    (h : [sep].intercalate parts = before ++ sep :: after) :
    ∃ ps qs, parts = ps ++ qs ∧ ps ≠ [] ∧ qs ≠ [] ∧
      [sep].intercalate ps = before ∧ [sep].intercalate qs = after := by
  induction parts generalizing before with
  | nil =>
    rw [intercalate_nil] at h
    exact absurd h.symm (by simp)
  | cons part rest ih =>
    obtain ⟨hpart, hrest⟩ := forall_mem_cons.mp hparts
    cases rest with
    | nil =>
      -- a single part holds no separator
      rw [intercalate_singleton] at h
      exact absurd (h ▸ mem_append_right before mem_cons_self) hpart
    | cons second rest =>
      rw [intercalate_cons sep part (by simp)] at h
      by_cases hcut : sep ∈ before
      · -- the separator lies in the later parts
        obtain ⟨b, b', rfl, hb⟩ : ∃ b b', before = b ++ sep :: b' ∧ sep ∉ b := by
          cases hb : before.splitOnce sep with
          | none => exact absurd hcut (not_mem_of_splitOnce hb)
          | some cut => exact ⟨cut.1, cut.2, splitOnce_eq_some hb⟩
        rw [append_assoc, cons_append] at h
        have hcut := congrArg (splitOnce sep) h
        rw [splitOnce_append _ hpart, splitOnce_append _ hb] at hcut
        obtain ⟨rfl, hlater⟩ := Prod.mk.inj (Option.some.inj hcut)
        obtain ⟨ps, qs, heq, hps, hqs, rfl, rfl⟩ := ih hrest hlater
        refine ⟨part :: ps, qs, by rw [heq, cons_append], by simp, hqs, ?_, rfl⟩
        exact intercalate_cons sep part hps
      · -- the separator is the first one
        have hcut' := congrArg (splitOnce sep) h
        rw [splitOnce_append _ hpart, splitOnce_append _ hcut] at hcut'
        obtain ⟨rfl, rfl⟩ := Prod.mk.inj (Option.some.inj hcut')
        exact ⟨[part], second :: rest, rfl, by simp, by simp, intercalate_singleton, rfl⟩

/-- Where no part is empty, the list does not end in a separator. -/
theorem ne_nil_of_splitOn {sep : α} {before after : List α}
    (h : ∀ part ∈ (before ++ sep :: after).splitOn sep, part ≠ []) : after ≠ [] := by
  intro hnil
  have hparts : [sep].intercalate ((before ++ sep :: after).splitOn sep) = before ++ sep :: after :=
    intercalate_splitOn sep
  obtain ⟨ps, qs, heq, -, hqs, -, hafter⟩ :=
    exists_of_intercalate_eq (fun _ => not_mem_splitOn) hparts
  -- the part after it would be one without elements
  obtain ⟨part, hpart⟩ := exists_mem_of_ne_nil qs hqs
  obtain ⟨a, ha⟩ := exists_mem_of_ne_nil part (h part (heq ▸ mem_append_right ps hpart))
  have hmem : a ∈ [sep].intercalate qs := mem_intercalate hpart ha
  rw [hafter, hnil] at hmem
  exact not_mem_nil hmem

/-- Parts that each end in the separator are what the list is cut into, and nothing is behind
    the last of them. -/
theorem splitOn_flatMap {sep : α} {parts : List (List α)} (h : ∀ part ∈ parts, sep ∉ part) :
    (parts.flatMap (· ++ [sep])).splitOn sep = parts ++ [[]] := by
  have hparts : parts.flatMap (· ++ [sep]) = [sep].intercalate (parts ++ [[]]) := by
    clear h
    induction parts with
    | nil => rfl
    | cons part parts ih =>
      rw [flatMap_cons, ih, cons_append, intercalate_cons sep part (by simp), append_assoc,
        singleton_append]
  rw [hparts]
  refine splitOn_intercalate sep ?_ (by simp)
  intro part hpart
  obtain hpart | hpart := mem_append.mp hpart
  · exact h part hpart
  · rw [mem_singleton.mp hpart]
    exact not_mem_nil

end List

/-!
# Finite maps as sorted rows

A finite map kept as a list of rows in strictly ascending key order. The rows
are found by a binary search, whose answer (`search`) is all a map operation
needs: the index of the key, or the index where a row with that key belongs.

Reading (`lookup`) is defined on any list of rows. Sortedness makes it a
canonical form: rows with the same lookups are the same rows.

## Key results

- `search_eq`: the answer of the search is the only one there can be
- `search_ok` / `search_error`: what the two answers of the search say about `lookup`
- `insertIdx_eq_upsert`, `modify_eq_upsert`: both updates after a search are one `upsert`
- `lookup_upsert`, `lookup_eraseIdx`: what the updates do to the map
- `Sorted.ext`: sorted rows are determined by their lookups
-/

namespace SortedRows

variable {κ α : Type}

/-! ## Rows -/

section Lookup

variable [DecidableEq κ]

/-- The value in the first row with the key `key`. -/
def lookup (key : κ) : List (κ × α) → Option α
  | [] => none
  | (k, v) :: rest => if k = key then some v else lookup key rest

@[simp] theorem lookup_nil (key : κ) : lookup key ([] : List (κ × α)) = none := rfl

private theorem lookup_cons (key k : κ) (v : α) (rest : List (κ × α)) :
    lookup key ((k, v) :: rest) = if k = key then some v else lookup key rest := rfl

/-- A key no row has is not in the map. -/
private theorem lookup_eq_none {key : κ} {rows : List (κ × α)} (h : ∀ row ∈ rows, row.1 ≠ key) :
    lookup key rows = none := by
  induction rows with
  | nil => rfl
  | cons row rest ih =>
    obtain ⟨k, v⟩ := row
    rw [lookup_cons, if_neg (h _ List.mem_cons_self),
      ih fun row hr => h row (List.mem_cons_of_mem _ hr)]

/-- A row that is looked up is one of the rows. -/
theorem mem_of_lookup {key : κ} {v : α} {rows : List (κ × α)} (h : lookup key rows = some v) :
    (key, v) ∈ rows := by
  -- the induction is on the rows
  induction rows with
  | nil => exact nomatch h
  | cons row rest ih =>
    obtain ⟨k, u⟩ := row
    rw [lookup_cons] at h
    split at h
    · rename_i hk
      obtain rfl := Option.some.inj h
      rw [hk]
      exact List.mem_cons_self
    · exact List.mem_cons_of_mem _ (ih h)

end Lookup

section Sorted

variable [LT κ]

/-- The rows are in strictly ascending key order, so each key has at most one row. -/
def Sorted (rows : List (κ × α)) : Prop :=
  rows.Pairwise fun a b => a.1 < b.1

instance [DecidableLT κ] (rows : List (κ × α)) : Decidable (Sorted rows) :=
  inferInstanceAs (Decidable (rows.Pairwise fun a b => a.1 < b.1))

private theorem Sorted.head_lt {row : κ × α} {rest : List (κ × α)} (h : Sorted (row :: rest)) :
    ∀ r ∈ rest, row.1 < r.1 := (List.pairwise_cons.mp h).1

theorem Sorted.tail {row : κ × α} {rest : List (κ × α)} (h : Sorted (row :: rest)) :
    Sorted rest := (List.pairwise_cons.mp h).2

theorem Sorted.eraseIdx {rows : List (κ × α)} (hs : Sorted rows) (i : Nat) :
    Sorted (rows.eraseIdx i) := List.Pairwise.sublist (List.eraseIdx_sublist _ _) hs

end Sorted

/-! ## The search and the updates it leads to -/

section Search

variable [LT κ] [DecidableEq κ] [DecidableLT κ]

/-- A binary search for `key` in sorted rows: `.ok i` when row `i` has that key,
    `.error i` when none has and `i` is where such a row belongs. -/
def search (key : κ) :
    List (κ × α) → Except Nat Nat
  | [] => .error 0
  | (k, _) :: rest =>
    if k < key then
      match search key rest with
      | .ok i => .ok (i + 1)
      | .error i => .error (i + 1)
    else if k = key then .ok 0
    else .error 0

/-- Insert or overwrite by walking down the rows: what both updates after a search come to. -/
def upsert (key : κ) (value : α) :
    List (κ × α) → List (κ × α)
  | [] => [(key, value)]
  | (k, v) :: rest =>
    if k < key then (k, v) :: upsert key value rest
    else if k = key then (k, value) :: rest
    else (key, value) :: (k, v) :: rest

/-- Inserting at the place the search gives. -/
theorem insertIdx_eq_upsert {key : κ} {value : α} {rows : List (κ × α)} {i : Nat}
    (h : search key rows = .error i) : rows.insertIdx i (key, value) = upsert key value rows := by
  induction rows generalizing i with
  | nil => obtain rfl := Except.error.inj h; rfl
  | cons row rest ih =>
    obtain ⟨k, v⟩ := row
    simp only [search] at h
    simp only [upsert]
    -- behind this row, at it, or before it
    split at h
    -- the key lies behind this row
    · rename_i hlt
      cases hr : search key rest with
      | ok j => rw [hr] at h; exact nomatch h
      | error j =>
        rw [hr] at h
        obtain rfl := Except.error.inj h
        rw [if_pos hlt, List.insertIdx_succ_cons, ih hr]
    · rename_i hnlt
      split at h
      · exact nomatch h
      · rename_i hne
        obtain rfl := Except.error.inj h
        rw [if_neg hnlt, if_neg hne, List.insertIdx_zero]

/-- Overwriting the value of the row the search found. -/
theorem modify_eq_upsert {key : κ} {value : α} {rows : List (κ × α)} {i : Nat}
    (h : search key rows = .ok i) :
    rows.modify i (fun row => (row.1, value)) = upsert key value rows := by
  induction rows generalizing i with
  | nil => exact nomatch h
  | cons row rest ih =>
    obtain ⟨k, v⟩ := row
    simp only [search] at h
    simp only [upsert]
    -- the row before, or the row itself
    split at h
    -- the key lies behind this row
    · rename_i hlt
      cases hr : search key rest with
      | error j => rw [hr] at h; exact nomatch h
      | ok j =>
        rw [hr] at h
        obtain rfl := Except.ok.inj h
        rw [if_pos hlt, List.modify_succ_cons, ih hr]
    · rename_i hnlt
      split at h
      · rename_i hk
        obtain rfl := Except.ok.inj h
        rw [if_neg hnlt, if_pos hk, List.modify_zero_cons]
      · exact nomatch h

/-- A row after the update is an old one or has the new key. -/
private theorem mem_upsert_key {key : κ} {value : α} {rows : List (κ × α)} {row : κ × α}
    (h : row ∈ upsert key value rows) : row.1 = key ∨ row ∈ rows := by
  induction rows with
  | nil => exact .inl (by rw [List.mem_singleton.mp h])
  | cons head rest ih =>
    obtain ⟨k, v⟩ := head
    simp only [upsert] at h
    -- the key goes further back, into this row, or before it
    split at h
    · obtain rfl | h := List.mem_cons.mp h
      · exact .inr List.mem_cons_self
      · exact (ih h).imp_right (List.mem_cons_of_mem _)
    · split at h
      · rename_i hk
        obtain rfl | h := List.mem_cons.mp h
        · exact .inl hk
        · exact .inr (List.mem_cons_of_mem _ h)
      · obtain rfl | h := List.mem_cons.mp h
        · exact .inl rfl
        · exact .inr h

end Search

/-! ## The rows as a map -/

section Map

variable [LE κ] [LT κ] [Std.IsLinearOrder κ] [Std.LawfulOrderLT κ] [DecidableEq κ] [DecidableLT κ]

/-- A found row is the one the map has at the key. -/
theorem search_ok {key : κ} {rows : List (κ × α)} {i : Nat} (hs : Sorted rows)
    (h : search key rows = .ok i) : ∃ v, rows[i]? = some (key, v) ∧ lookup key rows = some v := by
  induction rows generalizing i with
  | nil => exact nomatch h
  | cons row rest ih =>
    obtain ⟨k, v⟩ := row
    simp only [search] at h
    -- the row lies before the key, has it, or lies behind it
    split at h
    -- the row found is a later one, and so is the one looked up
    · rename_i hlt
      cases hr : search key rest with
      | error j => rw [hr] at h; exact nomatch h
      | ok j =>
        rw [hr] at h
        obtain rfl := Except.ok.inj h
        obtain ⟨u, hu, hl⟩ := ih hs.tail hr
        have hne : k ≠ key := by grind
        exact ⟨u, hu, by rw [lookup_cons, if_neg hne, hl]⟩
    · split at h
      · rename_i hk
        obtain rfl := Except.ok.inj h
        exact ⟨v, by rw [hk]; rfl, by rw [lookup_cons, if_pos hk]⟩
      · exact nomatch h

/-- Where the search finds nothing, the map has nothing. -/
theorem search_error {key : κ} {rows : List (κ × α)} {i : Nat} (hs : Sorted rows)
    (h : search key rows = .error i) : lookup key rows = none := by
  induction rows generalizing i with
  | nil => rfl
  | cons row rest ih =>
    obtain ⟨k, v⟩ := row
    simp only [search] at h
    split at h
    · rename_i hlt
      cases hr : search key rest with
      | ok j => rw [hr] at h; exact nomatch h
      | error j =>
        have hne : k ≠ key := by grind
        rw [lookup_cons, if_neg hne, ih hs.tail hr]
    · split at h
      · exact nomatch h
      · rename_i hnlt hne
        -- the key would come before the first row, and all others come after that one
        have hall := hs.head_lt
        refine lookup_eq_none fun r hr => ?_
        obtain rfl | hr := List.mem_cons.mp hr
        · exact hne
        · have := hall r hr
          grind

/-- What a search for a key may answer: a row with that key, or the place behind all smaller
    keys and in front of all larger ones. -/
inductive Answer (key : κ) (rows : List (κ × α)) : Except Nat Nat → Prop
  | found {i : Nat} {v : α} (h : rows[i]? = some (key, v)) : Answer key rows (.ok i)
  | absent {before after : List (κ × α)} (h : rows = before ++ after)
      (hbefore : ∀ row ∈ before, row.1 < key) (hafter : ∀ row ∈ after, key < row.1) :
      Answer key rows (.error before.length)

/-- In sorted rows there is one answer, so it does not matter how it is searched for. -/
theorem search_eq {key : κ} {rows : List (κ × α)} {r : Except Nat Nat} (hs : Sorted rows)
    (h : Answer key rows r) : search key rows = r := by
  induction rows generalizing r with
  | nil =>
    cases h with
    | found h => cases h
    | absent h => rw [(List.append_eq_nil_iff.mp h.symm).1]; rfl
  | cons head rest ih =>
    obtain ⟨k, u⟩ := head
    have hlt := hs.head_lt
    rw [search]
    -- the first row has the key, or the key was found further back
    cases h with
    | @found i v h =>
      cases i with
      | zero =>
        obtain ⟨rfl, -⟩ := Prod.mk.inj (Option.some.inj h)
        rw [if_neg (by grind), if_pos rfl]
      | succ i =>
        rw [List.getElem?_cons_succ] at h
        have hk := hlt _ (List.mem_of_getElem? h)
        rw [if_pos hk, ih hs.tail (.found h)]
    -- the rows before the gap are passed one by one
    | @absent before after h hbefore hafter =>
      cases before with
      | nil =>
        have hk : key < k := hafter _ (h ▸ List.mem_cons_self)
        rw [if_neg (by grind), if_neg (by grind), List.length_nil]
      | cons b before =>
        obtain ⟨rfl, rfl⟩ := List.cons.inj h
        rw [if_pos (hbefore _ List.mem_cons_self),
          ih hs.tail (.absent rfl (fun row hrow => hbefore row (List.mem_cons_of_mem _ hrow))
            hafter),
          List.length_cons]

/-- Rows stay sorted with one more, or with another value. -/
theorem Sorted.upsert {key : κ} {value : α} {rows : List (κ × α)} (hs : Sorted rows) :
    Sorted (upsert key value rows) := by
  induction rows with
  | nil => exact List.pairwise_singleton _ _
  | cons head rest ih =>
    obtain ⟨k, v⟩ := head
    have hlt := hs.head_lt
    simp only [SortedRows.upsert]
    split
    -- the new row goes further back
    · rename_i hk
      refine List.pairwise_cons.mpr ⟨fun r hr => ?_, ih hs.tail⟩
      obtain rfl | hr := mem_upsert_key hr
      · exact hk
      · exact hlt r hr
    · split
      -- the row is replaced in its place
      · exact List.pairwise_cons.mpr ⟨hlt, hs.tail⟩
      · rename_i hnlt hne
        -- the new row comes first
        have hkey : key < k := by grind
        refine List.pairwise_cons.mpr ⟨fun r hr => ?_, hs⟩
        obtain rfl | hr := List.mem_cons.mp hr
        · exact hkey
        · have := hlt r hr
          grind

/-- The update sets its key and leaves every other. -/
theorem lookup_upsert {key k' : κ} {value : α} {rows : List (κ × α)} :
    lookup k' (upsert key value rows) = if k' = key then some value else lookup k' rows := by
  induction rows with
  | nil => simp only [upsert, lookup]; grind
  | cons head rest ih =>
    obtain ⟨k, v⟩ := head
    simp only [upsert]
    split
    · rw [lookup_cons, ih, lookup_cons]; grind
    · split <;> simp only [lookup_cons] <;> grind

/-- Overwriting a key that is there changes its row in place. -/
theorem exists_of_upsert {key : κ} {v : α} {rows : List (κ × α)} (hs : Sorted rows)
    (h : lookup key rows = some v) (value : α) :
    ∃ before after, rows = before ++ (key, v) :: after ∧
      upsert key value rows = before ++ (key, value) :: after := by
  induction rows with
  | nil => cases h
  | cons head rest ih =>
    obtain ⟨k, u⟩ := head
    have hlt := hs.head_lt
    rw [lookup_cons] at h
    simp only [SortedRows.upsert]
    -- the key lies behind, is here, or would have come before
    split
    · rename_i hk
      rw [if_neg (by grind)] at h
      obtain ⟨before, after, hrows, hupsert⟩ := ih hs.tail h
      exact ⟨(k, u) :: before, after, by rw [hrows]; rfl, by rw [hupsert]; rfl⟩
    · split
      · rename_i hk
        rw [if_pos hk] at h
        obtain rfl := Option.some.inj h
        exact ⟨[], rest, by rw [hk]; rfl, by rw [hk]; rfl⟩
      · -- the key would be below the first one, so no row has it
        rename_i hnlt hne
        rw [if_neg hne] at h
        have := hlt _ (mem_of_lookup h)
        grind

/-- Erasing the row the search found takes away its key and no other. -/
theorem lookup_eraseIdx {key k' : κ} {rows : List (κ × α)} {i : Nat} (hs : Sorted rows)
    (h : search key rows = .ok i) :
    lookup k' (rows.eraseIdx i) = if k' = key then none else lookup k' rows := by
  induction rows generalizing i with
  | nil => exact nomatch h
  | cons head rest ih =>
    obtain ⟨k, v⟩ := head
    have hlt := hs.head_lt
    simp only [search] at h
    split at h
    -- the row that goes is a later one
    · cases hr : search key rest with
      | error j => rw [hr] at h; exact nomatch h
      | ok j =>
        rw [hr] at h
        obtain rfl := Except.ok.inj h
        rw [List.eraseIdx_cons_succ, lookup_cons, ih hs.tail hr, lookup_cons]
        grind
    · split at h
      · rename_i hk
        obtain rfl := Except.ok.inj h
        rw [List.eraseIdx_cons_zero, lookup_cons]
        -- the first row goes, and no other has its key
        by_cases hk' : k' = key
        · rw [if_pos hk', hk']
          refine lookup_eq_none fun r hr => ?_
          have := hlt r hr
          grind
        · rw [if_neg hk', if_neg (by grind)]
      · exact nomatch h

end Map

/-! ## The canonical form -/

section Canonical

variable [LE κ] [LT κ] [Std.IsLinearOrder κ] [Std.LawfulOrderLT κ] [DecidableEq κ]

/-- The value of a row in sorted rows is what the map has at its key. -/
theorem Sorted.lookup_of_mem {key : κ} {v : α} {rows : List (κ × α)} (hs : Sorted rows)
    (h : (key, v) ∈ rows) : lookup key rows = some v := by
  induction rows with
  | nil => exact nomatch h
  | cons head rest ih =>
    obtain ⟨k, u⟩ := head
    rw [lookup_cons]
    obtain heq | h := List.mem_cons.mp h
    · obtain ⟨rfl, rfl⟩ := Prod.mk.inj heq
      rw [if_pos rfl]
    · have := hs.head_lt _ h
      rw [if_neg (by grind), ih hs.tail h]

/-- Sorted rows with the same lookups are the same rows. -/
theorem Sorted.ext {rows rows' : List (κ × α)} (hs : Sorted rows) (hs' : Sorted rows')
    (h : ∀ key, lookup key rows = lookup key rows') : rows = rows' := by
  -- the induction is on the first list, row against row
  induction rows generalizing rows' with
  | nil =>
    cases rows' with
    | nil => rfl
    | cons head rest =>
      have := h head.1
      rw [lookup_nil, lookup_cons, if_pos rfl] at this
      exact nomatch this
  | cons head rest ih =>
    obtain ⟨k, v⟩ := head
    cases rows' with
    | nil =>
      have := h k
      rw [lookup_nil, lookup_cons, if_pos rfl] at this
      exact nomatch this
    | cons head' rest' =>
      obtain ⟨k', v'⟩ := head'
      -- each head is a row of the other list, so neither key lies below the other
      have hk : k = k' := by
        have h₁ := mem_of_lookup ((h k).symm.trans (by rw [lookup_cons, if_pos rfl]))
        have h₂ := mem_of_lookup ((h k').trans (by rw [lookup_cons, if_pos rfl]))
        obtain h₁ | h₁ := List.mem_cons.mp h₁
        · exact (Prod.mk.inj h₁).1
        · obtain h₂ | h₂ := List.mem_cons.mp h₂
          · exact (Prod.mk.inj h₂).1.symm
          · have a := hs'.head_lt _ h₁
            have b := hs.head_lt _ h₂
            grind
      subst hk
      -- the first rows have the same value, and below them the lists agree as well
      have hv : v = v' := by
        have := h k
        rw [lookup_cons, lookup_cons, if_pos rfl, if_pos rfl] at this
        exact Option.some.inj this
      subst hv
      -- no later row has the first key
      have htail : ∀ key, lookup key rest = lookup key rest' := by
        intro key
        by_cases hkey : k = key
        · subst hkey
          have hl : lookup k rest = none :=
            lookup_eq_none fun r hr => by have := hs.head_lt r hr; grind
          have hl' : lookup k rest' = none :=
            lookup_eq_none fun r hr => by have := hs'.head_lt r hr; grind
          rw [hl, hl']
        · have := h key
          rwa [lookup_cons, lookup_cons, if_neg hkey, if_neg hkey] at this
      rw [ih hs.tail hs'.tail htail]

end Canonical

end SortedRows

import HopDns.ForStd.SortedRows
import HopDns.Native.Text

/-!
# The sorted table

`table::Table`: from text to value, as rows in ascending key order. The order of
the rows is a field of the structure, so a table out of order cannot be built.
-/

namespace HopDns

open ForStd
open SortedRows (Sorted lookup search upsert)

/-- A sorted table from key to value. -/
structure Table (V : Type) where
  rows : List (Str × V)
  sorted : Sorted rows
deriving DecidableEq

namespace Table

variable {V : Type}

/-- An empty table. -/
def new : Table V := ⟨[], List.Pairwise.nil⟩

instance : Inhabited (Table V) := ⟨new⟩

/-- The number of keys. -/
def len (t : Table V) : Nat := t.rows.length

/-- `rows.binary_search_by(|(k, _)| k.as_str().cmp(key))` -/
def find (t : Table V) (key : Str) : Except Nat Nat := search key t.rows

/-- The value at `key`. -/
def get (t : Table V) (key : Str) : Option V :=
  match t.find key with
  | .ok i => t.rows[i]?.map (·.2)
  | .error _ => none

/-- Whether `key` is in the table. -/
def containsKey (t : Table V) (key : Str) : Bool :=
  match t.find key with
  | .ok _ => true
  | .error _ => false

/-- The rows with the value of the row the search found overwritten. -/
private theorem sorted_modify {t : Table V} {key : Str} {i : Nat} (value : V)
    (h : t.find key = .ok i) : Sorted (t.rows.modify i fun row => (row.1, value)) :=
  SortedRows.modify_eq_upsert h ▸ t.sorted.upsert

/-- The rows with a new one at the place the search gave. -/
private theorem sorted_insertIdx {t : Table V} {key : Str} {i : Nat} (value : V)
    (h : t.find key = .error i) : Sorted (t.rows.insertIdx i (key, value)) :=
  SortedRows.insertIdx_eq_upsert h ▸ t.sorted.upsert

/-- The value at `key`, changeable: the value, and the table with another in its place. -/
def getMut (t : Table V) (key : Str) : Option (V × (V → Table V)) :=
  match h : t.find key with
  | .ok i => t.rows[i]?.map fun row =>
      (row.2, fun value => ⟨t.rows.modify i fun row => (row.1, value), sorted_modify value h⟩)
  | .error _ => none

/-- Put `value` at `key`; the value before comes back. -/
def insert (key : Str) (value : V) : Method Error (Table V × Mem) (Option V) := do
  let t ← Method.self
  match h : t.find key with
  | .ok i =>
    -- the key is there: its value is replaced, and no memory asked for
    Method.put ⟨t.rows.modify i fun row => (row.1, value), sorted_modify value h⟩
    return t.rows[i]?.map (·.2)
  | .error i =>
    Method.alloc tryReserve -- the copy of the key
    Method.alloc tryReserve -- the row
    Method.put ⟨t.rows.insertIdx i (key, value), sorted_insertIdx value h⟩
    return none

/-- Take `key` out. -/
def remove (t : Table V) (key : Str) : Option V × Table V :=
  match t.find key with
  | .ok i => (t.rows[i]?.map (·.2), ⟨t.rows.eraseIdx i, t.sorted.eraseIdx i⟩)
  | .error _ => (none, t)

/-- Every row, in ascending key order. -/
def iter (t : Table V) : List (Str × V) := t.rows

/-- Every value, in ascending key order. -/
def values (t : Table V) : List V := t.rows.map (·.2)

/-! ## The table as a map -/

/-- The table with `value` at `key`: what an insertion that gets its memory leaves. -/
def put (t : Table V) (key : Str) (value : V) : Table V :=
  ⟨upsert key value t.rows, t.sorted.upsert⟩

/-- The binary search finds what a search from the front finds. -/
theorem get_eq_lookup (t : Table V) (key : Str) : t.get key = lookup key t.rows := by
  -- the search finds the row the key is looked up at, or there is none
  unfold get
  cases h : t.find key with
  | ok i =>
    obtain ⟨v, hv, hl⟩ := SortedRows.search_ok t.sorted h
    simp only [hv, hl, Option.map_some]
  | error i => simp only [SortedRows.search_error t.sorted h]

/-- A key is there when it has a value. -/
theorem containsKey_eq (t : Table V) (key : Str) : t.containsKey key = (t.get key).isSome := by
  rw [get_eq_lookup]
  unfold containsKey
  cases h : t.find key with
  | ok i =>
    obtain ⟨v, -, hl⟩ := SortedRows.search_ok t.sorted h
    simp [hl]
  | error i => simp [SortedRows.search_error t.sorted h]

/-- Tables with the same values at the same keys are the same, row by row. -/
theorem ext_get {t t' : Table V} (h : ∀ key, t.get key = t'.get key) : t = t' := by
  -- two ascending rows with the same lookups are equal
  have hrows : t.rows = t'.rows := t.sorted.ext t'.sorted fun key => by
    rw [← get_eq_lookup, ← get_eq_lookup, h]
  cases t
  cases t'
  congr

@[simp] theorem get_new (key : Str) : (new : Table V).get key = none := rfl

/-- What is put is there, and every other key keeps its value. -/
theorem get_put (t : Table V) (key key' : Str) (value : V) :
    (t.put key value).get key' = if key' = key then some value else t.get key' := by
  rw [get_eq_lookup, get_eq_lookup]
  exact SortedRows.lookup_upsert

@[simp] theorem get_put_self (t : Table V) (key : Str) (value : V) :
    (t.put key value).get key = some value := by rw [get_put, if_pos rfl]

theorem get_put_of_ne (t : Table V) {key key' : Str} (value : V) (h : key' ≠ key) :
    (t.put key value).get key' = t.get key' := by rw [get_put, if_neg h]

/-- An insertion puts its value at its key and gives back the value before, or leaves
    the table as it was. -/
theorem insert_commits (t : Table V) (key : Str) (value : V) :
    Commits (insert key value) t (.ok (t.get key)) (t.put key value) := by
  refine Atomic.self_bind ?_
  split
  · rename_i i h
    have hput : (⟨t.rows.modify i fun row => (row.1, value), sorted_modify value h⟩ : Table V) =
        t.put key value := by
      simp only [put, SortedRows.modify_eq_upsert h]
    have hget : t.rows[i]?.map (·.2) = t.get key := by simp only [get, h]
    rw [hput, hget]
    exact Atomic.put_pure t _ _
  · rename_i i h
    have hput : (⟨t.rows.insertIdx i (key, value), sorted_insertIdx value h⟩ : Table V) =
        t.put key value := by
      simp only [put, SortedRows.insertIdx_eq_upsert h]
    have hget : t.get key = none := by simp only [get, h]
    rw [hput, hget]
    exact Atomic.alloc_bind tryReserve_yields
      (Atomic.alloc_bind tryReserve_yields (Atomic.put_pure t _ _))

/-- The row at a key is there to be changed exactly when the table has the key. -/
theorem getMut_eq (t : Table V) (key : Str) :
    t.getMut key = (t.get key).map fun v => (v, t.put key) := by
  unfold getMut
  split
  · rename_i i h
    obtain ⟨v, hv, -⟩ := SortedRows.search_ok t.sorted h
    have hput : (fun value => (⟨t.rows.modify i fun row => (row.1, value), sorted_modify value h⟩ :
        Table V)) = t.put key := by
      funext value
      simp only [put, SortedRows.modify_eq_upsert h]
    simp only [get, h, hv, Option.map_some, hput]
  · rename_i i h
    simp only [get, h, Option.map_none]

/-- The rows are the keys with their values. -/
theorem mem_iter (t : Table V) {key : Str} {v : V} : (key, v) ∈ t.iter ↔ t.get key = some v := by
  rw [get_eq_lookup]
  exact ⟨t.sorted.lookup_of_mem, SortedRows.mem_of_lookup⟩

/-- The values are those at the keys. -/
theorem mem_values (t : Table V) (v : V) : v ∈ t.values ↔ ∃ key, t.get key = some v := by
  simp only [values, List.mem_map]
  constructor
  · intro h'
    obtain ⟨⟨key, v'⟩, hmem, rfl⟩ := h'
    exact ⟨key, t.mem_iter.mp hmem⟩
  · intro h'
    obtain ⟨key, h⟩ := h'
    exact ⟨(key, v), t.mem_iter.mpr h, rfl⟩

end Table

end HopDns

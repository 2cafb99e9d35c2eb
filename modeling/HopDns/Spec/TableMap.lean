import HopDns.ForStd.Run
import HopDns.Native.Table

/-!
# The table as a finite map

What a table answers after any calls that change it: it is the map that the same calls
give, and its rows are the one way to write that map down.

## Key results

- `Table.get_remove`, `Table.length_eq`: taking a key out, and the number of keys
- `TableStep.mapStep`: a call does to the table what it does to the map
- `table_run`: a table after any calls
-/

namespace HopDns

open ForStd

namespace Table

variable {V : Type}

/-- Taking a key out gives back its value, and leaves the others. -/
private theorem remove_fst (t : Table V) (key : Str) : (t.remove key).1 = t.get key := by
  unfold remove get
  cases t.find key <;> rfl

/-- What is removed is gone, and every other key keeps its value. -/
theorem get_remove (t : Table V) (key key' : Str) :
    (t.remove key).2.get key' = if key' = key then none else t.get key' := by
  unfold remove
  cases h : t.find key with
  | ok i =>
    rw [get_eq_lookup, get_eq_lookup]
    exact SortedRows.lookup_eraseIdx t.sorted h
  | error i =>
    -- the key is not there
    by_cases hkey : key' = key
    · rw [if_pos hkey, hkey, get_eq_lookup]
      exact SortedRows.search_error t.sorted h
    · rw [if_neg hkey]

/-- The rows have different keys. -/
theorem nodup_keys (t : Table V) : (t.iter.map Prod.fst).Nodup := by
  rw [List.nodup_iff_pairwise_ne, List.pairwise_map]
  exact t.sorted.imp fun h heq => by grind

/-- The rows have the keys that have a value. -/
theorem mem_keys (t : Table V) {key : Str} : key ∈ t.iter.map Prod.fst ↔ t.get key ≠ none := by
  rw [List.mem_map, Option.ne_none_iff_exists']
  constructor
  · rintro ⟨⟨key, v⟩, hrow, rfl⟩
    exact ⟨v, t.mem_iter.mp hrow⟩
  · rintro ⟨v, hget⟩
    exact ⟨(key, v), t.mem_iter.mpr hget, rfl⟩

/-- The length is the number of keys, however they are listed. -/
theorem length_eq (t : Table V) {keys : List Str} (hnodup : keys.Nodup)
    (hkeys : ∀ key, key ∈ keys ↔ t.get key ≠ none) : t.len = keys.length := by
  have hperm : (t.iter.map Prod.fst).Perm keys :=
    (List.perm_ext_iff_of_nodup t.nodup_keys hnodup).mpr fun key => by rw [t.mem_keys, hkeys]
  have hlength := hperm.length_eq
  rw [List.length_map] at hlength
  exact hlength

end Table

/-! ## Calls -/

/-- A call that changes a table: the allocator answers to an insertion as `mem` says. -/
inductive TableCall (V : Type) where
  | insert (key : Str) (value : V) (mem : Mem)
  | remove (key : Str)
  /-- a value written through `get_mut` -/
  | write (key : Str) (value : V)

namespace TableCall

variable {V : Type}

/-- What the call returns, and the table it leaves: the value that was at the key, if memory did
    not run out. -/
def perform (t : Table V) : TableCall V → Except Error (Option V) × Table V
  | insert key value mem =>
    let (r, t', _) := (Table.insert key value).run (t, mem)
    (r, t')
  | remove key => (.ok (t.remove key).1, (t.remove key).2)
  | write key value =>
    match t.getMut key with
    | some (v, back) => (.ok (some v), back value)
    | none => (.ok none, t)

end TableCall

variable {V : Type}

/-- A call to a table, with what it returned. -/
def TableStep (t : Table V) (l : TableCall V × Except Error (Option V)) (t' : Table V) : Prop :=
  l.1.perform t = (l.2, t')

/-- The same call to a finite map. -/
inductive MapStep : (Str → Option V) → TableCall V × Except Error (Option V) →
    (Str → Option V) → Prop
  | inserted (m : Str → Option V) (key : Str) (value : V) (mem : Mem) :
      MapStep m (.insert key value mem, .ok (m key))
        (fun key' => if key' = key then some value else m key')
  | refused (m : Str → Option V) (key : Str) (value : V) (mem : Mem) :
      MapStep m (.insert key value mem, .error .outOfMemory) m
  | removed (m : Str → Option V) (key : Str) :
      MapStep m (.remove key, .ok (m key)) (fun key' => if key' = key then none else m key')
  | written {m : Str → Option V} {key : Str} {v : V} (h : m key = some v) (value : V) :
      MapStep m (.write key value, .ok (some v))
        (fun key' => if key' = key then some value else m key')
  | missing {m : Str → Option V} {key : Str} (h : m key = none) (value : V) :
      MapStep m (.write key value, .ok none) m

/-- A call does to the table what it does to the map, and one that fails leaves the table as it
    was. -/
theorem TableStep.mapStep {t t' : Table V} {l : TableCall V × Except Error (Option V)}
    (h : TableStep t l t') : MapStep t.get l t'.get ∧ (∀ e, l.2 = .error e → t' = t) := by
  obtain ⟨call, r⟩ := l
  cases call with
  | insert key value mem =>
    obtain ⟨hr, ht⟩ := Prod.mk.inj h
    obtain ⟨hok, hput⟩ | ⟨herror, hsame⟩ := (t.insert_commits key value).lean mem
    -- the insertion went through, or the memory ran out and nothing changed
    · obtain rfl := ht.symm.trans hput
      obtain rfl := hr.symm.trans hok
      refine ⟨?_, nofun⟩
      -- the new value is read back at its own key, the old ones elsewhere
      rw [funext (t.get_put key · value)]
      exact .inserted t.get key value mem
    · obtain rfl := ht.symm.trans hsame
      obtain rfl := hr.symm.trans herror
      exact ⟨.refused _ key value mem, fun _ _ => rfl⟩
  | remove key =>
    -- to remove needs no memory, so it gives back what the map had
    obtain ⟨rfl, rfl⟩ := Prod.mk.inj h
    refine ⟨?_, nofun⟩
    rw [t.remove_fst, funext (t.get_remove key)]
    exact .removed t.get key
  | write key value =>
    -- a write through `get_mut` depends on the key being there
    simp only [TableStep, TableCall.perform, t.getMut_eq] at h
    cases hget : t.get key with
    | none =>
      rw [hget] at h
      obtain ⟨rfl, rfl⟩ := Prod.mk.inj h
      exact ⟨.missing hget value, nofun⟩
    | some v =>
      rw [hget] at h
      obtain ⟨rfl, rfl⟩ := Prod.mk.inj h
      refine ⟨?_, nofun⟩
      rw [funext (t.get_put key · value)]
      exact .written hget value

/-- What a call makes of a map does not depend on chance once its return is known. -/
theorem MapStep.unique {m m₁ m₂ : Str → Option V} {l : TableCall V × Except Error (Option V)}
    (h₁ : MapStep m l m₁) (h₂ : MapStep m l m₂) : m₁ = m₂ := by
  cases h₁ with
  | inserted | refused | removed => cases h₂; rfl
  | written h value => cases h₂; rfl
  | missing h value => cases h₂; rfl

/-- Calls that returned the same make the same map. -/
private theorem mapRun_unique {m m₁ m₂ : Str → Option V}
    {ls : List (TableCall V × Except Error (Option V))} (h₁ : Run MapStep m ls m₁)
    (h₂ : Run MapStep m ls m₂) : m₁ = m₂ := by
  induction h₁ with
  | nil m => cases h₂; rfl
  | cons hstep _ ih =>
    cases h₂ with
    | cons hstep' hrest => exact ih (hstep.unique hstep' ▸ hrest)

/-- A table after any calls that change it: it is the map that the same calls with the same
    returns give to an empty one, its rows list the keys of that map in ascending order with
    their values, and a table with the same map has the same rows. The search is any one that
    is right on sorted rows. -/
theorem table_run {t : Table V} {ls : List (TableCall V × Except Error (Option V))}
    (h : Run TableStep Table.new ls t) :
    Run MapStep (fun _ => none) ls t.get ∧ (∀ m, Run MapStep (fun _ => none) ls m → m = t.get) ∧
    t.rows.Pairwise (fun row row' => row.1 < row'.1) ∧ t.iter = t.rows ∧
    (∀ key v, (key, v) ∈ t.iter ↔ t.get key = some v) ∧ t.values = t.iter.map Prod.snd ∧
    (∀ key, t.containsKey key = (t.get key).isSome) ∧
    (∀ keys : List Str, keys.Nodup → (∀ key, key ∈ keys ↔ t.get key ≠ none) →
      t.len = keys.length) ∧
    (∀ call e t', TableStep t (call, .error e) t' → t' = t) ∧
    (∀ t' : Table V, (∀ key, t'.get key = t.get key) → t'.rows = t.rows) ∧
    ∀ key r, SortedRows.Answer key t.rows r → t.find key = r := by
  -- the run of the table is one of the map, step by step
  have hrun : Run MapStep (fun _ => none) ls t.get := by
    refine h.history (I := fun ls t => Run MapStep (fun _ => none) ls t.get) (.nil _) ?_
    intro ls t l t' hrun hstep
    exact hrun.append (.single hstep.mapStep.1)
  -- the rest is about the last state alone: sorted rows determine it
  refine ⟨hrun, fun m hm => mapRun_unique hm hrun, t.sorted, rfl, fun key v => t.mem_iter, rfl,
    t.containsKey_eq, fun keys hnodup hkeys => t.length_eq hnodup hkeys, ?_, ?_, ?_⟩
  · exact fun call e t' hstep => hstep.mapStep.2 e rfl
  · exact fun t' hget => congrArg Table.rows (Table.ext_get hget)
  · exact fun key r hanswer => SortedRows.search_eq t.sorted hanswer

/-- Calls to an empty table, the third of which gets no memory. -/
def someCalls : List (TableCall Nat × Except Error (Option Nat)) :=
  [(.insert (str "b") 2 [], .ok none), (.insert (str "a") 1 [], .ok none),
    (.insert (str "c") 3 [false], .error .outOfMemory), (.write (str "b") 20, .ok (some 2)),
    (.remove (str "a"), .ok (some 1))]

/-- What is left after these calls. -/
def someTable : Table Nat := ⟨[(str "b", 20)], List.pairwise_singleton _ _⟩

/-- The calls that fill the table. -/
private theorem someTable_run : Run TableStep Table.new someCalls someTable := by
  let t₁ : Table Nat := ⟨[(str "b", 2)], by decide⟩
  let t₂ : Table Nat := ⟨[(str "a", 1), (str "b", 2)], by decide⟩
  let t₃ : Table Nat := ⟨[(str "a", 1), (str "b", 20)], by decide⟩
  have h₁ : TableStep Table.new (.insert (str "b") 2 [], .ok none) t₁ := rfl
  have h₂ : TableStep t₁ (.insert (str "a") 1 [], .ok none) t₂ := rfl
  have h₃ : TableStep t₂ (.insert (str "c") 3 [false], .error .outOfMemory) t₂ := rfl
  have h₄ : TableStep t₂ (.write (str "b") 20, .ok (some 2)) t₃ := rfl
  have h₅ : TableStep t₃ (.remove (str "a"), .ok (some 1)) someTable := rfl
  exact .cons h₁ (.cons h₂ (.cons h₃ (.cons h₄ (.cons h₅ (.nil _)))))

/-- What is said of a table after any calls holds of that one. -/
theorem table_run_someTable :
    Run MapStep (fun _ => none) someCalls someTable.get ∧
    (∀ m, Run MapStep (fun _ => none) someCalls m → m = someTable.get) ∧
    someTable.rows.Pairwise (fun row row' => row.1 < row'.1) ∧ someTable.iter = someTable.rows ∧
    (∀ key v, (key, v) ∈ someTable.iter ↔ someTable.get key = some v) ∧
    someTable.values = someTable.iter.map Prod.snd ∧
    (∀ key, someTable.containsKey key = (someTable.get key).isSome) ∧
    (∀ keys : List Str, keys.Nodup → (∀ key, key ∈ keys ↔ someTable.get key ≠ none) →
      someTable.len = keys.length) ∧
    (∀ call e t', TableStep someTable (call, .error e) t' → t' = someTable) ∧
    (∀ t' : Table Nat, (∀ key, t'.get key = someTable.get key) → t'.rows = someTable.rows) ∧
    ∀ key r, SortedRows.Answer key someTable.rows r → someTable.find key = r :=
  table_run someTable_run

end HopDns

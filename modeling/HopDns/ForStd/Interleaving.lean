/-!
# Interleavings

Several senders each send a list of messages; an interleaving is an order in which
they arrive when each sender's own order is kept. A store whose parts are each
written by the messages of one sender ends up the same for every interleaving.

## Key results

- `Interleaving.concat`: one message more
- `Interleaving.filter_eq`: the messages of one sender arrive as they were sent
- `get_foldl`: a part of the store depends on its own messages only
- `foldl_last`: a part that each of its messages overwrites is what the last one wrote
-/

namespace ForStd

variable {ι κ α β σ : Type}

/-- The list holds the lists `f i`, each in its own order. -/
inductive Interleaving : (ι → List α) → List α → Prop where
  | nil {f : ι → List α} (h : ∀ i, f i = []) : Interleaving f []
  | cons {f f' : ι → List α} {l : List α} (i : ι) (a : α) (hi : f i = a :: f' i)
      (hrest : ∀ j, j ≠ i → f j = f' j) (h : Interleaving f' l) : Interleaving f (a :: l)

namespace Interleaving

variable {f : ι → List α} {l : List α}

/-- Every message of an interleaving is one of some sender. -/
theorem mem (h : Interleaving f l) {a : α} (ha : a ∈ l) : ∃ i, a ∈ f i := by
  induction h with
  | nil h => cases ha
  | @cons f f' l i b hi hrest _ ih =>
    obtain rfl | ha := List.mem_cons.mp ha
    · exact ⟨i, by rw [hi]; exact List.mem_cons_self⟩
    · obtain ⟨j, hj⟩ := ih ha
      by_cases hji : j = i
      · subst hji
        exact ⟨j, by rw [hi]; exact List.mem_cons_of_mem _ hj⟩
      · exact ⟨j, by rw [hrest j hji]; exact hj⟩

/-- One message more, of the sender `i`, arrives after all others. -/
theorem concat {g : ι → List α} (h : Interleaving f l) (i : ι) (a : α) (hi : g i = f i ++ [a])
    (hrest : ∀ j, j ≠ i → g j = f j) : Interleaving g (l ++ [a]) := by
  classical
  induction h generalizing g with
  | @nil f hnil =>
    have hempty : Interleaving (fun _ : ι => ([] : List α)) [] := .nil fun _ => rfl
    refine .cons i a (by rw [hi, hnil i]; rfl) (fun j hj => ?_) hempty
    rw [hrest j hj, hnil j]
  | @cons f f' l k b hk hother _ ih =>
    have hstep : Interleaving (fun j => if j = i then f' j ++ [a] else f' j) (l ++ [a]) :=
      ih (by simp) (fun j hj => by simp [hj])
    refine .cons k b ?_ (fun j hj => ?_) hstep
    · by_cases hki : k = i
      · subst hki
        simp [hi, hk]
      · simp [hrest k hki, hk, hki]
    · by_cases hji : j = i
      · subst hji
        simp [hi, hother j hj]
      · simp [hrest j hji, hother j hj, hji]

variable [DecidableEq κ]

/-- Where each sender has a tag of its own, its messages are those with the tag, in order. -/
theorem filter_eq {tag : α → κ} {name : ι → κ} (hname : ∀ i j, name i = name j → i = j)
    (h : Interleaving f l) (htag : ∀ i, ∀ a ∈ f i, tag a = name i) (i : ι) :
    l.filter (fun a => tag a = name i) = f i := by
  induction h with
  | nil h => simp [h i]
  | @cons f f' l j b hj hrest _ ih =>
    -- what is left of the runs still carries their names
    have htag' : ∀ i, ∀ a ∈ f' i, tag a = name i := by
      intro i a ha
      by_cases hij : i = j
      · subst hij
        exact htag i a (by rw [hj]; exact List.mem_cons_of_mem _ ha)
      · exact htag i a (by rw [hrest i hij]; exact ha)
    have hb : tag b = name j := htag j b (by rw [hj]; exact List.mem_cons_self)
    -- the element taken belongs to `j`, and passes the filter of `j` only
    rw [List.filter_cons, ih htag']
    by_cases hij : i = j
    · subst hij
      rw [if_pos (by simp [hb]), hj]
    · rw [if_neg, hrest i hij]
      intro hti
      exact hij (hname i j ((hb.symm.trans (of_decide_eq_true hti)).symm))

end Interleaving

/-- Where each message changes the part with its tag and no other, a part after all messages
    comes from the messages with its tag. -/
theorem get_foldl [DecidableEq κ] {get : σ → κ → β} {step : σ → α → σ} {tag : α → κ}
    {change : β → α → β}
    (hstep : ∀ s a k, get (step s a) k = if tag a = k then change (get s k) a else get s k)
    (l : List α) (s : σ) (k : κ) :
    get (l.foldl step s) k = (l.filter fun a => tag a = k).foldl change (get s k) := by
  induction l generalizing s with
  | nil => rfl
  | cons a l ih =>
    rw [List.foldl_cons, ih, hstep, List.filter_cons]
    by_cases hk : tag a = k
    · simp only [hk, decide_true, if_true, List.foldl_cons]
    · simp only [hk, decide_false, if_false, Bool.false_eq_true]

/-- Where the messages of one kind overwrite a part of the store and the others leave it, it is
    after all messages what the last one of that kind wrote. -/
theorem foldl_last {γ : Type} (step : σ → α → σ) (read : σ → Option γ) (P : α → Prop)
    [DecidablePred P] (value : α → γ) {l : List α}
    (h : ∀ s, ∀ a ∈ l, read (step s a) = if P a then some (value a) else read s) (s : σ) :
    read (l.foldl step s) = ((l.filter fun a => P a).getLast?.map value).or (read s) := by
  induction l generalizing s with
  | nil => rfl
  | cons a l ih =>
    rw [List.foldl_cons, ih (fun s a ha => h s a (List.mem_cons_of_mem _ ha)),
      h s a List.mem_cons_self, List.filter_cons]
    by_cases ha : P a
    · rw [if_pos ha, if_pos (decide_eq_true ha), List.getLast?_cons]
      cases (l.filter fun a => P a).getLast? <;> rfl
    · rw [if_neg ha, if_neg (by simpa using ha)]

end ForStd

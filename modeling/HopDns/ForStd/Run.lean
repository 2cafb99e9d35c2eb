/-!
# Runs of a labelled step relation

A system takes labelled steps from state to state. A `Run` is a finite sequence of
steps; `Reachable` says that a run leads to a state from one the system may start in.

## Key results

- `Run.keeps`: what every step keeps, every run keeps
- `Run.keepsUntil`: what only a step of one kind may end holds until such a step
- `Run.keepsBarring`: what steps of a barred kind would end holds as long as no step lets them in
- `Run.length_le`: a measure that every step lowers bounds the length of a run
- `Run.length_le_while`: so does one that such steps lower
- `Run.countP_le_while`: one that no step raises bounds the steps that lower it
- `Run.exists_change`: what is another at the end of a run was changed by one of its steps
- `Run.history`: induction over the steps made so far
- `Reachable.invariant`: an inductive invariant holds in every reachable state
-/

namespace ForStd

variable {σ ℓ : Type}

/-- The labels of the steps from one state to another, in order. -/
inductive Run (step : σ → ℓ → σ → Prop) : σ → List ℓ → σ → Prop where
  | nil (s : σ) : Run step s [] s
  | cons {s t u : σ} {l : ℓ} {ls : List ℓ} : step s l t → Run step t ls u → Run step s (l :: ls) u

/-- A run leads to the state from one of the initial states. -/
def Reachable (init : σ → Prop) (step : σ → ℓ → σ → Prop) (t : σ) : Prop :=
  ∃ s ls, init s ∧ Run step s ls t

/-- Every label of the kind `A` comes after one that lets it in. -/
def Preceded (A : ℓ → Prop) (lets : ℓ → ℓ → Prop) (ls : List ℓ) : Prop :=
  ∀ before l after, ls = before ++ l :: after → A l → ∃ k ∈ before, lets k l

section

variable {A : ℓ → Prop} {lets : ℓ → ℓ → Prop} {k : ℓ} {ls : List ℓ}

/-- The first label is not of a kind that something has to let in. -/
theorem Preceded.head (h : Preceded A lets (k :: ls)) : ¬A k := by
  intro hk
  obtain ⟨k', hk', -⟩ := h [] k ls rfl hk
  exact absurd hk' List.not_mem_nil

/-- A label that lets nothing in can be left out. -/
theorem Preceded.tail (h : Preceded A lets (k :: ls)) (hk : ∀ l, A l → ¬lets k l) :
    Preceded A lets ls := by
  intro before l after heq hl
  obtain ⟨k', hk', hlets⟩ := h (k :: before) l after (by rw [heq, List.cons_append]) hl
  obtain rfl | hk' := List.mem_cons.mp hk'
  · exact absurd hlets (hk l hl)
  · exact ⟨k', hk', hlets⟩

end

variable {step : σ → ℓ → σ → Prop}

namespace Run

theorem single {s t : σ} {l : ℓ} (h : step s l t) : Run step s [l] t := .cons h (.nil t)

/-- One run after another. -/
theorem append {s t u : σ} {ls ls' : List ℓ} (h : Run step s ls t) (h' : Run step t ls' u) :
    Run step s (ls ++ ls') u := by
  induction h with
  | nil s => exact h'
  | cons hstep _ ih => exact .cons hstep (ih h')

/-- A run of a list of labels is one of each of its parts. -/
theorem split {s u : σ} {ls ls' : List ℓ} (h : Run step s (ls ++ ls') u) :
    ∃ t, Run step s ls t ∧ Run step t ls' u := by
  induction ls generalizing s with
  | nil => exact ⟨s, .nil s, h⟩
  | cons l ls ih =>
    cases h with
    | cons hstep hrest =>
      obtain ⟨t, hrun, hrun'⟩ := ih hrest
      exact ⟨t, .cons hstep hrun, hrun'⟩

/-- A run up to a label makes its step. -/
theorem split_cons {s u : σ} {ls ls' : List ℓ} {l : ℓ} (h : Run step s (ls ++ l :: ls') u) :
    ∃ t t', Run step s ls t ∧ step t l t' ∧ Run step t' ls' u := by
  obtain ⟨t, hrun, hrest⟩ := h.split
  cases hrest with
  | cons hstep hrun' => exact ⟨t, _, hrun, hstep, hrun'⟩

/-- A run whose labels are all in `A` is one of the steps with such labels. -/
theorem restrict {A : ℓ → Prop} {s t : σ} {ls : List ℓ} (h : Run step s ls t)
    (hA : ∀ l ∈ ls, A l) : Run (fun s l t => A l ∧ step s l t) s ls t := by
  induction h with
  | nil s => exact .nil s
  | @cons s t u l ls h _ ih =>
    have hA' : ∀ l' ∈ ls, A l' := fun l' hl' => hA l' (List.mem_cons_of_mem l hl')
    exact .cons ⟨hA l List.mem_cons_self, h⟩ (ih hA')

/-- Induction over the steps made so far. -/
theorem history {s : σ} {I : List ℓ → σ → Prop} (hnil : I [] s)
    (hsnoc : ∀ ls t l u, I ls t → step t l u → I (ls ++ [l]) u) {t : σ} {ls : List ℓ}
    (h : Run step s ls t) : I ls t := by
  -- the steps still to be made, after any that were made
  have hmore : ∀ {t u : σ} {ls' : List ℓ}, Run step t ls' u → ∀ ls, I ls t → I (ls ++ ls') u := by
    intro t u ls' hrun
    induction hrun with
    | nil t =>
      intro ls hls
      rwa [List.append_nil]
    | @cons t t' u l ls' hstep _ ih =>
      intro ls hls
      have := ih (ls ++ [l]) (hsnoc ls t l t' hls hstep)
      rwa [List.append_assoc, List.singleton_append] at this
  exact hmore h [] hnil

/-- What every step keeps, every run keeps. -/
theorem keeps {I : σ → Prop} (hstep : ∀ s l t, I s → step s l t → I t) {s t : σ} {ls : List ℓ}
    (h : Run step s ls t) (hs : I s) : I t := by
  induction h with
  | nil s => exact hs
  | cons h _ ih => exact ih (hstep _ _ _ hs h)

/-- A property that a step ends only when its label is in `Q` holds at the end of a run, or
    the run has a label in `Q`. Steps with a label outside `A` are not considered. -/
theorem keepsUntil {I P : σ → Prop} {A Q : ℓ → Prop} (hI : ∀ s l t, I s → step s l t → I t)
    (hstep : ∀ s l t, I s → P s → A l → step s l t → Q l ∨ P t) {s t : σ} {ls : List ℓ}
    (h : Run step s ls t) (hA : ∀ l ∈ ls, A l) (hs : I s) (hP : P s) :
    (∃ l ∈ ls, Q l) ∨ P t := by
  induction h with
  | nil s => exact .inr hP
  | @cons s t u l ls h _ ih =>
    obtain hq | hp := hstep s l t hs hP (hA l List.mem_cons_self) h
    · exact .inl ⟨l, List.mem_cons_self, hq⟩
    · have hA' : ∀ l' ∈ ls, A l' := fun l' hl' => hA l' (List.mem_cons_of_mem l hl')
      obtain ⟨l', hl', hq⟩ | hu := ih hA' (hI s l t hs h) hp
      · exact .inl ⟨l', List.mem_cons_of_mem l hl', hq⟩
      · exact .inr hu

/-- Where every step lowers a measure, a run is no longer than it allows. -/
theorem length_le {μ : σ → Nat} (hstep : ∀ s l t, step s l t → μ t < μ s) {s t : σ} {ls : List ℓ}
    (h : Run step s ls t) : ls.length + μ t ≤ μ s := by
  induction h with
  | nil s => exact Nat.le_of_eq (Nat.zero_add _)
  | @cons s t u l ls h _ ih =>
    have hlt := hstep s l t h
    rw [List.length_cons]
    omega

/-- The same for steps with labels in `A`, in states of an invariant. -/
theorem length_le_while {I : σ → Prop} {A : ℓ → Prop} {μ : σ → Nat}
    (hI : ∀ s l t, I s → step s l t → I t)
    (hstep : ∀ s l t, I s → A l → step s l t → μ t < μ s) {s t : σ} {ls : List ℓ}
    (h : Run step s ls t) (hA : ∀ l ∈ ls, A l) (hs : I s) : ls.length + μ t ≤ μ s := by
  induction h with
  | nil s => exact Nat.le_of_eq (Nat.zero_add _)
  | @cons s t u l ls h _ ih =>
    have hlt := hstep s l t hs (hA l List.mem_cons_self) h
    have hrest := ih (fun l' hl' => hA l' (List.mem_cons_of_mem l hl')) (hI s l t hs h)
    rw [List.length_cons]
    omega

/-- What steps with labels in `A` keep, a run of such steps keeps. -/
theorem keepsWhile {I : σ → Prop} {A : ℓ → Prop}
    (hstep : ∀ s l t, I s → A l → step s l t → I t) {s t : σ} {ls : List ℓ}
    (h : Run step s ls t) (hA : ∀ l ∈ ls, A l) (hs : I s) : I t := by
  induction h with
  | nil s => exact hs
  | @cons s t u l ls h _ ih =>
    have hA' : ∀ l' ∈ ls, A l' := fun l' hl' => hA l' (List.mem_cons_of_mem l hl')
    exact ih hA' (hstep s l t hs (hA l List.mem_cons_self) h)

/-- What is another at the end of a run was changed by one of its steps. -/
theorem exists_change {β : Type} {F : σ → β} {s t : σ} {ls : List ℓ} (h : Run step s ls t)
    (hne : F s ≠ F t) : ∃ before l after u v, ls = before ++ l :: after ∧ Run step s before u ∧
      step u l v ∧ F u ≠ F v := by
  induction h with
  | nil s => exact absurd rfl hne
  | @cons s t u l ls hstep _ ih =>
    by_cases hsame : F s = F t
    · obtain ⟨before, l', after, v, v', rfl, hbefore, hstep', hchange⟩ := ih (hsame ▸ hne)
      exact ⟨l :: before, l', after, v, v', rfl, .cons hstep hbefore, hstep', hchange⟩
    · exact ⟨[], l, ls, s, t, rfl, .nil s, hstep, hsame⟩

/-- A measure that no step raises bounds the steps that lower it. -/
theorem countP_le_while {I : σ → Prop} {A : ℓ → Prop} {μ : σ → Nat} {W : ℓ → Bool}
    (hI : ∀ s l t, I s → A l → step s l t → I t)
    (hstep : ∀ s l t, I s → A l → step s l t → (if W l then 1 else 0) + μ t ≤ μ s) {s t : σ}
    {ls : List ℓ} (h : Run step s ls t) (hA : ∀ l ∈ ls, A l) (hs : I s) :
    ls.countP W + μ t ≤ μ s := by
  induction h with
  | nil s => exact Nat.le_of_eq (Nat.zero_add _)
  | @cons s t u l ls h _ ih =>
    have hl := hA l List.mem_cons_self
    have hle := hstep s l t hs hl h
    have hrest := ih (fun l' hl' => hA l' (List.mem_cons_of_mem l hl')) (hI s l t hs hl h)
    rw [List.countP_cons]
    omega

/-- A property that barred labels would end, and under which no step lets a barred label in,
    holds at the end of a run in which each barred label was let in; or the run has a label in
    `Q`, from which on nothing is said. -/
theorem keepsBarring {I : σ → Prop} {A Q : ℓ → Prop} {lets : ℓ → ℓ → Prop}
    (hstep : ∀ s l t, I s → ¬A l → step s l t → Q l ∨ (I t ∧ ∀ l', A l' → ¬lets l l'))
    {s t : σ} {ls : List ℓ} (h : Run step s ls t) (hbar : Preceded A lets ls) (hs : I s) :
    (∃ l ∈ ls, Q l) ∨ I t ∧ ∀ l ∈ ls, ¬A l := by
  induction h with
  | nil s => exact .inr ⟨hs, fun l hl => absurd hl List.not_mem_nil⟩
  | @cons s t u l ls h _ ih =>
    obtain hq | ⟨ht, hlets⟩ := hstep s l t hs hbar.head h
    · exact .inl ⟨l, List.mem_cons_self, hq⟩
    · obtain ⟨l', hl', hq⟩ | ⟨hu, hnone⟩ := ih (hbar.tail hlets) ht
      · exact .inl ⟨l', List.mem_cons_of_mem l hl', hq⟩
      · refine .inr ⟨hu, fun l' hl' => ?_⟩
        obtain rfl | hl' := List.mem_cons.mp hl'
        · exact hbar.head
        · exact hnone l' hl'

end Run

namespace Reachable

variable {init : σ → Prop}

theorem of_init {s : σ} (h : init s) : Reachable init step s := ⟨s, [], h, .nil s⟩

/-- What one step leads to from a reachable state is reachable. -/
theorem snoc {s t : σ} {l : ℓ} (h : Reachable init step s) (hstep : step s l t) :
    Reachable init step t := by
  obtain ⟨s₀, ls, hinit, hrun⟩ := h
  exact ⟨s₀, ls ++ [l], hinit, hrun.append (.single hstep)⟩

/-- A property of the initial states that every step keeps holds in every reachable state. -/
theorem invariant {I : σ → Prop} (hinit : ∀ s, init s → I s)
    (hstep : ∀ s l t, I s → step s l t → I t) {t : σ} (h : Reachable init step t) : I t := by
  obtain ⟨s, ls, hs, hrun⟩ := h
  exact hrun.keeps hstep (hinit s hs)

end Reachable

end ForStd

/-!
# Methods: failing computations that leave a state

A method on a state `σ` either returns an `α` or fails with an `ε`, and leaves a
state in both cases. `StateT σ (Except ε)` would forget the state on a failure;
a method that fails halfway through keeps what it had written by then.

The second half is about memory. A computation asks an allocator for memory
(`Mem.request`), and the script `Mem` says which requests succeed. `Computes`
and `Atomic` state once what a computation does when memory suffices, and that
a failed request is all that can come between.

## Key results

- `Computes.bind`, `Computes.bind_error`: sequencing computations whose results are known
- `Firm.bind`: what is returned with some memory is returned with more
- `Atomic.ample`, `Atomic.lean`: an atomic method does all of its work or nothing
-/

namespace ForStd

/-- A computation on a state of type `σ` that returns an `α` or fails with an `ε`,
    and leaves a state either way. -/
def Method (ε σ α : Type) : Type := σ → Except ε α × σ

namespace Method

variable {ε σ τ α β : Type}

/-- The outcome of a method called on the state `s`, and the state it leaves. -/
def run (x : Method ε σ α) (s : σ) : Except ε α × σ := x s

instance : Monad (Method ε σ) where
  pure a := fun s => (.ok a, s)
  bind x f := fun s => match x s with
    | (.ok a, s') => f a s'
    | (.error e, s') => (.error e, s')

/-- The current state. -/
def get : Method ε σ σ := fun s => (.ok s, s)

/-- Replace the state. -/
def set (s : σ) : Method ε σ Unit := fun _ => (.ok (), s)

/-- Change the state. -/
def modify (f : σ → σ) : Method ε σ Unit := fun s => (.ok (), f s)

/-- Fail with `e`. -/
def throw (e : ε) : Method ε σ α := fun s => (.error e, s)

/-- The value of an option, or the failure `e` when there is none. -/
def okOr (o : Option α) (e : ε) : Method ε σ α := fun s =>
  match o with
  | some a => (.ok a, s)
  | none => (.error e, s)

/-- The value of a result, or its failure. -/
def ofExcept (r : Except ε α) : Method ε σ α := fun s => (r, s)

/-- The method with `f` of its failure. -/
def mapError {ε' : Type} (f : ε → ε') (x : Method ε σ α) : Method ε' σ α := fun s =>
  match x s with
  | (.ok a, s') => (.ok a, s')
  | (.error e, s') => (.error (f e), s')

/-- Run a method on a scratch value `t`; its result and the value it leaves. -/
def scratch (t : τ) (x : Method ε τ α) : Method ε σ (α × τ) := fun s =>
  match x t with
  | (.ok a, t') => (.ok (a, t'), s)
  | (.error e, _) => (.error e, s)

@[simp] theorem run_pure (a : α) (s : σ) : (pure a : Method ε σ α).run s = (.ok a, s) := rfl

/-- The second part runs in the state in which the first one ended, unless that failed. -/
theorem run_bind (x : Method ε σ α) (f : α → Method ε σ β) (s : σ) :
    (x >>= f).run s = match x.run s with
      | (.ok a, s') => (f a).run s'
      | (.error e, s') => (.error e, s') := rfl

instance : LawfulMonad (Method ε σ) := LawfulMonad.mk' _
  (fun x => funext fun s => by
    show (match x s with | (.ok a, s') => (.ok a, s') | (.error e, s') => (.error e, s')) = x s
    rcases x s with ⟨_ | _, _⟩ <;> rfl)
  (fun _ _ => rfl)
  (fun x f g => funext fun s => by
    simp only [bind]
    rcases x s with ⟨_ | _, _⟩ <;> rfl)

/-- Running on after a first step that returned. -/
theorem run_bind_ok {x : Method ε σ α} {s s' : σ} {a : α} (f : α → Method ε σ β)
    (h : x.run s = (.ok a, s')) : (x >>= f).run s = (f a).run s' := by
  rw [run_bind, h]

/-- A first step that failed ends the method. -/
theorem run_bind_error {x : Method ε σ α} {s s' : σ} {e : ε} (f : α → Method ε σ β)
    (h : x.run s = (.error e, s')) : (x >>= f).run s = (.error e, s') := by
  rw [run_bind, h]

/-- A method that returned has run through both of its steps. -/
theorem run_bind_eq_ok {x : Method ε σ α} {f : α → Method ε σ β} {s t : σ} {b : β} :
    (x >>= f).run s = (.ok b, t) ↔
      ∃ a s', x.run s = (.ok a, s') ∧ (f a).run s' = (.ok b, t) := by
  rw [run_bind]
  rcases x.run s with ⟨e | a, s'⟩
  · simp
  · constructor
    · exact fun h => ⟨a, s', rfl, h⟩
    · intro h'
      obtain ⟨a', s'', heq, h⟩ := h'
      obtain ⟨ha, rfl⟩ := Prod.mk.inj heq
      obtain rfl := Except.ok.inj ha
      exact h

@[simp] theorem run_get (s : σ) : (get : Method ε σ σ).run s = (.ok s, s) := rfl

@[simp] theorem run_set (s t : σ) : (set t : Method ε σ Unit).run s = (.ok (), t) := rfl

@[simp] theorem run_modify (f : σ → σ) (s : σ) :
    (modify f : Method ε σ Unit).run s = (.ok (), f s) := rfl

@[simp] theorem run_throw (e : ε) (s : σ) :
    (throw e : Method ε σ α).run s = (.error e, s) := rfl

@[simp] theorem run_okOr_some (a : α) (e : ε) (s : σ) :
    (okOr (some a) e : Method ε σ α).run s = (.ok a, s) := rfl

@[simp] theorem run_okOr_none (e : ε) (s : σ) :
    (okOr none e : Method ε σ α).run s = (.error e, s) := rfl

/-- A first step that asks an option for the value it has. -/
theorem okOr_some_bind (a : α) (e : ε) (f : α → Method ε σ β) : okOr (some a) e >>= f = f a := rfl

/-- Where an option is asked for its value and there is one, it is that. -/
theorem run_okOr_eq_ok {o : Option α} {e : ε} {s s' : σ} {a : α} :
    (okOr o e : Method ε σ α).run s = (.ok a, s') ↔ o = some a ∧ s' = s := by
  cases o with
  | none => simp
  | some b => simp [eq_comm]

@[simp] theorem run_ofExcept (r : Except ε α) (s : σ) :
    (ofExcept r : Method ε σ α).run s = (r, s) := rfl

/-- Another name for the error changes nothing else. -/
theorem run_mapError {ε' : Type} (f : ε → ε') (x : Method ε σ α) (s : σ) :
    (mapError f x).run s = ((x.run s).1.mapError f, (x.run s).2) := by
  simp only [run, mapError]
  rcases x s with ⟨_ | _, _⟩ <;> rfl

@[simp] theorem mapError_pure {ε' : Type} (f : ε → ε') (a : α) :
    mapError f (pure a : Method ε σ α) = pure a := rfl

@[simp] theorem mapError_throw {ε' : Type} (f : ε → ε') (e : ε) :
    mapError f (throw e : Method ε σ α) = throw (f e) := rfl

/-- What is done after a first step, when the failures of both are mapped. -/
theorem mapError_bind {ε' : Type} (f : ε → ε') (x : Method ε σ α) (g : α → Method ε σ β) :
    mapError f (x >>= g) = mapError f x >>= fun a => mapError f (g a) := by
  funext s
  simp only [mapError, bind]
  rcases x s with ⟨_ | _, _⟩ <;> rfl

/-- Two ways to go on are the same where they agree on what the first step returns. -/
theorem bind_congr_run {x : Method ε σ α} {f g : α → Method ε σ β}
    (h : ∀ a s s', x.run s = (.ok a, s') → f a = g a) : x >>= f = x >>= g := by
  funext s
  show (x >>= f).run s = (x >>= g).run s
  rw [run_bind, run_bind]
  rcases hrun : x.run s with ⟨e | a, s'⟩
  · rfl
  · simp only [h a s s' hrun]

/-- A method on a state of its own hands back its value and the state it ended in. -/
theorem run_scratch_ok {x : Method ε τ α} {t t' : τ} {a : α} (s : σ)
    (h : x.run t = (.ok a, t')) : (scratch t x : Method ε σ (α × τ)).run s = (.ok (a, t'), s) := by
  simp only [run] at h
  simp only [run, scratch, h]

/-- One that fails there fails here, and its state is gone. -/
theorem run_scratch_error {x : Method ε τ α} {t t' : τ} {e : ε} (s : σ)
    (h : x.run t = (.error e, t')) : (scratch t x : Method ε σ (α × τ)).run s = (.error e, s) := by
  simp only [run] at h
  simp only [run, scratch, h]

end Method

/-! ## Memory -/

/-- What the allocator answers to the requests to come, in order. Past the end of
    the script every request succeeds, so `[]` is memory in plenty. -/
abbrev Mem := List Bool

/-- One request for memory; a refused one fails with `oom`. -/
def Mem.request {ε : Type} (oom : ε) : Method ε Mem Unit
  | [] => (.ok (), [])
  | granted :: rest => (if granted then .ok () else .error oom, rest)

namespace Method

variable {ε σ α β : Type}

/-- The state of a method that also allocates. -/
def self : Method ε (σ × Mem) σ := fun s => (.ok s.1, s)

/-- Replace the state of a method that also allocates. -/
def put (t : σ) : Method ε (σ × Mem) Unit := fun s => (.ok (), (t, s.2))

/-- Run a computation that only allocates. -/
def alloc (x : Method ε Mem α) : Method ε (σ × Mem) α := fun s =>
  match x s.2 with
  | (r, mem) => (r, (s.1, mem))

/-- Call a method on a local value `t`; the value it leaves comes back, and is lost
    when the method fails. -/
def onLocal {τ : Type} (x : Method ε (τ × Mem) α) (t : τ) : Method ε Mem τ := fun mem =>
  match x (t, mem) with
  | (.ok _, t', mem') => (.ok t', mem')
  | (.error e, _, mem') => (.error e, mem')

/-- Call a method on the part `t` of the state; `back` gives the state with another part
    in its place. -/
def focus {τ : Type} (t : τ) (back : τ → σ) (x : Method ε (τ × Mem) α) : Method ε (σ × Mem) α :=
  fun s => match x (t, s.2) with
    | (r, t', mem) => (r, (back t', mem))

@[simp] theorem run_self (s : σ × Mem) : (self : Method ε (σ × Mem) σ).run s = (.ok s.1, s) := rfl

@[simp] theorem run_put (t : σ) (s : σ × Mem) :
    (put t : Method ε (σ × Mem) Unit).run s = (.ok (), (t, s.2)) := rfl

theorem run_alloc (x : Method ε Mem α) (s : σ × Mem) :
    (alloc x).run s = ((x.run s.2).1, (s.1, (x.run s.2).2)) := rfl

end Method

/-- `x` computes `r`: with memory in plenty its outcome is `r` and it asks for nothing
    it does not get, and with any memory it has that outcome or runs out. -/
structure Computes {ε α : Type} (oom : ε) (x : Method ε Mem α) (r : Except ε α) : Prop where
  ample : x.run [] = (r, [])
  lean : ∀ mem, (x.run mem).1 = r ∨ (x.run mem).1 = .error oom

namespace Computes

variable {ε α β : Type} {oom : ε}

theorem pure (a : α) : Computes oom (Pure.pure a : Method ε Mem α) (.ok a) :=
  ⟨rfl, fun _ => .inl rfl⟩

theorem throw (e : ε) : Computes oom (Method.throw e : Method ε Mem α) (.error e) :=
  ⟨rfl, fun _ => .inl rfl⟩

theorem okOr (o : Option α) (e : ε) : Computes oom (Method.okOr o e : Method ε Mem α)
    (match o with | some a => .ok a | none => .error e) := by
  cases o <;> exact ⟨rfl, fun _ => .inl rfl⟩

/-- A request for memory comes to nothing else than memory or none. -/
theorem request : Computes oom (Mem.request oom) (.ok ()) := by
  refine ⟨rfl, fun mem => ?_⟩
  cases mem with
  | nil => exact .inl rfl
  | cons granted rest => cases granted <;> simp [Mem.request, Method.run]

/-- A first step that computes `a`, then one that computes `r` from it. -/
theorem bind {x : Method ε Mem α} {f : α → Method ε Mem β} {a : α} {r : Except ε β}
    (hx : Computes oom x (.ok a)) (hf : Computes oom (f a) r) : Computes oom (x >>= f) r := by
  refine ⟨by rw [Method.run_bind_ok f hx.ample, hf.ample], fun mem => ?_⟩
  rw [Method.run_bind]
  obtain h | h := hx.lean mem
  · rcases hrun : x.run mem with ⟨o, mem'⟩
    rw [hrun] at h
    subst h
    exact hf.lean mem'
  · rcases hrun : x.run mem with ⟨o, mem'⟩
    rw [hrun] at h
    subst h
    exact .inr rfl

/-- A first step that fails is the failure of the whole. -/
theorem bind_error {x : Method ε Mem α} {f : α → Method ε Mem β} {e : ε}
    (hx : Computes oom x (.error e)) : Computes oom (x >>= f) (.error e) := by
  refine ⟨Method.run_bind_error f hx.ample, fun mem => ?_⟩
  rw [Method.run_bind]
  rcases hrun : x.run mem with ⟨o, mem'⟩
  obtain h | h := hx.lean mem <;> rw [hrun] at h <;> subst h
  · exact .inl rfl
  · exact .inr rfl

/-- A fold whose steps compute the steps of a plain one. -/
theorem foldlM {x : β → α → Method ε Mem β} {f : β → α → β}
    (hx : ∀ b a, Computes oom (x b a) (.ok (f b a))) (b : β) (l : List α) :
    Computes oom (l.foldlM x b) (.ok (l.foldl f b)) := by
  induction l generalizing b with
  | nil => exact pure b
  | cons a l ih => exact (hx b a).bind (ih (f b a))

/-- A computation has one outcome. -/
theorem unique {x : Method ε Mem α} {r r' : Except ε α} (h : Computes oom x r)
    (h' : Computes oom x r') : r = r' := (Prod.mk.inj (h.ample.symm.trans h'.ample)).1

/-- A run that returned has returned what is computed. -/
theorem eq_of_ok {x : Method ε Mem α} {r : Except ε α} {mem mem' : Mem} {a : α}
    (hx : Computes oom x r) (h : x.run mem = (.ok a, mem')) : r = .ok a := by
  obtain h' | h' := hx.lean mem <;> rw [h] at h'
  · exact h'.symm
  · exact nomatch h'

end Computes

/-- Whatever `x` returns with some memory, it returns with memory in plenty. -/
def Firm {ε α : Type} (x : Method ε Mem α) : Prop :=
  ∀ mem mem' a, x.run mem = (.ok a, mem') → x.run [] = (.ok a, [])

namespace Firm

variable {ε ε' α β : Type} {oom : ε}

/-- What is computed with any memory is computed the same with plenty. -/
theorem of_computes {x : Method ε Mem α} {r : Except ε α} (h : Computes oom x r) : Firm x := by
  intro mem mem' a hrun
  rw [h.ample, h.eq_of_ok hrun]

theorem pure (a : α) : Firm (Pure.pure a : Method ε Mem α) := by
  intro mem mem' b hrun
  rw [← (Prod.mk.inj hrun).1]
  rfl

theorem throw (e : ε) : Firm (Method.throw e : Method ε Mem α) := fun _ _ _ hrun => nomatch hrun

theorem okOr (o : Option α) (e : ε) : Firm (Method.okOr o e : Method ε Mem α) := by
  cases o with
  | none => exact throw e
  | some a => exact pure a

/-- Parts that come to the same with plenty of memory do so one after the other. -/
theorem bind {x : Method ε Mem α} {f : α → Method ε Mem β} (hx : Firm x) (hf : ∀ a, Firm (f a)) :
    Firm (x >>= f) := by
  intro mem mem' b hrun
  obtain ⟨a, mem₁, hfirst, hrest⟩ := Method.run_bind_eq_ok.mp hrun
  rw [Method.run_bind_ok f (hx _ _ _ hfirst)]
  exact hf a _ _ _ hrest

/-- Renaming the error changes no value. -/
theorem mapError {x : Method ε Mem α} (hx : Firm x) (f : ε → ε') :
    Firm (Method.mapError f x) := by
  intro mem mem' a hrun
  rw [Method.run_mapError] at hrun ⊢
  rcases hfirst : x.run mem with ⟨e | b, mem₁⟩
  · rw [hfirst] at hrun
    cases hrun
  · rw [hfirst] at hrun
    obtain ⟨hb, rfl⟩ := Prod.mk.inj hrun
    obtain rfl := Except.ok.inj hb
    rw [hx _ _ _ hfirst]
    rfl

end Firm

/-- `x` is atomic on `s`: with memory in plenty it has the outcome `r` and leaves `s'`,
    and with any memory it does that, or runs out and leaves `s` as it was. -/
structure Atomic {ε σ α : Type} (oom : ε) (x : Method ε (σ × Mem) α) (s : σ)
    (r : Except ε α) (s' : σ) : Prop where
  ample : x.run (s, []) = (r, s', [])
  lean : ∀ mem, (x.run (s, mem)).1 = r ∧ (x.run (s, mem)).2.1 = s' ∨
    (x.run (s, mem)).1 = .error oom ∧ (x.run (s, mem)).2.1 = s

namespace Atomic

variable {ε σ α β : Type} {oom : ε}

theorem pure (a : α) (s : σ) : Atomic oom (Pure.pure a) s (.ok a) s :=
  ⟨rfl, fun _ => .inl ⟨rfl, rfl⟩⟩

/-- Writing the new state as the last step. -/
theorem put (s s' : σ) : Atomic oom (Method.put s') s (.ok ()) s' :=
  ⟨rfl, fun _ => .inl ⟨rfl, rfl⟩⟩

/-- Writing the new state and returning. -/
theorem put_pure (s s' : σ) (a : α) :
    Atomic oom (Method.put s' >>= fun _ => Pure.pure a) s (.ok a) s' :=
  ⟨rfl, fun _ => .inl ⟨rfl, rfl⟩⟩

/-- Reading the state, before an atomic rest. -/
theorem self_bind {f : σ → Method ε (σ × Mem) α} {s s' : σ} {r : Except ε α}
    (hf : Atomic oom (f s) s r s') : Atomic oom (Method.self >>= f) s r s' :=
  ⟨hf.ample, hf.lean⟩

/-- A step that only allocates, before an atomic rest. -/
theorem alloc_bind {x : Method ε Mem α} {f : α → Method ε (σ × Mem) β} {s s' : σ} {a : α}
    {r : Except ε β} (hx : Computes oom x (.ok a)) (hf : Atomic oom (f a) s r s') :
    Atomic oom (Method.alloc x >>= f) s r s' := by
  refine ⟨?_, fun mem => ?_⟩
  · have halloc : (Method.alloc x : Method ε (σ × Mem) α).run (s, []) = (.ok a, s, []) := by
      rw [Method.run_alloc, hx.ample]
    rw [Method.run_bind_ok f halloc, hf.ample]
  · rcases hrun : x.run mem with ⟨o, mem'⟩
    have halloc : (Method.alloc x : Method ε (σ × Mem) α).run (s, mem) = (o, s, mem') := by
      rw [Method.run_alloc, hrun]
    rw [Method.run_bind, halloc]
    obtain h | h := hx.lean mem <;> rw [hrun] at h <;> subst h
    · exact hf.lean mem'
    · exact .inr ⟨rfl, rfl⟩

/-- An atomic method on a local value computes the value it leaves. -/
theorem onLocal {x : Method ε (σ × Mem) α} {s s' : σ} {a : α} (hx : Atomic oom x s (.ok a) s') :
    Computes oom (x.onLocal s) (.ok s') := by
  refine ⟨?_, fun mem => ?_⟩
  · have h := hx.ample
    simp only [Method.run] at h
    simp only [Method.run, Method.onLocal, h]
  · have h := hx.lean mem
    simp only [Method.run] at h
    simp only [Method.run, Method.onLocal]
    rcases hrun : x (s, mem) with ⟨o, t, mem'⟩
    rw [hrun] at h
    obtain ⟨h₁, h₂⟩ | ⟨h₁, h₂⟩ := h <;> simp only at h₁ h₂ <;> subst h₁ h₂
    · exact .inl rfl
    · exact .inr rfl

/-- An atomic method on a part of the state. -/
theorem focus {τ : Type} {x : Method ε (τ × Mem) α} {t t' : τ} {back : τ → σ} {s : σ}
    {r : Except ε α} (hx : Atomic oom x t r t') (hs : back t = s) :
    Atomic oom (Method.focus t back x) s r (back t') := by
  refine ⟨?_, fun mem => ?_⟩
  · have h := hx.ample
    simp only [Method.run] at h
    simp only [Method.run, Method.focus, h]
  · have h := hx.lean mem
    simp only [Method.run] at h
    simp only [Method.run, Method.focus]
    obtain ⟨h₁, h₂⟩ | ⟨h₁, h₂⟩ := h
    · exact .inl ⟨h₁, by rw [h₂]⟩
    · exact .inr ⟨h₁, by rw [h₂, hs]⟩

/-- An atomic method, and something else to return. -/
theorem bind_pure {x : Method ε (σ × Mem) α} {s s' : σ} {a : α} (hx : Atomic oom x s (.ok a) s')
    (f : α → β) : Atomic oom (x >>= fun a => Pure.pure (f a)) s (.ok (f a)) s' := by
  refine ⟨by rw [Method.run_bind_ok _ hx.ample]; rfl, fun mem => ?_⟩
  rw [Method.run_bind]
  rcases hrun : x.run (s, mem) with ⟨o, t, mem'⟩
  have h := hx.lean mem
  rw [hrun] at h
  obtain ⟨h₁, h₂⟩ | ⟨h₁, h₂⟩ := h <;> simp only at h₁ h₂ <;> subst h₁ h₂
  · exact .inl ⟨rfl, rfl⟩
  · exact .inr ⟨rfl, rfl⟩

/-- A run that returned has done the whole of it. -/
theorem eq_of_ok {x : Method ε (σ × Mem) α} {s s' t : σ} {mem mem' : Mem} {r : Except ε α} {a : α}
    (hx : Atomic oom x s r s') (h : x.run (s, mem) = (.ok a, t, mem')) : r = .ok a ∧ t = s' := by
  obtain ⟨h₁, h₂⟩ | ⟨h₁, -⟩ := hx.lean mem <;> rw [h] at h₁
  · rw [h] at h₂
    exact ⟨h₁.symm, h₂⟩
  · exact nomatch h₁

/-- Whatever memory does, the state left is the one before or the one after. -/
theorem state {x : Method ε (σ × Mem) α} {s s' : σ} {r : Except ε α}
    (hx : Atomic oom x s r s') (mem : Mem) :
    (x.run (s, mem)).2.1 = s' ∨ (x.run (s, mem)).2.1 = s := by
  obtain ⟨-, h⟩ | ⟨-, h⟩ := hx.lean mem
  · exact .inl h
  · exact .inr h

end Atomic

end ForStd

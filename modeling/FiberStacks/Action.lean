/-!
# Actions

An action runs on a state and either returns a value or stops with a cause; the state it has reached by then is
there in both cases.

* `Action.bind_apply`, `Action.pure_apply` — sequencing, state by state;
* `Action.stop`, `Action.ofExcept` — stopping;
* `Action.attempt` — running an action and looking at how it ended.
-/

namespace FiberStacks

/-- A computation on a state that returns or stops: exceptions over state, so that the state outlasts a stop. -/
def Action (ε σ α : Type) : Type := ExceptT ε (StateM σ) α

namespace Action

variable {ε σ α β : Type}

instance : Monad (Action ε σ) := inferInstanceAs (Monad (ExceptT ε (StateM σ)))

instance : LawfulMonad (Action ε σ) := inferInstanceAs (LawfulMonad (ExceptT ε (StateM σ)))

theorem pure_apply (a : α) (s : σ) : (pure a : Action ε σ α) s = (.ok a, s) := rfl

theorem bind_apply (x : Action ε σ α) (f : α → Action ε σ β) (s : σ) :
    (x >>= f) s = match x s with
      | (.ok a, s') => f a s'
      | (.error e, s') => (.error e, s') := by
  change (match x s with | (r, s') => ExceptT.bindCont f r s') = _
  rcases x s with ⟨_ | _, _⟩ <;> rfl

@[simp] theorem ended_inj {x y : Except ε α} {s t : σ} :
    @Eq (Id (Except ε α × σ)) (x, s) (y, t) ↔ x = y ∧ s = t :=
  Prod.ext_iff

theorem bind_of_ok {x : Action ε σ α} {f : α → Action ε σ β} {s s' : σ} {a : α} (h : x s = (.ok a, s')) :
    (x >>= f) s = f a s' := by
  rw [bind_apply, h]

theorem bind_of_error {x : Action ε σ α} {f : α → Action ε σ β} {s s' : σ} {e : ε} (h : x s = (.error e, s')) :
    (x >>= f) s = (.error e, s') := by
  rw [bind_apply, h]

def state : Action ε σ σ := fun s => (.ok s, s)

def view (f : σ → α) : Action ε σ α := fun s => (.ok (f s), s)

def modify (f : σ → σ) : Action ε σ Unit := fun s => (.ok (), f s)

def stop (e : ε) : Action ε σ α := fun s => (.error e, s)

/-- Return or stop as told, with the state as it is. -/
def ofExcept (x : Except ε α) : Action ε σ α := fun s => (x, s)

/-- Run an action and return how it ended. -/
def attempt {ε' : Type} (a : Action ε σ α) : Action ε' σ (Except ε α) := fun s =>
  let r := a s
  (.ok r.1, r.2)

end Action

end FiberStacks

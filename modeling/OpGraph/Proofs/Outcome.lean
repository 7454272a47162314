import OpGraph.Decoding

/-!
# What an action comes to

A visiting action leaves a state behind even when it fails, but nothing reads that state.  Its
outcome keeps the state of a success only, and outcomes compose like plain fallible functions of
the state.
-/

namespace OpGraph

namespace View.Visit

variable {σ α β : Type}

theorem run_bind (act : Visit σ α) (f : α → Visit σ β) (s : σ) :
    (act >>= f).run.run s =
      match act.run.run s with
      | (.ok a, t) => (f a).run.run t
      | (.error e, t) => (.error e, t) := by
  rw [ExceptT.run_bind, StateT.run_bind]
  rcases act.run.run s with ⟨a | e, t⟩ <;> rfl

theorem run_adapt (f : Fault → Fault) (act : Visit σ α) (s : σ) :
    (ExceptT.adapt f act).run.run s = ((act.run.run s).1.mapError f, (act.run.run s).2) := rfl

/-- The result of an action with the state after it, or its fault. -/
def outcome (act : Visit σ α) (s : σ) : Except Fault (α × σ) :=
  match act.run.run s with
  | (.ok a, t) => .ok (a, t)
  | (.error e, _) => .error e

@[simp] theorem outcome_pure (a : α) (s : σ) :
    outcome (pure a : Visit σ α) s = .ok (a, s) := rfl

theorem outcome_bind (act : Visit σ α) (f : α → Visit σ β) (s : σ) :
    outcome (act >>= f) s = (outcome act s).bind fun r => outcome (f r.1) r.2 := by
  unfold outcome
  rw [run_bind]
  rcases act.run.run s with ⟨a | e, t⟩ <;> rfl

@[simp] theorem outcome_throw (e : Fault) (s : σ) :
    outcome (throw e : Visit σ α) s = .error e := rfl

@[simp] theorem outcome_get (s : σ) : outcome (get : Visit σ σ) s = .ok (s, s) := rfl

@[simp] theorem outcome_set (s t : σ) : outcome (set t : Visit σ PUnit) s = .ok (⟨⟩, t) := rfl

@[simp] theorem outcome_modify (f : σ → σ) (s : σ) :
    outcome (modify f : Visit σ PUnit) s = .ok (⟨⟩, f s) := rfl

theorem outcome_liftExcept (x : Except Fault α) (s : σ) :
    outcome (liftExcept x : Visit σ α) s = x.map fun a => (a, s) := by
  cases x <;> rfl

theorem outcome_adapt (f : Fault → Fault) (act : Visit σ α) (s : σ) :
    outcome (ExceptT.adapt f act) s = (outcome act s).mapError f := by
  unfold outcome
  rw [run_adapt]
  rcases act.run.run s with ⟨a | e, t⟩ <;> rfl

end View.Visit

end OpGraph

/-!
# Steps with a state

Reading tokens, running a program and running sources are all done in steps that
have a state and may fail. What such steps do from a given state, one after
another.
-/

namespace Lox

variable {ε σ α β : Type} {s after : σ}

/-- Two steps in a row, on a state: the second one starts where the first one ended. -/
theorem bind_apply (p : EStateM ε σ α) (f : α → EStateM ε σ β) (s : σ) :
    (p >>= f) s = match p s with
      | .ok a after => f a after
      | .error e after => .error e after := by
  change EStateM.bind p f s = _
  unfold EStateM.bind
  cases p s <;> rfl

/-- A second step starts where the first one ended. -/
theorem bind_of_ok {p : EStateM ε σ α} {f : α → EStateM ε σ β} {a : α}
    (h : p s = .ok a after) : (p >>= f) s = f a after := by
  rw [bind_apply, h]

/-- Two steps that yield something both do. -/
theorem bind_eq_ok {p : EStateM ε σ α} {f : α → EStateM ε σ β} {b : β}
    (h : (p >>= f) s = .ok b after) : ∃ a s', p s = .ok a s' ∧ f a s' = .ok b after := by
  rw [bind_apply] at h
  cases hp : p s with
  | ok a s' =>
    rw [hp] at h
    exact ⟨a, s', rfl, h⟩
  | error e s' =>
    rw [hp] at h
    cases h

/-- A step that looks at the state first. -/
theorem get_bind_apply (f : σ → EStateM ε σ α) (s : σ) :
    ((get : EStateM ε σ σ) >>= f) s = f s s := rfl

/-- A change of the state that also yields something always succeeds. -/
theorem modifyGet_apply (f : σ → α × σ) (s : σ) :
    (modifyGet f : EStateM ε σ α) s = .ok (f s).1 (f s).2 := rfl

end Lox

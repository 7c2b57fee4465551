import Lox.Proofs.Stateful
import Lox.Proofs.Value

/-!
# Runs that match

Two runs on machines of different kinds match if they end alike: both yield a
value or both halt, and what they leave behind is in a given relation. A run
that used up its bound matches every other, so nothing is said about runs that
were cut short, and the second run may have the greater bound.

The operators of the language neither look at the machine nor change it, so
they are treated once, for machines of any kind.
-/

namespace Lox

variable {α β α' β' σ τ ε δ : Type}

/-- Two ends of a run that correspond. -/
def Matches (ok : α → σ → β → τ → Prop) (halt : Halt → σ → Halt → τ → Prop) :
    EStateM.Result Halt σ α → EStateM.Result Halt τ β → Prop
  | .error .exhausted _, _ => True
  | .ok a s, .ok b t => ok a s b t
  | .error h s, .error h' t => halt h s h' t
  | .ok _ _, .error _ _ => False
  | .error _ _, .ok _ _ => False

/-- The end of a run with a change of what is left behind. -/
def onState (f : σ → σ) : EStateM.Result Halt σ α → EStateM.Result Halt σ α
  | .ok a s => .ok a (f s)
  | .error e s => .error e (f s)

/-- Nothing is changed by the change that does nothing. -/
theorem onState_id (r : EStateM.Result Halt σ α) : onState id r = r := by
  cases r <;> rfl

/-- A step in another environment, which is left afterwards. -/
theorem inEnv_apply (env : Env) (p : Eval α) (m : Machine) : Eval.inEnv env p m =
    onState (fun after => { after with env := m.env }) (p { m with env := env }) := by
  unfold Eval.inEnv
  cases p { m with env := env } <;> rfl

/-- A step as one more call, which is over afterwards. -/
theorem asCall_apply (p : Eval α) (m : Machine) : Eval.asCall p m =
    onState (fun after => { after with calls := after.calls - 1 })
      (p { m with calls := m.calls + 1 }) := by
  unfold Eval.asCall
  cases p { m with calls := m.calls + 1 } <;> rfl

namespace Matches

variable {ok : α → σ → β → τ → Prop} {ok' : α' → σ → β' → τ → Prop}
  {halt halt' : Halt → σ → Halt → τ → Prop}

/-- A run that is cut short by its bound matches whatever the other one does. -/
theorem exhausted (s : σ) (r : EStateM.Result Halt τ β) :
    Matches ok halt (.error .exhausted s) r := by
  cases r <;> trivial

/-- Runs that halt match if their reasons and the states left behind do. -/
theorem error {h h' : Halt} {s : σ} {t : τ} (hh : halt h s h' t) :
    Matches ok halt (.error h s) (.error h' t) := by
  cases h <;> first | exact hh | trivial

/-- The three ways in which ends match. -/
theorem inversion {r : EStateM.Result Halt σ α} {r' : EStateM.Result Halt τ β}
    (h : Matches ok halt r r') :
    (∃ s, r = .error .exhausted s) ∨
    (∃ a s b t, r = .ok a s ∧ r' = .ok b t ∧ ok a s b t) ∨
    ∃ e s e' t, r = .error e s ∧ r' = .error e' t ∧ halt e s e' t := by
  cases r with
  | ok a s =>
    cases r' with
    | ok b t => exact .inr (.inl ⟨a, s, b, t, rfl, rfl, h⟩)
    | error e' t => exact h.elim
  | error e s =>
    cases e with
    | exhausted => exact .inl ⟨s, rfl⟩
    | error e =>
      cases r' with
      | ok b t => exact h.elim
      | error e' t => exact .inr (.inr ⟨_, s, e', t, rfl, rfl, h⟩)
    | fault e =>
      cases r' with
      | ok b t => exact h.elim
      | error e' t => exact .inr (.inr ⟨_, s, e', t, rfl, rfl, h⟩)

/-- Ends that match still do after a change of what is left behind. -/
theorem onState {ok₂ : α → σ → β → τ → Prop} {r : EStateM.Result Halt σ α}
    {r' : EStateM.Result Halt τ β} (h : Matches ok halt r r') (f : σ → σ) (g : τ → τ)
    (hok : ∀ a s b t, ok a s b t → ok₂ a (f s) b (g t))
    (hhalt : ∀ h s h' t, halt h s h' t → halt' h (f s) h' (g t)) :
    Matches ok₂ halt' (Lox.onState f r) (Lox.onState g r') := by
  rcases h.inversion with ⟨s, rfl⟩ | ⟨a, s, b, t, rfl, rfl, hab⟩ | ⟨e, s, e', t, rfl, rfl, he⟩
  · exact exhausted (f s) _
  · exact hok a s b t hab
  · exact error (hhalt e s e' t he)

/-- More may be demanded of matching runs if less is promised of them. -/
theorem mono {ok₂ : α → σ → β → τ → Prop} {r : EStateM.Result Halt σ α}
    {r' : EStateM.Result Halt τ β} (h : Matches ok halt r r')
    (hok : ∀ a s b t, ok a s b t → ok₂ a s b t)
    (hhalt : ∀ h s h' t, halt h s h' t → halt' h s h' t) : Matches ok₂ halt' r r' := by
  have hsame : Matches ok₂ halt' (Lox.onState id r) (Lox.onState id r') := h.onState id id hok hhalt
  rwa [onState_id, onState_id] at hsame

/-- Runs one after another match if each matches. -/
theorem bind {p : EStateM Halt σ α} {q : EStateM Halt τ β} {f : α → EStateM Halt σ α'}
    {g : β → EStateM Halt τ β'} {s : σ} {t : τ} (h : Matches ok halt (p s) (q t))
    (hf : ∀ a s b t, ok a s b t → Matches ok' halt (f a s) (g b t)) :
    Matches ok' halt ((p >>= f) s) ((q >>= g) t) := by
  rw [bind_apply, bind_apply]
  rcases h.inversion with ⟨s, hp⟩ | ⟨a, s, b, t, hp, hq, hab⟩ | ⟨e, s, e', t, hp, hq, he⟩
  · rw [hp]
    exact exhausted s _
  · rw [hp, hq]
    exact hf a s b t hab
  · rw [hp, hq]
    exact error he

end Matches

/-- Steps that leave the machine alone and either yield values that agree or
fail for the same cause on corresponding lines. -/
def Steady (L : Nat → Nat → Prop) (A : α → β → Prop) (p : EStateM Halt σ α)
    (q : EStateM Halt τ β) : Prop :=
  ∀ s t, (∃ a b, p s = .ok a s ∧ q t = .ok b t ∧ A a b) ∨
    ∃ line line' cause, L line line' ∧ p s = .error (.error ⟨line, cause⟩) s ∧
      q t = .error (.error ⟨line', cause⟩) t

namespace Steady

variable {L : Nat → Nat → Prop} {A : α → β → Prop}

/-- Steps that yield related values at once, on any states. -/
theorem pure {a : α} {b : β} (h : A a b) :
    Steady (σ := σ) (τ := τ) L A (pure a) (pure b) :=
  fun _ _ => .inl ⟨a, b, rfl, rfl, h⟩

/-- Steps that fail for one cause, on lines that correspond. -/
theorem fail {line line' : Nat} (h : L line line') (cause : RuntimeCause) :
    Steady (σ := σ) (τ := τ) L A (Eval.fail line cause) (Eval.fail line' cause) :=
  fun _ _ => .inr ⟨line, line', cause, h, rfl, rfl⟩

end Steady

section Operators

variable {L : Nat → Nat → Prop} {F M : Closure ε → Closure δ → Prop} {v w : Value ε}
  {v' w' : Value δ} {line line' : Nat}

/-- Unary operators treat related values alike. -/
theorem steady_applyUnary (hv : Value.Rel F M v v') (hl : L line line') (op : UnaryOp) :
    Steady (σ := σ) (τ := τ) L (Value.Rel F M) (Eval.applyUnary op line v)
      (Eval.applyUnary op line' v') := by
  cases op with
  | not =>
    rw [Eval.applyUnary, Eval.applyUnary, hv.isTruthy_eq]
    exact .pure (.bool _)
  | negate =>
    cases hv with
    | number x => exact .pure (.number _)
    | _ => exact .fail hl _

/-- Operators on two numbers treat related values alike, provided that their results are
related for the same numbers. -/
theorem steady_numeric (hv : Value.Rel F M v v') (hw : Value.Rel F M w w') (hl : L line line')
    {apply : Float → Float → Value ε} {apply' : Float → Float → Value δ}
    (ha : ∀ x y, Value.Rel F M (apply x y) (apply' x y)) :
    Steady (σ := σ) (τ := τ) L (Value.Rel F M) (Eval.numeric line v w apply)
      (Eval.numeric line' v' w' apply') := by
  cases hv with
  | number x =>
    cases hw with
    | number y => exact .pure (ha x y)
    | _ => exact .fail hl _
  | _ => exact .fail hl _

/-- Addition treats related values alike, be they numbers or strings. -/
theorem steady_add (hv : Value.Rel F M v v') (hw : Value.Rel F M w w') (hl : L line line') :
    Steady (σ := σ) (τ := τ) L (Value.Rel F M) (Eval.add line v w) (Eval.add line' v' w') := by
  cases hv with
  | number x =>
    cases hw with
    | number y => exact .pure (.number _)
    | _ => exact .fail hl _
  | string x =>
    cases hw with
    | string y => exact .pure (.string _)
    | _ => exact .fail hl _
  | _ => exact .fail hl _

/-- Binary operators treat related values alike. Comparing for equality never fails. -/
theorem steady_applyBinary (hv : Value.Rel F M v v') (hw : Value.Rel F M w w')
    (hl : L line line') (op : BinaryOp) :
    Steady (σ := σ) (τ := τ) L (Value.Rel F M) (Eval.applyBinary op line v w)
      (Eval.applyBinary op line' v' w') := by
  cases op with
  | add => exact steady_add hv hw hl
  | equal =>
    rw [Eval.applyBinary, Eval.applyBinary, hv.equals_eq hw]
    exact .pure (.bool _)
  | notEqual =>
    rw [Eval.applyBinary, Eval.applyBinary, hv.equals_eq hw]
    exact .pure (.bool _)
  | subtract => exact steady_numeric hv hw hl fun _ _ => .number _
  | multiply => exact steady_numeric hv hw hl fun _ _ => .number _
  | divide => exact steady_numeric hv hw hl fun _ _ => .number _
  | greater => exact steady_numeric hv hw hl fun _ _ => .bool _
  | greaterEqual => exact steady_numeric hv hw hl fun _ _ => .bool _
  | less => exact steady_numeric hv hw hl fun _ _ => .bool _
  | lessEqual => exact steady_numeric hv hw hl fun _ _ => .bool _

/-- Related values are one and the same object, or neither is an object. -/
theorem steady_expectObject (hv : Value.Rel F M v v') (hl : L line line') :
    Steady (σ := σ) (τ := τ) L (· = ·) (Eval.expectObject v line) (Eval.expectObject v' line') := by
  cases hv with
  | object h => exact .pure rfl
  | _ => exact .fail hl _

end Operators

end Lox

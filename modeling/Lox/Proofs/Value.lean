import Mathlib.Data.List.Forall2
import Lox.Evaluation

/-!
# Values that agree

Two runs that keep their environments in different ways compute values that
agree in all but the environments of their closures. How closures correspond is
a parameter: one relation for functions, which are ready to be called, and one
for the methods of classes, which are not yet bound to an object. What can be
observed of a value without calling it does not depend on its closures beyond
their names and their numbers of parameters.
-/

namespace Lox

variable {ε δ : Type}

/-- Closures that cannot be told apart without calling them. -/
structure Closure.Alike (c : Closure ε) (d : Closure δ) : Prop where
  /-- They have the same name. -/
  name : c.name = d.name
  /-- They take as many arguments. -/
  arity : c.arity = d.arity
  /-- Both are initializers or none is. -/
  isInitializer : c.isInitializer = d.isInitializer

/-- Classes of one identity and name with corresponding methods, up the chain of
their superclasses. -/
inductive Class.Rel (M : Closure ε → Closure δ → Prop) : Class ε → Class δ → Prop where
  /-- Classes without a superclass correspond if their methods do. -/
  | base {id : Nat} {name : String} {ms : List (Closure ε)} {ns : List (Closure δ)}
      (h : List.Forall₂ M ms ns) : Rel M ⟨id, name, none, ms⟩ ⟨id, name, none, ns⟩
  /-- Classes with a superclass correspond if their superclasses and their methods do. -/
  | derived {id : Nat} {name : String} {s : Class ε} {t : Class δ} {ms : List (Closure ε)}
      {ns : List (Closure δ)} (hs : Rel M s t) (h : List.Forall₂ M ms ns) :
      Rel M ⟨id, name, some s, ms⟩ ⟨id, name, some t, ns⟩

/-- Values that agree but for their closures. -/
inductive Value.Rel (F M : Closure ε → Closure δ → Prop) : Value ε → Value δ → Prop where
  /-- The value of nothing corresponds to itself. -/
  | nil : Rel F M .nil .nil
  /-- A truth value corresponds to itself. -/
  | bool (b : Bool) : Rel F M (.bool b) (.bool b)
  /-- A number corresponds to itself. -/
  | number (x : Float) : Rel F M (.number x) (.number x)
  /-- A string corresponds to itself. -/
  | string (s : String) : Rel F M (.string s) (.string s)
  /-- A native function corresponds to itself. -/
  | native (id : Nat) (f : Native) : Rel F M (.native id f) (.native id f)
  /-- Functions with one identity correspond if their closures do. -/
  | function {id : Nat} {c : Closure ε} {d : Closure δ} (h : F c d) :
      Rel F M (.function id c) (.function id d)
  /-- Classes correspond as classes. -/
  | cls {c : Class ε} {d : Class δ} (h : Class.Rel M c d) : Rel F M (.cls c) (.cls d)
  /-- Objects with one index correspond if their classes do. -/
  | object {id : Nat} {c : Class ε} {d : Class δ} (h : Class.Rel M c d) :
      Rel F M (.object id c) (.object id d)

section Relations

variable {F F' M M' : Closure ε → Closure δ → Prop} {c : Class ε} {d : Class δ}
  {v w : Value ε} {v' w' : Value δ}

/-- Classes are related by a weaker relation on methods too. -/
theorem Class.Rel.mono (hM : ∀ c d, M c d → M' c d) (h : Class.Rel M c d) : Class.Rel M' c d := by
  induction h with
  | base h => exact .base (h.imp hM)
  | derived _ h ih => exact .derived ih (h.imp hM)

/-- Values are related by weaker relations on functions and methods too. -/
theorem Value.Rel.mono (hF : ∀ c d, F c d → F' c d) (hM : ∀ c d, M c d → M' c d)
    (h : Value.Rel F M v v') : Value.Rel F' M' v v' := by
  cases h with
  | nil => exact .nil
  | bool b => exact .bool b
  | number x => exact .number x
  | string s => exact .string s
  | native id f => exact .native id f
  | function h => exact .function (hF _ _ h)
  | cls h => exact .cls (h.mono hM)
  | object h => exact .object (h.mono hM)

/-- Related classes have one identity. -/
theorem Class.Rel.id_eq (h : Class.Rel M c d) : c.id = d.id := by
  cases h <;> rfl

/-- Related classes have one name. -/
theorem Class.Rel.name_eq (h : Class.Rel M c d) : c.name = d.name := by
  cases h <;> rfl

/-- Two optional values that are both missing or agree. -/
inductive OptionRel {α β : Type} (R : α → β → Prop) : Option α → Option β → Prop where
  /-- Both are missing. -/
  | none : OptionRel R none none
  /-- Both are there and related. -/
  | some {a : α} {b : β} (h : R a b) : OptionRel R (some a) (some b)

/-- Related options are both empty, or both have something related. -/
theorem OptionRel.inversion {α β : Type} {R : α → β → Prop} {a : Option α} {b : Option β}
    (h : OptionRel R a b) :
    (a = .none ∧ b = .none) ∨ ∃ x y, a = .some x ∧ b = .some y ∧ R x y := by
  cases h with
  | none => exact .inl ⟨rfl, rfl⟩
  | some h => exact .inr ⟨_, _, rfl, rfl, h⟩

/-- Of related methods, those that a name finds are related. -/
theorem ownMethod?_rel (hM : ∀ c d, M c d → c.Alike d) {ms : List (Closure ε)}
    {ns : List (Closure δ)} (h : List.Forall₂ M ms ns) (text : String) :
    OptionRel M (Class.ownMethod? ms text) (Class.ownMethod? ns text) := by
  induction h with
  | nil => exact .none
  | @cons c d ms ns hcd _ ih =>
    unfold Class.ownMethod? at ih ⊢
    rw [List.find?_cons, List.find?_cons, (hM c d hcd).name]
    split
    · exact .some hcd
    · exact ih

/-- Methods that are found up the chains of related classes are related. -/
theorem Class.Rel.findMethod? (hM : ∀ c d, M c d → c.Alike d) (h : Class.Rel M c d)
    (text : String) : OptionRel M (c.findMethod? text) (d.findMethod? text) := by
  induction h with
  | base h =>
    rw [Class.findMethod?, Class.findMethod?]
    exact ownMethod?_rel hM h text
  | @derived _ _ s t ms ns _ h ih =>
    rw [Class.findMethod?, Class.findMethod?]
    rcases (ownMethod?_rel hM h text).inversion with ⟨hs, ht⟩ | ⟨m, n, hs, ht, hmn⟩
    · rw [hs, ht]
      exact ih
    · rw [hs, ht]
      exact .some hmn

/-- Related classes take the same number of arguments. -/
theorem Class.Rel.arity_eq (hM : ∀ c d, M c d → c.Alike d) (h : Class.Rel M c d) :
    c.arity = d.arity := by
  unfold Class.arity Class.initializer?
  rcases (h.findMethod? hM initializerName).inversion with ⟨hc, hd⟩ | ⟨m, n, hc, hd, hmn⟩
  · rw [hc, hd]
  · rw [hc, hd]
    exact (hM m n hmn).arity

/-- Related values are equally truthy. -/
theorem Value.Rel.isTruthy_eq (h : Value.Rel F M v v') : v.isTruthy = v'.isTruthy := by
  cases h <;> rfl

/-- A logical operator is decided by either of two related values, or by neither. -/
theorem Value.Rel.isDecided_eq (h : Value.Rel F M v v') (op : LogicalOp) :
    op.isDecided v = op.isDecided v' := by
  cases op <;> simp only [LogicalOp.isDecided, h.isTruthy_eq]

/-- Values are equal if those related to them are. -/
theorem Value.Rel.equals_eq (hv : Value.Rel F M v v') (hw : Value.Rel F M w w') :
    v.equals w = v'.equals w' := by
  cases hv with
  | cls h =>
    cases hw with
    | cls h' => rw [Value.equals, Value.equals, h.id_eq, h'.id_eq]
    | _ => rfl
  | _ => cases hw <;> rfl

/-- Related values are printed in the same way. -/
theorem Value.Rel.display_eq (hF : ∀ c d, F c d → c.Alike d) (h : Value.Rel F M v v') :
    v.display = v'.display := by
  cases h with
  | function h => rw [Value.display, Value.display, (hF _ _ h).name]
  | cls h => exact h.name_eq
  | object h => rw [Value.display, Value.display, h.name_eq]
  | _ => rfl

/-- Callables that agree but for their closures. -/
inductive Callable.Rel (F M : Closure ε → Closure δ → Prop) : Callable ε → Callable δ → Prop where
  /-- A native function corresponds to itself. -/
  | native (f : Native) : Rel F M (.native f) (.native f)
  /-- Functions correspond if their closures do. -/
  | function {c : Closure ε} {d : Closure δ} (h : F c d) : Rel F M (.function c) (.function d)
  /-- Classes correspond as classes. -/
  | cls {c : Class ε} {d : Class δ} (h : Class.Rel M c d) : Rel F M (.cls c) (.cls d)

/-- Of related values either both can be called or neither can, and what they are called
as is related. -/
theorem Value.Rel.callable? (h : Value.Rel F M v v') :
    OptionRel (Callable.Rel F M) v.callable? v'.callable? := by
  cases h with
  | native id f => exact .some (.native f)
  | function h => exact .some (.function h)
  | cls h => exact .some (.cls h)
  | _ => exact .none

/-- Related callables take the same number of arguments. -/
theorem Callable.Rel.arity_eq (hF : ∀ c d, F c d → c.Alike d) (hM : ∀ c d, M c d → c.Alike d)
    {c : Callable ε} {d : Callable δ} (h : Callable.Rel F M c d) : c.arity = d.arity := by
  cases h with
  | native f => rfl
  | function h => exact (hF _ _ h).arity
  | cls h => exact h.arity_eq hM

end Relations

/-- Bindings of the same names in the same order to values that agree. -/
abbrev Bindings.Rel (V : Value ε → Value δ → Prop) : Bindings ε → Bindings δ → Prop :=
  List.Forall₂ fun p q => p.1 = q.1 ∧ V p.2 q.2

namespace Bindings.Rel

variable {V V' : Value ε → Value δ → Prop} {a : Bindings ε} {b : Bindings δ}

/-- Bindings are related by a weaker relation on values too. -/
theorem mono (hV : ∀ v w, V v w → V' v w) (h : Bindings.Rel V a b) : Bindings.Rel V' a b :=
  List.Forall₂.imp (fun _ _ hp => ⟨hp.1, hV _ _ hp.2⟩) h

/-- A name has related values in related bindings. -/
theorem get? (h : Bindings.Rel V a b) (text : String) :
    OptionRel V (a.get? text) (b.get? text) := by
  induction h with
  | nil => exact .none
  | @cons p q a b hpq _ ih =>
    rw [Bindings.get?, Bindings.get?, hpq.1]
    split
    · exact .some hpq.2
    · exact ih

/-- Bindings stay related when related values are inserted under one name. -/
theorem insert (h : Bindings.Rel V a b) {v : Value ε} {w : Value δ} (hv : V v w) (text : String) :
    Bindings.Rel V (a.insert text v) (b.insert text w) := by
  induction h with
  | nil => exact .cons ⟨rfl, hv⟩ .nil
  | @cons p q a b hpq hab ih =>
    rw [Bindings.insert, Bindings.insert, hpq.1]
    split
    · exact .cons ⟨rfl, hv⟩ hab
    · exact .cons ⟨rfl, hpq.2⟩ ih

/-! Frames and fields are kept in arrays, and bindings outside of them are empty. -/

variable {xs : Array (Bindings ε)} {ys : Array (Bindings δ)}

/-- Frames at one place in related arrays are related. -/
theorem getD (h : List.Forall₂ (Bindings.Rel V) xs.toList ys.toList) (i : Nat) :
    Bindings.Rel V (xs.getD i []) (ys.getD i []) := by
  rw [List.forall₂_iff_get] at h
  obtain ⟨hlen, hget⟩ := h
  simp only [Array.length_toList] at hlen
  by_cases hi : i < xs.size
  · have hi' : i < ys.size := by omega
    simpa [Array.getD_eq_getD_getElem?, hi, hi'] using hget i hi hi'
  · have hi' : ¬i < ys.size := by omega
    simp [Array.getD_eq_getD_getElem?, hi, hi']

/-- Arrays of frames stay related when related values are bound at one place. -/
theorem modify (h : List.Forall₂ (Bindings.Rel V) xs.toList ys.toList) (i : Nat) (text : String)
    {v : Value ε} {w : Value δ} (hv : V v w) :
    List.Forall₂ (Bindings.Rel V) (xs.modify i (Bindings.insert · text v)).toList
      (ys.modify i (Bindings.insert · text w)).toList := by
  rw [List.forall₂_iff_get] at h ⊢
  obtain ⟨hlen, hget⟩ := h
  refine ⟨by simpa using hlen, fun j hj hj' => ?_⟩
  simp only [Array.length_toList, Array.size_modify] at hj hj'
  have hold := hget j hj hj'
  simp only [List.get_eq_getElem, Array.getElem_toList, Array.getElem_modify] at hold ⊢
  split
  · exact hold.insert hv text
  · exact hold

/-- Arrays of frames stay related when related frames are added. -/
theorem push (h : List.Forall₂ (Bindings.Rel V) xs.toList ys.toList)
    (hab : Bindings.Rel V a b) :
    List.Forall₂ (Bindings.Rel V) (xs.push a).toList (ys.push b).toList := by
  rw [Array.toList_push, Array.toList_push]
  exact List.rel_append h (.cons hab .nil)

/-- Related arrays have one size. -/
theorem size_eq (h : List.Forall₂ (Bindings.Rel V) xs.toList ys.toList) : xs.size = ys.size := by
  rw [← Array.length_toList, ← Array.length_toList]
  exact h.length_eq

end Bindings.Rel

/-- Searched for from the global environment, a name is one of the global frame. -/
theorem Store.get?_globalEnv (store : Store) (text : String) :
    store.get? globalEnv text = (store.frame 0).get? text := by
  simp [globalEnv, Store.get?]

end Lox

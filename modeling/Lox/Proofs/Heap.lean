import Mathlib.Data.List.Chain
import Lox.Proofs.Evaluation.Effects
import Lox.Proofs.Scope.Keywords

/-!
# Well-formed machines

What holds of the frames, functions, classes and objects of a machine whenever a
program runs. Every environment follows the links from frame to enclosing frame,
each of which is older, down to the global frame. The superclasses of a class
are older than the class. A method is an initializer if it has the name of one,
and a function value that is an initializer has its object in its own frame. The
keyword `this` is bound to objects only, and `super` to classes only.

Frames keep no links, because an environment is the list of its frames. That all
environments agree on which frame encloses which is said by one map of links for
all of them. It is a part of the world that values are judged in, together with
the store; worlds grow as a program runs, and in the frames that are there
neither the links nor the keywords change.
-/

namespace Lox

/-- Which frame encloses which, and the store. -/
structure World where
  /-- The frame that encloses a frame. -/
  links : Nat → Nat
  /-- The frames, the objects and the next identity. -/
  store : Store

/-! ### Environments, functions and classes -/

/-- An environment leads from frame to enclosing frame, which is older, and ends
with the global frame. -/
structure Env.Follows (env : Env) (w : World) : Prop where
  /-- Each frame is enclosed by the next one, which is older. -/
  linked : env.IsChain fun i j => w.links i = j ∧ j < i
  /-- The last frame is the global one. -/
  globals : env.getLast? = some 0
  /-- All frames are in the store. -/
  frames : ∀ i ∈ env, i < w.store.frames.size

/-- A class and its superclasses, nearest first. -/
def Class.chain : Class → List Class
  | ⟨id, name, none, methods⟩ => [⟨id, name, none, methods⟩]
  | ⟨id, name, some superclass, methods⟩ => ⟨id, name, some superclass, methods⟩ :: superclass.chain

/-- A value is an object. -/
def Value.IsObject : Value → Prop
  | .object _ _ => True
  | _ => False

/-- A value is a class. -/
def Value.IsClass : Value → Prop
  | .cls _ => True
  | _ => False

section Sound

variable (w : World)

/-- A declared function over an environment. -/
structure Closure.Sound (c : Closure) : Prop where
  /-- Its environment is one of the world. -/
  env : c.env.Follows w
  /-- Its names are plain. -/
  plain : FunDecl.Plain c.decl

/-- A method of a class, which has no object yet. -/
structure Closure.IsMethod (c : Closure) : Prop extends Closure.Sound w c where
  /-- It is an initializer just if it has the name of one. -/
  flag : c.isInitializer = true ↔ c.name = initializerName

/-- A function that can be called. -/
structure Closure.IsFunction (c : Closure) : Prop extends Closure.Sound w c where
  /-- An initializer has its object in its first frame. -/
  this : c.isInitializer = true → ∃ i rest object, c.env = i :: rest ∧
    (w.store.frame i).get? "this" = some object ∧ object.IsObject

/-- A class whose superclasses are older and whose methods are methods. -/
structure Class.Sound (cls : Class) : Prop where
  /-- A superclass has a smaller identity, so no class is above itself. -/
  older : cls.chain.IsChain fun c d => d.id < c.id
  /-- Its identity was handed out. -/
  id : cls.id < w.store.nextId
  /-- What it and its superclasses have are methods. -/
  methods : ∀ c ∈ cls.chain, ∀ method ∈ c.methods, method.IsMethod w

/-- A value that a program may hold. -/
def Value.Sound : Value → Prop
  | .function _ c => c.IsFunction w
  | .cls c => c.Sound w
  | .object id c => id < w.store.fields.size ∧ c.Sound w
  | _ => True

/-- The values of the keywords are of their kinds, those of all names sound. -/
structure Bindings.Sound (bindings : Bindings) : Prop where
  /-- All values are sound. -/
  value : ∀ x v, bindings.get? x = some v → v.Sound w
  /-- The value of `this` is an object. -/
  this : ∀ v, bindings.get? "this" = some v → v.IsObject
  /-- The value of `super` is a class. -/
  super : ∀ v, bindings.get? "super" = some v → v.IsClass

/-- A store in which all values are sound and every frame but the global one is
enclosed by an older one. -/
structure World.WellFormed : Prop where
  /-- There is a global frame. -/
  globals : 0 < w.store.frames.size
  /-- Every other frame is enclosed by an older one. -/
  older : ∀ i, 0 < i → i < w.store.frames.size → w.links i < i
  /-- The values of variables are sound. -/
  frames : ∀ i, Bindings.Sound w (w.store.frame i)
  /-- The values of fields are sound. -/
  fields : ∀ object x v, w.store.field? object x = some v → v.Sound w

end Sound

/-- A machine that has the store of a well-formed world, and an environment of
it. -/
structure Machine.At (m : Machine) (w : World) : Prop where
  /-- The store of the machine is that of the world. -/
  store : w.store = m.store
  /-- The world is well formed. -/
  wellFormed : w.WellFormed
  /-- The environment in effect is one of the world. -/
  env : m.env.Follows w

/-! ### Worlds that grow -/

/-- A later world has all frames, objects and identities of an earlier one, and
the links and keywords of the frames are the same. -/
structure World.Before (w w' : World) : Prop where
  /-- A frame is enclosed by the same frame as before. -/
  links : ∀ i < w.store.frames.size, w'.links i = w.links i
  /-- No frame is lost. -/
  frames : w.store.frames.size ≤ w'.store.frames.size
  /-- No object is lost. -/
  fields : w.store.fields.size ≤ w'.store.fields.size
  /-- No identity is handed out again. -/
  nextId : w.store.nextId ≤ w'.store.nextId
  /-- The keywords of a frame stand for what they stood for. -/
  keywords : ∀ i < w.store.frames.size, ∀ x, ¬IsPlain x →
    (w'.store.frame i).get? x = (w.store.frame i).get? x

/-- The name `this` is a keyword. -/
theorem not_isPlain_this : ¬IsPlain "this" := fun h => h.1 rfl

/-- So is the name `super`. -/
theorem not_isPlain_super : ¬IsPlain "super" := fun h => h.2 rfl

section Growth

variable {w w' w'' : World}

namespace World.Before

/-- A world is as it is. -/
theorem refl (w : World) : w.Before w :=
  ⟨fun _ _ => rfl, Nat.le_refl _, Nat.le_refl _, Nat.le_refl _, fun _ _ _ _ => rfl⟩

/-- What is later than a later world is later. -/
theorem trans (h : w.Before w') (h' : w'.Before w'') : w.Before w'' where
  links := fun i hi => (h'.links i (Nat.lt_of_lt_of_le hi h.frames)).trans (h.links i hi)
  frames := Nat.le_trans h.frames h'.frames
  fields := Nat.le_trans h.fields h'.fields
  nextId := Nat.le_trans h.nextId h'.nextId
  keywords := fun i hi x hx =>
    (h'.keywords i (Nat.lt_of_lt_of_le hi h.frames) x hx).trans (h.keywords i hi x hx)

end World.Before

/-- An environment of a world is one of every later world. -/
theorem Env.Follows.later {env : Env} (h : env.Follows w) (hw : w.Before w') :
    env.Follows w' := by
  refine ⟨?_, h.globals, fun i hi => Nat.lt_of_lt_of_le (h.frames i hi) hw.frames⟩
  refine List.IsChain.imp_of_mem_imp (fun i j hi _ hij => ?_) h.linked
  rw [hw.links i (h.frames i hi)]
  exact hij

/-- A method of a world is one of every later world. -/
theorem Closure.IsMethod.later {c : Closure} (h : c.IsMethod w) (hw : w.Before w') :
    c.IsMethod w' :=
  ⟨⟨h.env.later hw, h.plain⟩, h.flag⟩

/-- A function of a world is one of every later world: the frame of its object has kept it. -/
theorem Closure.IsFunction.later {c : Closure} (h : c.IsFunction w) (hw : w.Before w') :
    c.IsFunction w' := by
  refine ⟨⟨h.env.later hw, h.plain⟩, fun hflag => ?_⟩
  obtain ⟨i, rest, object, henv, hthis, hobject⟩ := h.this hflag
  have hi : i < w.store.frames.size := h.env.frames i (by rw [henv]; exact .head _)
  exact ⟨i, rest, object, henv, (hw.keywords i hi _ not_isPlain_this).trans hthis, hobject⟩

/-- A class that is sound stays sound. -/
theorem Class.Sound.later {cls : Class} (h : cls.Sound w) (hw : w.Before w') : cls.Sound w' :=
  ⟨h.older, Nat.lt_of_lt_of_le h.id hw.nextId,
    fun c hc method hmethod => (h.methods c hc method hmethod).later hw⟩

/-- A value that is sound stays sound. -/
theorem Value.Sound.later {v : Value} (h : v.Sound w) (hw : w.Before w') : v.Sound w' := by
  cases v with
  | function id c => exact Closure.IsFunction.later h hw
  | cls c => exact Class.Sound.later h hw
  | object id c => exact ⟨Nat.lt_of_lt_of_le h.1 hw.fields, h.2.later hw⟩
  | _ => trivial

/-- Bindings that are sound stay sound. -/
theorem Bindings.Sound.later {b : Bindings} (h : b.Sound w) (hw : w.Before w') : b.Sound w' :=
  ⟨fun x v hv => (h.value x v hv).later hw, h.this, h.super⟩

end Growth

/-! ### Classes -/

section Classes

variable {w : World} {cls : Class} {text : String} {method : Closure}

/-- A method that is found has the name that was looked for and is declared by
the class or one of its superclasses. -/
theorem Class.findMethod?_mem (h : cls.findMethod? text = some method) :
    ∃ c ∈ cls.chain, method ∈ c.methods ∧ method.name = text := by
  have hown : ∀ {methods : List Closure}, ownMethod? methods text = some method →
      method ∈ methods ∧ method.name = text := fun hfind =>
    ⟨List.mem_of_find?_eq_some hfind, by simpa using List.find?_some hfind⟩
  fun_induction Class.findMethod? text cls with
  | case1 id name methods =>
    have hmethod := hown h
    exact ⟨_, .head _, hmethod.1, hmethod.2⟩
  | case2 id name superclass methods ih =>
    cases hfind : ownMethod? methods text with
    | some found =>
      rw [hfind] at h
      cases h
      have hmethod := hown hfind
      exact ⟨_, .head _, hmethod.1, hmethod.2⟩
    | none =>
      rw [hfind] at h
      obtain ⟨c, hc, hmethod⟩ := ih h
      exact ⟨c, .tail _ hc, hmethod⟩

/-- What is found up the chain of a sound class is a method. -/
theorem Class.Sound.findMethod? (h : cls.Sound w) (hfind : cls.findMethod? text = some method) :
    method.IsMethod w := by
  obtain ⟨c, hc, hmethod, -⟩ := Class.findMethod?_mem hfind
  exact h.methods c hc method hmethod

/-- A class is the nearest in its own chain. -/
theorem Class.chain_head (cls : Class) : ∃ rest, cls.chain = cls :: rest := by
  obtain ⟨id, name, superclass, methods⟩ := cls
  cases superclass with
  | none => exact ⟨[], rfl⟩
  | some superclass => exact ⟨superclass.chain, rfl⟩

/-- A new class is sound if its methods are and its superclass is. -/
theorem Class.Sound.declared {id : Nat} {name : String} {parent : Option Class}
    {methods : List Closure} (hparent : ∀ c ∈ parent, c.Sound w ∧ c.id < id)
    (hid : id < w.store.nextId) (hmethods : ∀ method ∈ methods, method.IsMethod w) :
    (⟨id, name, parent, methods⟩ : Class).Sound w := by
  cases parent with
  | none =>
    refine ⟨.singleton _, hid, fun c hc => ?_⟩
    rw [List.mem_singleton.1 hc]
    exact hmethods
  | some s =>
    obtain ⟨hs, hlt⟩ := hparent s rfl
    obtain ⟨rest, hrest⟩ := s.chain_head
    refine ⟨?_, hid, fun c hc => ?_⟩
    · have hchain := hs.older
      rw [Class.chain, hrest] at *
      exact hchain.cons_cons hlt
    · rcases List.mem_cons.1 hc with rfl | hc
      · exact hmethods
      · exact hs.methods c hc

end Classes

end Lox

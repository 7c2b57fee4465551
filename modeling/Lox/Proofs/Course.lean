import Lox.Proofs.Evaluation.Moments
import Lox.Proofs.Scope.Anchored

/-!
# The course of a run

A run goes from machine to machine through its moments. From one machine to a later
one, distances, frames, objects and identities are only added, the keywords of the
frames that are there stay as they are, and every field has the value that it was last
set to in between, or else the one that it had.

The values of a machine are placed: the functions and methods among them are anchored
parts of programs, methods stand in a class, and objects and functions have numbers
that were handed out. Functions and classes come from declarations at points that were
begun, and the frame of a method that was bound has its object. A course keeps the
machine placed at each of its moments.
-/

namespace Lox

variable {α β : Type}

/-! ### Later machines -/

/-- A later machine has all that an earlier one has, and the keywords of the frames
are the same. -/
structure Machine.Grows (m m' : Machine) : Prop where
  /-- The distances that were recorded are still recorded. -/
  distances : m.distances.Within m'.distances
  /-- No frame is lost. -/
  frames : m.store.frames.size ≤ m'.store.frames.size
  /-- No object is lost. -/
  fields : m.store.fields.size ≤ m'.store.fields.size
  /-- No identity is handed out again. -/
  nextId : m.store.nextId ≤ m'.store.nextId
  /-- The keywords of a frame stand for what they stood for. -/
  keywords : ∀ i < m.store.frames.size, ∀ x, ¬IsPlain x →
    (m'.store.frame i).get? x = (m.store.frame i).get? x

/-- A later machine, between which and an earlier one some fields were set. -/
structure Machine.Follows (ws : List Write) (m m' : Machine) : Prop extends m.Grows m' where
  /-- A field has what was last written to it, or else what it had. -/
  written : ∀ object text, m'.store.field? object text =
    (lastWritten object text ws).or (m.store.field? object text)

section Growth

variable {m m' m'' : Machine} {ws ws' : List Write}

namespace Machine.Grows

/-- A machine has all that it has. -/
theorem refl (m : Machine) : m.Grows m :=
  ⟨.refl _, Nat.le_refl _, Nat.le_refl _, Nat.le_refl _, fun _ _ _ _ => rfl⟩

/-- What has grown may grow on. -/
theorem trans (h : m.Grows m') (h' : m'.Grows m'') : m.Grows m'' where
  distances := h.distances.trans h'.distances
  frames := Nat.le_trans h.frames h'.frames
  fields := Nat.le_trans h.fields h'.fields
  nextId := Nat.le_trans h.nextId h'.nextId
  keywords := fun i hi x hx =>
    (h'.keywords i (Nat.lt_of_lt_of_le hi h.frames) x hx).trans (h.keywords i hi x hx)

/-- Neither the store nor the distances are changed. -/
theorem congr (hstore : m'.store = m.store) (hdistances : m'.distances = m.distances) :
    m.Grows m' := by
  refine ⟨?_, ?_, ?_, ?_, ?_⟩
  · rw [hdistances]
    exact .refl _
  all_goals rw [hstore]
  exact fun _ _ _ _ => rfl

/-- A keyword that a frame binds stays bound. -/
theorem keyword (h : m.Grows m') {i : Nat} {x : String} (hx : ¬IsPlain x) {v : Value}
    (hv : (m.store.frame i).get? x = some v) : (m'.store.frame i).get? x = some v := by
  rw [h.keywords i (Store.Binds.of_get? hv).lt_size x hx]
  exact hv

end Machine.Grows

namespace Machine.Follows

/-- No field was set. -/
theorem of_fields (h : m.Grows m') (hfields : ∀ object text,
    m'.store.field? object text = m.store.field? object text) : Follows [] m m' :=
  ⟨h, hfields⟩

/-- Between a machine and itself no field was set. -/
theorem refl (m : Machine) : Follows [] m m := .of_fields (.refl m) fun _ _ => rfl

/-- Of two stretches, what was set is what was set in one and then in the other. -/
theorem trans (h : Follows ws m m') (h' : Follows ws' m' m'') : Follows (ws ++ ws') m m'' := by
  refine ⟨h.toGrows.trans h'.toGrows, fun object text => ?_⟩
  rw [h'.written, h.written, lastWritten_append, Option.or_assoc]

/-- No field was set where the store is the same. -/
theorem congr (hstore : m'.store = m.store) (hdistances : m'.distances = m.distances) :
    Follows [] m m' :=
  .of_fields (.congr hstore hdistances) fun _ _ => by rw [hstore]

end Machine.Follows

end Growth

/-! ### Changes of a store -/

section Changes

variable {store : Store} {i j object : Nat} {x y : String} {u v : Value}

/-- Binding a name leaves all other names as they are, in every frame. -/
theorem Store.get?_bindIn_of_ne (h : y ≠ x) :
    ((store.bindIn i x v).frame j).get? y = (store.frame j).get? y := by
  by_cases hi : i < store.frames.size
  · rw [Store.get?_bindIn hi, if_neg fun hji => h hji.2]
  · unfold Store.frame Store.bindIn
    simp only [Array.getD_eq_getD_getElem?, Array.getElem?_modify]
    split
    · rename_i hij
      rw [← hij, Array.getElem?_eq_none (Nat.le_of_not_lt hi)]
      rfl
    · rfl

/-- A field that is set has the value, and all others are as they were. -/
theorem Store.field?_setField (h : object < store.fields.size) (other : Nat) (text : String) :
    (store.setField object x v).field? other text =
      if object = other ∧ x = text then some v else store.field? other text := by
  unfold Store.field? Store.setField
  simp only [Array.getD_eq_getD_getElem?, Array.getElem?_modify]
  by_cases hobject : object = other
  · subst hobject
    rw [if_pos rfl, Array.getElem?_eq_getElem h, Option.map_some, Option.getD_some,
      Option.getD_some, Bindings.get?_insert]
    simp only [eq_comm, true_and]
  · rw [if_neg hobject, if_neg fun hsame => hobject hsame.1]

/-- A new object has no fields, and the others keep theirs. -/
theorem Store.field?_newObject (other : Nat) (text : String) :
    store.newObject.2.field? other text = store.field? other text := by
  unfold Store.field? Store.newObject
  simp only [Array.getD_eq_getD_getElem?, Array.getElem?_push]
  split
  · rename_i hother
    rw [hother, Array.getElem?_eq_none (Nat.le_refl _)]
    rfl
  · rfl

namespace Machine.Follows

variable {m : Machine}

/-- Binding a plain name sets no field and changes no keyword. -/
theorem bindIn (hx : IsPlain x) : Follows [] m { m with store := m.store.bindIn i x v } := by
  refine .of_fields ⟨.refl _, Nat.le_of_eq Store.size_bindIn.symm, Nat.le_refl _, Nat.le_refl _,
    fun j _ y hy => ?_⟩ fun _ _ => rfl
  exact Store.get?_bindIn_of_ne fun hyx => hy (hyx ▸ hx)

/-- So does declaring one. -/
theorem define (hx : IsPlain x) :
    Follows [] m { m with store := m.store.define m.env x v } := by
  obtain ⟨store, env, calls, distances, sink, clock⟩ := m
  cases env with
  | nil => exact .congr rfl rfl
  | cons i rest => exact .bindIn hx

/-- A new frame sets no field. -/
theorem newFrame (env : Env) (bindings : Bindings) :
    Follows [] m { m with store := (m.store.newFrame env bindings).2 } := by
  refine .of_fields ⟨.refl _, ?_, Nat.le_refl _, Nat.le_refl _, fun j hj y _ => ?_⟩ fun _ _ => rfl
  · rw [Store.size_newFrame]
    exact Nat.le_succ _
  · rw [Store.frame_newFrame_of_lt hj]

/-- Handing out an identity sets no field. -/
theorem freshId : Follows [] m { m with store := m.store.freshId.2 } :=
  .of_fields ⟨.refl _, Nat.le_refl _, Nat.le_refl _, Nat.le_succ _, fun _ _ _ _ => rfl⟩
    fun _ _ => rfl

/-- Making an object sets no field. -/
theorem newObject : Follows [] m { m with store := m.store.newObject.2 } := by
  have hsize : m.store.newObject.2.fields.size = m.store.fields.size + 1 := Array.size_push _
  refine .of_fields ⟨.refl _, Nat.le_refl _, ?_, Nat.le_refl _, fun _ _ _ _ => rfl⟩
    Store.field?_newObject
  exact hsize ▸ Nat.le_succ _

/-- Setting a field of an object that is there is one write. -/
theorem setField (h : object < m.store.fields.size) :
    Follows [⟨object, x, v⟩] m { m with store := m.store.setField object x v } := by
  refine ⟨⟨.refl _, Nat.le_refl _, Nat.le_of_eq Array.size_modify.symm, Nat.le_refl _,
    fun _ _ _ _ => rfl⟩, fun other text => ?_⟩
  rw [lastWritten, lastWritten, Option.none_or]
  change (m.store.setField object x v).field? other text = _
  rw [Store.field?_setField h]
  split <;> rfl

end Machine.Follows

end Changes

/-! ### Placed values -/

/-- A declared method over an environment. -/
def FunDecl.asMethod (env : Env) (f : FunDecl) : Closure :=
  ⟨f, env, f.name.text == initializerName⟩

/-- At a point a class is declared: once its name is bound its superclass is looked up, and
its methods get their environment. -/
inductive Point.DeclaresClass : Point → Option Class → Env → List FunDecl → Prop where
  /-- The superclass is read once the name is bound, and then the environment of the methods
  is made. -/
  | intro {fuel : Nat} {name : Name} {ref : Option Ref} {methods : List FunDecl}
      {m m₁ m₂ : Machine} {superclass : Option Class} {env : Env}
      (hsuperclass : Eval.readSuperclass ref
        { m with store := m.store.define m.env name.text .nil } = .ok superclass m₁)
      (henv : Eval.methodEnv m.env superclass m₁ = .ok env m₂) :
      DeclaresClass ⟨fuel + 1, .execute (.classDecl name ref methods), m⟩ superclass env methods

section Placed

variable (begun : Point → Prop) (m : Machine)

/-- A method as a class has it, which was declared at a point that was begun. -/
structure Closure.InClass (c : Closure) : Prop where
  /-- Its declaration is an anchored method of some class. -/
  decl : ∃ derived around, FunDecl.Anchored m.distances (.methods derived :: around)
    (.method c.name) c.decl
  /-- A class was declared at a point that was begun, and it is one of the methods there. -/
  origin : ∃ p superclass env methods f, begun p ∧ p.machine.store.nextId < m.store.nextId ∧
    p.DeclaresClass superclass env methods ∧ f ∈ methods ∧ c = f.asMethod env

/-- A function: it was declared at a point that was begun, or it is a method that was
bound to an object. -/
inductive Closure.Placed (c : Closure) : Prop where
  /-- A function was declared at a point that was begun, in the environment there. -/
  | declared {p : Point} {f : FunDecl} (hp : begun p)
      (hbefore : p.machine.store.nextId < m.store.nextId)
      (htask : p.task = .execute (.funDecl f))
      (hdecl : ∃ around, FunDecl.Anchored m.distances around .function f)
      (hc : c = ⟨f, p.machine.env, false⟩)
  /-- A method of a class was bound to an object, which is in a frame of its own. -/
  | bound {method : Closure} {i : Nat} {object : Value} (hmethod : method.InClass begun m)
      (hframe : (m.store.frame i).get? "this" = some object)
      (hc : c = { method with env := i :: method.env })

/-- A class that was declared at a point that was begun, with its methods. -/
structure Class.Declared (cls : Class) : Prop where
  /-- It was declared at a point that was begun, with the superclass and the methods there. -/
  origin : ∃ p env methods, begun p ∧ p.machine.store.nextId < m.store.nextId ∧
    p.DeclaresClass cls.superclass env methods ∧ cls.methods = Eval.closeMethods env methods
  /-- Its methods are anchored. -/
  methods : ∀ method ∈ cls.methods, ∃ derived around, FunDecl.Anchored m.distances
    (.methods derived :: around) (.method method.name) method.decl

/-- A class that was declared, and so were its superclasses. -/
def Class.Placed (cls : Class) : Prop := ∀ c ∈ cls.chain, c.Declared begun m

/-- A value whose functions and methods are anchored parts of programs that were declared
at points that were begun, and whose number was handed out. -/
def Value.Placed : Value → Prop
  | .function id c => id < m.store.nextId ∧ c.Placed begun m
  | .cls c => c.Placed begun m
  | .object id c => id < m.store.fields.size ∧ c.Placed begun m
  | _ => True

/-- All values of a machine are placed. -/
structure Machine.Placed : Prop where
  /-- The values of variables are placed. -/
  frames : ∀ i x v, (m.store.frame i).get? x = some v → v.Placed begun m
  /-- The values of fields are placed. -/
  fields : ∀ object x v, m.store.field? object x = some v → v.Placed begun m

/-- How a statement ends, with a placed value if it ends the call in progress. -/
def Flow.Placed : Flow → Prop
  | .normal => True
  | .returned v => v.Placed begun m

end Placed

section Later

variable {begun : Point → Prop} {m m' : Machine}

namespace Closure.InClass

variable {c : Closure}

/-- A method of a class stands there on every later machine. -/
theorem later (h : c.InClass begun m) (hm : m.Grows m') : c.InClass begun m' := by
  obtain ⟨⟨derived, around, hdecl⟩, p, superclass, env, methods, f, hp, hbefore, horigin⟩ := h
  exact ⟨⟨derived, around, hdecl.later hm.distances⟩, p, superclass, env, methods, f, hp,
    Nat.lt_of_lt_of_le hbefore hm.nextId, horigin⟩

/-- A method is an initializer if it has that name. -/
theorem isInitializer_iff (h : c.InClass begun m) :
    c.isInitializer = true ↔ c.name = initializerName := by
  obtain ⟨-, p, superclass, env, methods, f, -, -, -, -, rfl⟩ := h
  exact beq_iff_eq

end Closure.InClass

/-- A function that is placed is so on every later machine. -/
theorem Closure.Placed.later {c : Closure} (h : c.Placed begun m) (hm : m.Grows m') :
    c.Placed begun m' := by
  cases h with
  | declared hp hbefore htask hdecl hc =>
    obtain ⟨around, hdecl⟩ := hdecl
    exact .declared hp (Nat.lt_of_lt_of_le hbefore hm.nextId) htask
      ⟨around, hdecl.later hm.distances⟩ hc
  | bound hmethod hframe hc =>
    exact .bound (hmethod.later hm) (hm.keyword not_isPlain_this hframe) hc

/-- A function that is placed was declared by an anchored part of a program. -/
theorem Closure.Placed.anchored {c : Closure} (h : c.Placed begun m) :
    ∃ around opener, FunDecl.Anchored m.distances around opener c.decl := by
  cases h with
  | declared _ _ _ hdecl hc =>
    obtain ⟨around, hdecl⟩ := hdecl
    rw [hc]
    exact ⟨around, _, hdecl⟩
  | bound hmethod _ hc =>
    obtain ⟨derived, around, hdecl⟩ := hmethod.decl
    rw [hc]
    exact ⟨_, _, hdecl⟩

/-- A class that was declared is so on every later machine. -/
theorem Class.Declared.later {cls : Class} (h : cls.Declared begun m) (hm : m.Grows m') :
    cls.Declared begun m' := by
  obtain ⟨⟨p, env, methods, hp, hbefore, horigin⟩, hmethods⟩ := h
  refine ⟨⟨p, env, methods, hp, Nat.lt_of_lt_of_le hbefore hm.nextId, horigin⟩,
    fun method hmethod => ?_⟩
  obtain ⟨derived, around, hdecl⟩ := hmethods method hmethod
  exact ⟨derived, around, hdecl.later hm.distances⟩

/-- The methods of a class that was declared stand in it. -/
theorem Class.Declared.inClass {cls : Class} (h : cls.Declared begun m) {method : Closure}
    (hmethod : method ∈ cls.methods) : method.InClass begun m := by
  obtain ⟨⟨p, env, methods, hp, hbefore, hdeclares, hclose⟩, hmethods⟩ := h
  have hdecl := hmethods method hmethod
  rw [hclose, Eval.closeMethods, List.mem_reverse, List.mem_map] at hmethod
  obtain ⟨f, hf, rfl⟩ := hmethod
  exact ⟨hdecl, p, cls.superclass, env, methods, f, hp, hbefore, hdeclares, hf, rfl⟩

/-- A class that is placed is so on every later machine. -/
theorem Class.Placed.later {cls : Class} (h : cls.Placed begun m) (hm : m.Grows m') :
    cls.Placed begun m' :=
  fun c hc => (h c hc).later hm

/-- A value that is placed is so on every later machine. -/
theorem Value.Placed.later {v : Value} (h : v.Placed begun m) (hm : m.Grows m') :
    v.Placed begun m' := by
  cases v with
  | function id c => exact ⟨Nat.lt_of_lt_of_le h.1 hm.nextId, h.2.later hm⟩
  | cls c => exact Class.Placed.later h hm
  | object id c => exact ⟨Nat.lt_of_lt_of_le h.1 hm.fields, h.2.later hm⟩
  | _ => trivial

/-- What a statement returns stays placed. -/
theorem Flow.Placed.later {flow : Flow} (h : flow.Placed begun m) (hm : m.Grows m') :
    flow.Placed begun m' := by
  cases flow with
  | normal => trivial
  | returned v => exact Value.Placed.later h hm

/-- A later machine is placed if its values are old or placed. -/
theorem Machine.Placed.later (h : m.Placed begun) (hm : m.Grows m')
    (hframes : ∀ i x v, (m'.store.frame i).get? x = some v →
      (m.store.frame i).get? x = some v ∨ v.Placed begun m')
    (hfields : ∀ object x v, m'.store.field? object x = some v →
      m.store.field? object x = some v ∨ v.Placed begun m') : m'.Placed begun where
  frames := fun i x v hv =>
    (hframes i x v hv).elim (fun hold => (h.frames i x v hold).later hm) id
  fields := fun object x v hv =>
    (hfields object x v hv).elim (fun hold => (h.fields object x v hold).later hm) id

namespace Machine.Placed

/-- A machine is placed if its store is that of one that is. -/
theorem congr (h : m.Placed begun) (hstore : m'.store = m.store)
    (hdistances : m'.distances = m.distances) : m'.Placed begun := by
  refine h.later (.congr hstore hdistances) ?_ ?_
  · rw [hstore]
    exact fun _ _ _ hv => .inl hv
  · rw [hstore]
    exact fun _ _ _ hv => .inl hv

variable {i object : Nat} {x : String} {v : Value}

/-- Binding a plain name to a placed value keeps a machine placed. -/
theorem bindIn (h : m.Placed begun) (hx : IsPlain x) (hv : v.Placed begun m) :
    Placed begun { m with store := m.store.bindIn i x v } := by
  have hgrows : m.Grows { m with store := m.store.bindIn i x v } := (Follows.bindIn hx).toGrows
  refine h.later hgrows (fun j y u hu => ?_) fun _ _ _ hu => .inl hu
  rcases Store.get?_of_bindIn hu with rfl | hold
  · exact .inr (hv.later hgrows)
  · exact .inl hold

/-- Declaring a plain name with a placed value keeps a machine placed. -/
theorem define (h : m.Placed begun) (hx : IsPlain x) (hv : v.Placed begun m) :
    Placed begun { m with store := m.store.define m.env x v } := by
  obtain ⟨store, env, calls, distances, sink, clock⟩ := m
  cases env with
  | nil => exact h.congr rfl rfl
  | cons i rest => exact h.bindIn hx hv

/-- A new frame of placed values keeps a machine placed. -/
theorem newFrame (h : m.Placed begun) (env : Env) {bindings : Bindings}
    (hb : ∀ x v, bindings.get? x = some v → v.Placed begun m) :
    Placed begun { m with store := (m.store.newFrame env bindings).2 } := by
  have hgrows : m.Grows { m with store := (m.store.newFrame env bindings).2 } :=
    (Follows.newFrame env bindings).toGrows
  refine h.later hgrows (fun j y u hu => ?_) fun _ _ _ hu => .inl hu
  by_cases hj : j = m.store.frames.size
  · rw [hj, Store.frame_newFrame_self] at hu
    exact .inr ((hb y u hu).later hgrows)
  · rw [Store.frame_newFrame_of_ne hj] at hu
    exact .inl hu

/-- A new object has no values yet. -/
theorem newObject (h : m.Placed begun) :
    Placed begun { m with store := m.store.newObject.2 } := by
  refine h.later Follows.newObject.toGrows (fun _ _ _ hu => .inl hu) fun other y u hu => ?_
  exact .inl (Store.field?_of_newObject hu)

/-- Handing out an identity keeps a machine placed, since values only need theirs to be
used up. -/
theorem freshId (h : m.Placed begun) :
    Placed begun { m with store := m.store.freshId.2 } :=
  h.later Follows.freshId.toGrows (fun _ _ _ hu => .inl hu) fun _ _ _ hu => .inl hu

/-- Setting a field to a placed value keeps a machine placed. -/
theorem setField (h : m.Placed begun) (ho : object < m.store.fields.size)
    (hv : v.Placed begun m) :
    Placed begun { m with store := m.store.setField object x v } := by
  have hgrows : m.Grows { m with store := m.store.setField object x v } :=
    (Follows.setField ho).toGrows
  refine h.later hgrows (fun _ _ _ hu => .inl hu) fun other y u hu => ?_
  rcases Store.field?_of_setField hu with rfl | hold
  · exact .inr (hv.later hgrows)
  · exact .inl hold

end Machine.Placed

/-- A method that is found stands in a class. -/
theorem Class.Placed.findMethod? {cls : Class} (h : cls.Placed begun m) {text : String}
    {method : Closure} (hfind : cls.findMethod? text = some method) :
    method.InClass begun m ∧ method.name = text := by
  obtain ⟨c, hc, hmethod, hname⟩ := Class.findMethod?_mem hfind
  exact ⟨(h c hc).inClass hmethod, hname⟩

end Later

/-! ### Courses -/

/-- The value that a task yields, and the machine it leaves. -/
inductive Point.Yields : Point → Value → Machine → Prop where
  /-- An expression that is evaluated yields its value. -/
  | value {fuel : Nat} {e : Expr} {m m' : Machine} {v : Value}
      (h : Eval.evaluate fuel e m = .ok v m') : Yields ⟨fuel, .evaluate e, m⟩ v m'

section Moments

variable (begun : Point → Prop)

/-- A task that is an anchored part of a program, on a machine that is placed. -/
structure Point.Placed (p : Point) : Prop where
  /-- All values of the machine are placed. -/
  machine : p.machine.Placed begun
  /-- The task is an anchored part of a program. -/
  task : ∃ around, p.task.Anchored p.machine.distances around

/-- What is placed at a moment: the task and the machine, and at the end of the task
also the value that it yields. -/
def Moment.Placed : Moment → Prop
  | .begins p => begun p ∧ p.Placed begun
  | .ends p => p.Placed begun ∧ p.after.Placed begun ∧ ∀ v m, p.Yields v m → v.Placed begun m

/-- From one machine to another through some moments, where all values are placed with
respect to the points that were begun. -/
inductive Course : Machine → List Moment → Machine → Prop where
  /-- There are no more moments, and no field is set on the way. -/
  | still {m m' : Machine} (h : Machine.Follows [] m m') (placed : m'.Placed begun) :
      Course m [] m'
  /-- The next moment is reached with the writes that it makes, and the course goes on from
  there. -/
  | through {m m' : Machine} {x : Moment} {rest : List Moment}
      (h : Machine.Follows x.writes m x.machine) (placed : x.Placed begun)
      (later : Course x.machine rest m') : Course m (x :: rest) m'

end Moments

variable {begun : Point → Prop}

/-- The machine at a placed moment is placed. -/
theorem Moment.Placed.machine {x : Moment} (h : x.Placed begun) : x.machine.Placed begun := by
  cases x with
  | begins p => exact h.2.machine
  | ends p => exact h.2.1

namespace Course

variable {m m₁ m₂ : Machine} {before after moments : List Moment}

/-- No field was set before the course began. -/
theorem precede (h : Machine.Follows [] m m₁) (hcourse : Course begun m₁ moments m₂) :
    Course begun m moments m₂ := by
  cases hcourse with
  | still h' placed => exact .still (h.trans h') placed
  | through h' placed later => exact .through (h.trans h') placed later

/-- A course goes on with one that starts where it ends. -/
theorem append (h : Course begun m before m₁) (h' : Course begun m₁ after m₂) :
    Course begun m (before ++ after) m₂ := by
  induction h with
  | still h placed => exact h'.precede h
  | through h placed _ ih => exact .through h placed (ih h')

/-- No field was set after the course ended. -/
theorem proceed (h : Course begun m moments m₁) (hlast : Machine.Follows [] m₁ m₂)
    (hplaced : m₂.Placed begun) : Course begun m moments m₂ := by
  have happend := h.append (.still hlast hplaced)
  rwa [List.append_nil] at happend

/-- A course ends on a machine that is placed. -/
theorem placed (h : Course begun m moments m₁) : m₁.Placed begun := by
  induction h with
  | still _ placed => exact placed
  | through _ _ _ ih => exact ih

/-- The fields are as they were last set. -/
theorem follows (h : Course begun m moments m₁) : Machine.Follows (writesOf moments) m m₁ := by
  induction h with
  | still h _ => exact h
  | through h _ _ ih => exact h.trans ih

/-- What is there at the start of a course is there at its end. -/
theorem grows (h : Course begun m moments m₁) : m.Grows m₁ := h.follows.toGrows

/-- A moment of a course. -/
theorem moment {x : Moment} (h : Course begun m (before ++ x :: after) m₁) :
    Machine.Follows (writesOf (before ++ [x])) m x.machine ∧ x.Placed begun ∧
      Course begun x.machine after m₁ := by
  induction before generalizing m with
  | nil =>
    cases h with
    | through hx placed later =>
      refine ⟨?_, placed, later⟩
      rw [List.nil_append, writesOf, List.flatMap_singleton]
      exact hx
  | cons y rest ih =>
    cases h with
    | through hy _ later =>
      obtain ⟨hfollows, hplaced, hafter⟩ := ih later
      exact ⟨hy.trans hfollows, hplaced, hafter⟩

/-- The course until a moment. -/
theorem upTo {x : Moment} (h : Course begun m (before ++ x :: after) m₁) :
    Course begun m (before ++ [x]) x.machine := by
  induction before generalizing m with
  | nil =>
    cases h with
    | through hx placed later => exact .through hx placed (.still (.refl _) placed.machine)
  | cons y rest ih =>
    cases h with
    | through hy placed later => exact .through hy placed (ih later)

/-- The course of a task, given the course of all that it enters. -/
theorem during {p : Point} {inner : List Moment} (hbegun : begun p) (hp : p.Placed begun)
    (hinner : Course begun p.machine inner m)
    (hend : Machine.Follows (Moment.ends p).writes m p.after) (hafter : p.after.Placed begun)
    (hvalue : ∀ v m', p.Yields v m' → v.Placed begun m') :
    Course begun p.machine (p.during inner) p.after := by
  have hends : Course begun m [.ends p] p.after :=
    .through hend ⟨hp, hafter, hvalue⟩ (.still (.refl _) hafter)
  have hbegins : Machine.Follows (Moment.begins p).writes p.machine (Moment.begins p).machine :=
    .refl _
  exact .through hbegins ⟨hbegun, hp⟩ (hinner.append hends)

/-- A course that comes to a task goes through it and then on. -/
theorem task {p : Point} (h : Course begun m (before ++ p.moments ++ after) m₁) :
    p.Placed begun ∧ Course begun m (before ++ p.moments) p.after ∧
      Course begun p.after after m₁ := by
  obtain ⟨inner, hp⟩ := p.moments_eq
  have hends : before ++ p.moments ++ after =
      (before ++ .begins p :: inner) ++ .ends p :: after := by
    rw [hp]
    simp [Point.during]
  have hupTo : before ++ p.moments = (before ++ .begins p :: inner) ++ [.ends p] := by
    rw [hp]
    simp [Point.during]
  rw [hends] at h
  rw [hupTo]
  exact ⟨h.moment.2.1.1, h.upTo, h.moment.2.2⟩

/-- A course that comes to a task comes to its beginning. -/
theorem begins {p : Point} (h : Course begun m (before ++ p.moments ++ after) m₁) :
    Course begun m (before ++ [.begins p]) p.machine := by
  obtain ⟨inner, hp⟩ := p.moments_eq
  rw [hp, List.append_assoc] at h
  exact h.upTo

/-- What is there at the start of a course is there at each of its moments. -/
theorem grows_to {x : Moment} (h : Course begun m moments m₁) (hx : x ∈ moments) :
    m.Grows x.machine := by
  obtain ⟨before, after, rfl⟩ := List.append_of_mem hx
  exact h.moment.1.toGrows

/-- All that is there when a task is begun is there at each of its moments. -/
theorem grows_within {p : Point} {x : Moment}
    (h : Course begun m (before ++ p.moments ++ after) m₁) (hx : x ∈ p.moments) :
    p.machine.Grows x.machine := by
  obtain ⟨inner, hp⟩ := p.moments_eq
  rw [hp, Point.during, List.cons_append] at hx h
  rw [List.append_assoc] at h
  rcases List.mem_cons.1 hx with rfl | hx
  · exact .refl _
  · exact h.moment.2.2.grows_to (List.mem_append_left _ hx)

/-- The points of a course are begun. -/
theorem begun_of_mem {p : Point} (h : Course begun m moments m₁) (hp : .begins p ∈ moments) :
    begun p := by
  obtain ⟨before, after, rfl⟩ := List.append_of_mem hp
  exact h.moment.2.1.1

end Course

/-- The values that there are after some moments: a frame or a field has them, or some
expression has yielded them. -/
inductive Present (moments : List Moment) (m : Machine) (v : Value) : Prop where
  /-- A variable has the value. -/
  | frame {i : Nat} {x : String} (h : (m.store.frame i).get? x = some v)
  /-- A field has the value. -/
  | field {object : Nat} {x : String} (h : m.store.field? object x = some v)
  /-- An expression has yielded the value. -/
  | yielded {p : Point} {m' : Machine} (hp : .ends p ∈ moments) (h : p.Yields v m')

/-- A task that yields a value leaves the machine after it. -/
theorem Point.Yields.eq_after {p : Point} {v : Value} {m : Machine} (h : p.Yields v m) :
    m = p.after := by
  cases h with
  | value h => rw [Point.after, h]; rfl

/-- All of them are placed. -/
theorem Course.present {m m₁ : Machine} {moments : List Moment} (h : Course begun m moments m₁)
    {v : Value} (hv : Present moments m₁ v) : v.Placed begun m₁ := by
  cases hv with
  | frame hv => exact h.placed.frames _ _ v hv
  | field hv => exact h.placed.fields _ _ v hv
  | yielded hp hv =>
    obtain ⟨before, after, rfl⟩ := List.append_of_mem hp
    obtain ⟨-, hplaced, hrest⟩ := h.moment
    exact (hv.eq_after ▸ hplaced.2.2 v _ hv).later hrest.grows

/-! ### Steps that take their course -/

/-- From every later machine on that is placed, a step takes its course through the
given moments, if their points count as begun, and what it yields is as stated. -/
def Runs (begun : Point → Prop) (m₀ : Machine) (A : Machine → α → Prop) (p : Eval α)
    (moments : Machine → List Moment) : Prop :=
  ∀ m, m₀.Grows m → m.Placed begun → (∀ q ∈ begunIn (moments m), begun q) →
    Course begun m (moments m) (machineAfter (p m)) ∧ ∀ a m', p m = .ok a m' → A m' a

/-- No task is begun. -/
abbrev noMoments : Machine → List Moment := fun _ => []

/-- Values that are placed. -/
abbrev PlacedValues (begun : Point → Prop) : Machine → Value → Prop := fun m v => v.Placed begun m

/-- Ends of statements that are placed. -/
abbrev PlacedFlows (begun : Point → Prop) : Machine → Flow → Prop :=
  fun m flow => flow.Placed begun m

/-- Nothing is said about what a step yields. -/
abbrev Unsaid : Machine → α → Prop := fun _ _ => True

namespace Runs

variable {m₀ : Machine} {A : Machine → α → Prop} {B : Machine → β → Prop} {p : Eval α}
  {f : α → Eval β} {moments : Machine → List Moment} {next : α → Machine → List Moment}

/-- A step that begins no task and sets no field. -/
theorem quiet (h : ∀ m, m₀.Grows m → m.Placed begun →
    (∃ a m', p m = .ok a m' ∧ Machine.Follows [] m m' ∧ m'.Placed begun ∧ A m' a) ∨
      ∃ halt, p m = .error halt m) : Runs begun m₀ A p noMoments := by
  intro m hm hplaced _
  rcases h m hm hplaced with ⟨a, m', hp, hfollows, hplaced', ha⟩ | ⟨halt, hp⟩
  · rw [hp]
    refine ⟨.still hfollows hplaced', fun b m'' hb => ?_⟩
    cases hb
    exact ha
  · rw [hp]
    exact ⟨.still (.refl m) hplaced, nofun⟩

/-- Yielding something at once comes to no moment. -/
theorem pure {a : α} (h : ∀ m, m₀.Grows m → A m a) : Runs begun m₀ A (Pure.pure a) noMoments :=
  quiet fun m hm hplaced => .inl ⟨a, m, rfl, .refl m, hplaced, h m hm⟩

/-- A placed value is yielded at once. -/
theorem value {v : Value} (h : v.Placed begun m₀) :
    Runs begun m₀ (PlacedValues begun) (Pure.pure v) noMoments :=
  pure fun _ hm => h.later hm

/-- A placed flow is how a statement ends at once. -/
theorem flow {flow : Flow} (h : flow.Placed begun m₀) :
    Runs begun m₀ (PlacedFlows begun) (Pure.pure flow) noMoments :=
  pure fun _ hm => h.later hm

/-- Going on to the next statement is placed. -/
theorem normal : Runs begun m₀ (PlacedFlows begun) (Pure.pure .normal) noMoments := flow trivial

/-- Halting comes to no moment. -/
theorem throw (halt : Halt) : Runs begun m₀ A (MonadExcept.throw halt) noMoments :=
  quiet fun _ _ _ => .inr ⟨halt, rfl⟩

/-- Failing comes to no moment. -/
theorem fail (line : Nat) (cause : RuntimeCause) :
    Runs begun m₀ A (Eval.fail line cause) noMoments :=
  throw _

/-- A step runs from every later machine too. -/
theorem later (h : Runs begun m₀ A p moments) {m₁ : Machine} (hm : m₀.Grows m₁) :
    Runs begun m₁ A p moments :=
  fun m hm' hplaced hbegun => h m (hm.trans hm') hplaced hbegun

/-- A second step runs from where the first one ended, and its moments come after those of
the first. -/
theorem bind (hp : Runs begun m₀ A p moments)
    (hf : ∀ m a, m₀.Grows m → A m a → Runs begun m B (f a) (next a)) :
    Runs begun m₀ B (p >>= f) fun m => moments m ++ momentsAfter (p m) next := by
  intro m hm hplaced hbegun
  dsimp only at hbegun
  rw [begunIn_append, List.forall_mem_append] at hbegun
  obtain ⟨hfirst, hnext⟩ := hbegun
  obtain ⟨hcourse, hok⟩ := hp m hm hplaced hfirst
  rw [bind_apply]
  dsimp only
  cases hpm : p m with
  | error halt m' =>
    rw [hpm] at hcourse
    refine ⟨?_, nofun⟩
    rw [momentsAfter, List.append_nil]
    exact hcourse
  | ok a m' =>
    rw [hpm] at hcourse hnext
    obtain ⟨hcourse', hok'⟩ :=
      hf m' a (hm.trans hcourse.grows) (hok a m' hpm) m' (.refl m') hcourse.placed hnext
    exact ⟨hcourse.append hcourse', hok'⟩

/-- Something that begins no task comes afterwards. -/
theorem andThen (hp : Runs begun m₀ A p moments)
    (hf : ∀ m a, m₀.Grows m → A m a → Runs begun m B (f a) noMoments) :
    Runs begun m₀ B (p >>= f) moments := by
  intro m hm hplaced hbegun
  have hbind := hp.bind hf m hm hplaced
  have hnone : momentsAfter (p m) (fun _ => noMoments) = [] := by cases p m <;> rfl
  dsimp only at hbind
  rw [hnone, List.append_nil] at hbind
  exact hbind hbegun

/-- A step that looks at the machine first. -/
theorem ask {f : Machine → Eval α}
    (hf : ∀ m, m₀.Grows m → m.Placed begun → Runs begun m A (f m) moments) :
    Runs begun m₀ A (get >>= f) moments :=
  fun m hm hplaced hbegun => hf m hm hplaced m (.refl m) hplaced hbegun

/-- What is left behind changes in nothing that matters. -/
theorem onState (g : Machine → Machine) {m : Machine} {ms : List Moment}
    (h : Course begun m ms (machineAfter (p m)) ∧ ∀ a m', p m = .ok a m' → A m' a)
    (hstore : ∀ m, (g m).store = m.store) (hdistances : ∀ m, (g m).distances = m.distances)
    (hA : ∀ m a, A m a → A (g m) a) :
    Course begun m ms (machineAfter (Lox.onState g (p m))) ∧
      ∀ a m', Lox.onState g (p m) = .ok a m' → A m' a := by
  refine ⟨?_, fun a m' hok => ?_⟩
  · rw [machineAfter_onState]
    exact h.1.proceed (.congr (hstore _) (hdistances _))
      (h.1.placed.congr (hstore _) (hdistances _))
  · cases hp : p m with
    | error halt m'' =>
      rw [hp] at hok
      cases hok
    | ok b m'' =>
      rw [hp] at hok
      cases hok
      exact hA m'' a (h.2 a m'' hp)

end Runs

end Lox

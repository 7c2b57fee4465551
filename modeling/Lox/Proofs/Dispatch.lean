import Lox.Proofs.Course.Bodies

/-!
# Methods and the keywords in them

A method is looked for in a class and then in its superclasses, and of the methods of
one class that have the name the last one counts. A method that is found is bound to an
object: it gets a new frame, and in its body the keyword `this` stands for what that
frame has. The same is so in functions that are nested in the body, however they are
called, as long as no other class comes in between. The keyword `super` stands for the
class that the next frame has, and that is the superclass which was looked up when the
class with the method was declared.
-/

namespace Lox

/-! ### The search for a method -/

/-- The method of a name that a class declares itself. The latest methods stand first,
and where two have one name the later is the one that counts. -/
def Class.Declares (cls : Class) (text : String) (method : Closure) : Prop :=
  ∃ later earlier, cls.methods = later ++ method :: earlier ∧ method.name = text ∧
    ∀ other ∈ later, other.name ≠ text

/-- The method of a name that is declared by the first class up the chain of
superclasses which declares one. -/
def Class.Dispatches (cls : Class) (text : String) (method : Closure) : Prop :=
  ∃ nearer declaring farther, cls.chain = nearer ++ declaring :: farther ∧
    (∀ c ∈ nearer, ∀ other, ¬c.Declares text other) ∧ declaring.Declares text method

section Search

variable {cls : Class} {text : String} {method : Closure}

/-- The method that a class finds among its own is the last one that it declares under the
name. -/
theorem Class.ownMethod?_eq_some :
    ownMethod? cls.methods text = some method ↔ cls.Declares text method := by
  unfold ownMethod? Declares
  rw [List.find?_eq_some_iff_append]
  simp only [beq_iff_eq, Bool.not_eq_true', beq_eq_false_iff_ne]
  constructor
  · rintro ⟨hname, later, earlier, hmethods, hlater⟩
    exact ⟨later, earlier, hmethods, hname, hlater⟩
  · rintro ⟨later, earlier, hmethods, hname, hlater⟩
    exact ⟨hname, later, earlier, hmethods, hlater⟩

/-- A method is looked for in one class after another, up the chain. -/
theorem Class.findMethod?_eq_findSome? (text : String) (cls : Class) :
    cls.findMethod? text = cls.chain.findSome? fun c => ownMethod? c.methods text := by
  fun_induction Class.findMethod? text cls with
  | case1 id name methods =>
    rw [Class.chain, List.findSome?_singleton]
  | case2 id name superclass methods ih =>
    rw [Class.chain, List.findSome?_cons, ih]
    cases ownMethod? methods text <;> rfl

/-- The search for a method comes to the one that counts. -/
theorem Class.findMethod?_eq_some :
    cls.findMethod? text = some method ↔ cls.Dispatches text method := by
  have hnone : ∀ c : Class, ownMethod? c.methods text = none ↔
      ∀ other, ¬c.Declares text other := by
    intro c
    rw [Option.eq_none_iff_forall_ne_some]
    exact forall_congr' fun other => not_congr ownMethod?_eq_some
  rw [Class.findMethod?_eq_findSome?, List.findSome?_eq_some_iff, Class.Dispatches]
  constructor
  · rintro ⟨nearer, declaring, farther, hchain, hmethod, hnearer⟩
    exact ⟨nearer, declaring, farther, hchain, fun c hc => (hnone c).1 (hnearer c hc),
      ownMethod?_eq_some.1 hmethod⟩
  · rintro ⟨nearer, declaring, farther, hchain, hnearer, hmethod⟩
    exact ⟨nearer, declaring, farther, hchain, ownMethod?_eq_some.2 hmethod,
      fun c hc => (hnone c).2 (hnearer c hc)⟩

/-- No method is found exactly if no class of the chain declares one. -/
theorem Class.findMethod?_eq_none :
    cls.findMethod? text = none ↔ ∀ method, ¬cls.Dispatches text method := by
  rw [Option.eq_none_iff_forall_ne_some]
  exact forall_congr' fun method => not_congr findMethod?_eq_some

/-- Of the methods in a declaration that have a name the last one, as a closure. -/
def LastDeclared (methods : List FunDecl) (env : Env) (text : String) (method : Closure) : Prop :=
  ∃ earlier f later, methods = earlier ++ f :: later ∧ f.name.text = text ∧
    (∀ other ∈ later, other.name.text ≠ text) ∧ method = f.asMethod env

/-- The methods that count are those that a declaration has last. -/
theorem Class.declares_iff_lastDeclared {env : Env} {methods : List FunDecl}
    (h : cls.methods = Eval.closeMethods env methods) :
    cls.Declares text method ↔ LastDeclared methods env text method := by
  have hclose : Eval.closeMethods env methods = (methods.map (FunDecl.asMethod env)).reverse := rfl
  unfold Class.Declares LastDeclared
  rw [h, hclose]
  constructor
  · rintro ⟨later, earlier, hmethods, hname, hlater⟩
    rw [List.reverse_eq_iff, List.reverse_append, List.reverse_cons, List.append_assoc] at hmethods
    obtain ⟨before, rest, rfl, -, hrest⟩ := List.map_eq_append_iff.1 hmethods
    obtain ⟨f, after, rfl, rfl, hafter⟩ := List.map_eq_cons_iff.1 hrest
    refine ⟨before, f, after, rfl, hname, fun other hother => ?_, rfl⟩
    have hreverse : after.map (FunDecl.asMethod env) = later.reverse := hafter
    have hmem := List.mem_map_of_mem (f := FunDecl.asMethod env) hother
    rw [hreverse] at hmem
    exact hlater _ (List.mem_reverse.1 hmem)
  · rintro ⟨earlier, f, later, rfl, rfl, hlater, rfl⟩
    refine ⟨(later.map (FunDecl.asMethod env)).reverse,
      (earlier.map (FunDecl.asMethod env)).reverse, by simp, rfl, fun other hother => ?_⟩
    obtain ⟨g, hg, rfl⟩ := List.mem_map.1 (List.mem_reverse.1 hother)
    exact hlater g hg

end Search

/-! ### What the keywords stand for -/

/-- A method of a class that is bound to an object and made a function. -/
def Eval.boundMethod (cls : Class) (object : Value) (name : Name) : Eval Value :=
  match cls.findMethod? name.text with
  | some method => Eval.bindMethod method object >>= Eval.newFunction
  | none => Eval.fail name.line (.undefinedProperty name.text)

section Keywords

variable {derived : Bool} {outer : Surroundings} {bound : Env} {m : Machine} {object : Value}
  {fuel id line : Nat} {name : Name}

/-- The keyword of objects stands for what the frame of the method has. -/
theorem Point.At.this
    (h : At m.distances (InMethod derived outer bound) ⟨fuel + 1, .evaluate (.this id line), m⟩)
    (hthis : m.store.getAt bound 0 "this" = .ok object) :
    Eval.evaluate (fuel + 1) (.this id line) m = .ok object m := by
  obtain ⟨around, hanchored, hin⟩ := h
  have hsite := Expr.Anchored.sites hanchored _ (.head _)
  obtain ⟨n, rfl, hbinds, -⟩ := hin.binds hsite.plain
  have hdistance := hsite.recorded ⟨.this, ⟨id, thisName line⟩⟩ n rfl hbinds
  have hread : m.store.getAt m.env n "this" = .ok object := by
    rw [Store.getAt_eq_ok] at hthis ⊢
    rwa [List.drop_zero] at hthis
  change Eval.readRef ⟨id, thisName line⟩ m = _
  unfold Eval.readRef
  rw [get_bind_apply]
  simp only [hdistance]
  change Eval.orFault (m.store.getAt m.env n "this") m = _
  rw [hread]
  rfl

/-- The keyword of superclasses stands for what the frame around that one has. -/
theorem Point.At.super {superclass : Class}
    (h : At m.distances (InMethod true outer bound) ⟨fuel + 1, .evaluate (.super id line name), m⟩)
    (hthis : m.store.getAt bound 0 "this" = .ok object)
    (hsuper : m.store.getAt bound 1 "super" = .ok (.cls superclass)) :
    Eval.evaluate (fuel + 1) (.super id line name) m =
      Eval.boundMethod superclass object name m := by
  obtain ⟨around, hanchored, hin⟩ := h
  have hsite := Expr.Anchored.sites hanchored _ (.head _)
  obtain ⟨n, rfl, -, hbinds⟩ := hin.binds hsite.plain
  have hdistance := hsite.recorded ⟨.super, ⟨id, superName line⟩⟩ (n + 1) rfl (hbinds rfl)
  have hinner : m.store.getAt m.env n "this" = .ok object := by
    rw [Store.getAt_eq_ok] at hthis ⊢
    rwa [List.drop_zero] at hthis
  have hclass : m.store.getAt m.env (n + 1) "super" = .ok (.cls superclass) := by
    rw [Store.getAt_eq_ok] at hsuper ⊢
    rwa [List.drop_drop] at hsuper
  change Eval.superMethod id name m = _
  unfold Eval.superMethod
  rw [get_bind_apply]
  simp only [hdistance]
  rw [hclass, Eval.objectInside, hinner]
  rfl

end Keywords

/-- Among some moments, the keyword of objects stands for an object in the body of a
method and in the functions nested in it. -/
def Closure.ThisIs (c : Closure) (object : Value) (moments : List Moment) : Prop :=
  ∀ fuel id line m, .begins ⟨fuel + 1, .evaluate (.this id line), m⟩ ∈ moments →
    Serves c ⟨fuel + 1, .evaluate (.this id line), m⟩ →
      Eval.evaluate (fuel + 1) (.this id line) m = .ok object m

/-- A class that was declared in the course of some moments. Its superclass is the one that
was looked up then, and the methods that count are those that the declaration has last. -/
def Class.DeclaredIn (moments : List Moment) (cls : Class) : Prop :=
  ∃ p env methods, .begins p ∈ moments ∧ p.DeclaresClass cls.superclass env methods ∧
    ∀ text method, cls.Declares text method ↔ LastDeclared methods env text method

/-- What is found when a method of an object is looked for, from a class on: after the
earlier moments, on a machine, and as the later moments show. -/
inductive Finds (cls : Class) (name : Name) (object : Value) (earlier : List Moment)
    (m : Machine) (later : List Moment) : EStateM.Result Halt Machine Value → Prop where
  /-- The method that counts becomes a function that differs from all that there is. It has
  a frame of its own with the object. -/
  | found {method f : Closure} {id frame : Nat} {m' : Machine}
      (hmethod : cls.Dispatches name.text method)
      (hf : f = { method with env := frame :: method.env })
      (hframe : (m'.store.frame frame).get? "this" = some object)
      (hfresh : ∀ v, Present earlier m v → v.equals (.function id f) = false)
      (hbody : f.ThisIs object later) :
      Finds cls name object earlier m later (.ok (.function id f) m')
  /-- There is no such method. -/
  | missing (h : ∀ method, ¬cls.Dispatches name.text method) :
      Finds cls name object earlier m later
        (.error (.error ⟨name.line, .undefinedProperty name.text⟩) m)

/-- The search for a method of an object, from a class on. -/
structure Search (cls : Class) (name : Name) (object : Value) (earlier : List Moment)
    (m : Machine) (later : List Moment) (result : EStateM.Result Halt Machine Value) : Prop where
  /-- The class and its superclasses were declared before. -/
  declared : ∀ c ∈ cls.chain, c.DeclaredIn earlier
  /-- The search comes to this result. -/
  finds : Finds cls name object earlier m later result

section Courses

variable {begun : Point → Prop} {m₀ m m₁ : Machine} {earlier later : List Moment}
  {object : Value} {name : Name}

/-- The frame of a method keeps its object, so the keyword keeps standing for it. -/
theorem Course.thisIs {c : Closure} {derived : Bool} {outer : Surroundings} {opener : Opener}
    (hlater : Course begun m later m₁)
    (hdecl : FunDecl.Anchored m.distances (.methods derived :: outer) opener c.decl)
    (hthis : m.store.getAt c.env 0 "this" = .ok object) : c.ThisIs object later := by
  intro fuel id line m' hmem hserves
  obtain ⟨between, rest, rfl⟩ := List.append_of_mem hmem
  have hgrows : m.Grows m' := hlater.moment.1.toGrows
  have hin := hserves.at InMethod.stable (hdecl.later hgrows.distances) .methods
  exact hin.this (hgrows.getAt not_isPlain_this hthis)

/-- A method that is found gets a frame with the object, and a new identity. -/
theorem boundMethod_of_some {cls : Class} {method : Closure}
    (h : cls.findMethod? name.text = some method) : ∃ m',
      Eval.boundMethod cls object name m = .ok (.function m.store.nextId
        { method with env := m.store.frames.size :: method.env }) m' ∧
      (m'.store.frame m.store.frames.size).get? "this" = some object ∧ m.Grows m' := by
  unfold Eval.boundMethod
  rw [h]
  refine ⟨_, rfl, ?_, ?_⟩
  · change (Store.frame (m.store.newFrame method.env [("this", object)]).2 _).get? "this" = _
    rw [Store.frame_newFrame_self]
    rfl
  · exact (Machine.Follows.newFrame method.env [("this", object)]).toGrows.trans
      Machine.Follows.freshId.toGrows

/-- A method that is not found is an error, on the line of its name. -/
theorem boundMethod_of_none {cls : Class} (h : cls.findMethod? name.text = none) :
    Eval.boundMethod cls object name m =
      .error (.error ⟨name.line, .undefinedProperty name.text⟩) m := by
  unfold Eval.boundMethod
  rw [h]
  rfl

/-- Binding a method takes a frame and an identity, and removes nothing. -/
theorem grows_boundMethod (cls : Class) (object : Value) (name : Name) (m : Machine) :
    m.Grows (machineAfter (Eval.boundMethod cls object name m)) := by
  cases hfind : cls.findMethod? name.text with
  | none =>
    rw [boundMethod_of_none hfind]
    exact .refl m
  | some method =>
    obtain ⟨m', hbound, -, hgrows⟩ := boundMethod_of_some hfind
    rw [hbound]
    exact hgrows

/-- A class that there is was declared, and not later. -/
theorem Class.Placed.declaredIn {cls : Class} (h : cls.Placed begun m) {m' : Machine}
    (hm : m.Grows m') (hlater : Course begun m' later m₁)
    (hbegun : ∀ p, begun p → .begins p ∈ earlier ++ later) :
    ∀ c ∈ cls.chain, c.DeclaredIn earlier := by
  intro c hc
  obtain ⟨⟨p, env, methods, hp, hless, hdeclares, hmethods⟩, -⟩ := h c hc
  refine ⟨p, env, methods, ?_, hdeclares, fun _ _ => declares_iff_lastDeclared hmethods⟩
  rcases List.mem_append.1 (hbegun p hp) with hp | hp
  · exact hp
  · have hgrows : m.Grows p.machine := hm.trans (hlater.grows_to hp)
    exact absurd hgrows.nextId (Nat.not_le_of_lt hless)

/-- Binding a method to an object is what the search for it yields. -/
theorem search_boundMethod {cls : Class} (hearlier : Course begun m₀ earlier m)
    (hcls : cls.Placed begun m)
    (hlater : Course begun (machineAfter (Eval.boundMethod cls object name m)) later m₁)
    (hbegun : ∀ p, begun p → .begins p ∈ earlier ++ later) :
    Search cls name object earlier m later (Eval.boundMethod cls object name m) := by
  refine ⟨hcls.declaredIn (grows_boundMethod cls object name m) hlater hbegun, ?_⟩
  cases hfind : cls.findMethod? name.text with
  | none =>
    rw [boundMethod_of_none hfind]
    exact .missing (Class.findMethod?_eq_none.1 hfind)
  | some method =>
    obtain ⟨m', hbound, hframe, hgrows⟩ := boundMethod_of_some hfind
    rw [hbound] at hlater ⊢
    obtain ⟨derived, outer, hdecl⟩ := ((hcls.later hgrows).findMethod? hfind).1.decl
    refine .found (Class.findMethod?_eq_some.1 hfind) rfl hframe (fun v hv => ?_) ?_
    · have hplaced := hearlier.present hv
      cases v with
      | function id c => exact beq_eq_false_iff_ne.2 (Nat.ne_of_lt hplaced.1)
      | _ => rfl
    · exact hlater.thisIs hdecl (Store.getAt_eq_ok.2 ⟨_, _, rfl, hframe⟩)

end Courses

end Lox

import Lox.Proofs.Scope.Surroundings
import Lox.Proofs.Scope.Resolution
import Lox.Proofs.Session

/-!
# The errors found are the errors there are

The walk carries a context along: scopes, the kind of body and the kind of class.
At every place it comes to, the context agrees with what stands around that place
in the text. So what it finds there is what the rules say of the place. The walk
goes on after an error, and the agreement does not depend on there being none.
-/

namespace Lox

/-- The kind of body that a scope of statements belongs to; a block is no body. -/
def Opener.body : Opener → Body
  | .block => .topLevel
  | .function => .function
  | .method name => .ofMethod name

namespace Surroundings

/-- The kind of body around a place. -/
def body (around : Surroundings) : Body := (around.body?.map Opener.body).getD .topLevel

/-- The kind of class around a place. -/
def enclosing (around : Surroundings) : Enclosing :=
  match around.class? with
  | none => .outside
  | some false => .base
  | some true => .derived

/-- Statements stand on the top level and in scopes of statements. -/
def HoldsStatements : Surroundings → Prop
  | .methods _ :: _ => False
  | _ => True

/-- A statement that begins does not change the body around it. -/
theorem body_start (around : Surroundings) (s : Stmt) : (around.start s).body = around.body := by
  match around with
  | [] => rfl
  | .statements .block _ _ :: _ => rfl
  | .statements .function _ _ :: _ => rfl
  | .statements (.method _) _ _ :: _ => rfl
  | .methods _ :: _ => rfl

/-- Nor does it change the class around it. -/
theorem enclosing_start (around : Surroundings) (s : Stmt) :
    (around.start s).enclosing = around.enclosing := by
  match around with
  | [] => rfl
  | .statements _ _ _ :: _ => rfl
  | .methods _ :: _ => rfl

/-- Statements follow statements. -/
theorem HoldsStatements.start {around : Surroundings} (h : around.HoldsStatements) (s : Stmt) :
    (around.start s).HoldsStatements := by
  match around with
  | [] => trivial
  | .statements _ _ _ :: _ => trivial
  | .methods _ :: _ => exact h.elim

/-- Outside of all classes the kind of class says so. -/
theorem enclosing_eq_outside {around : Surroundings} :
    around.enclosing = .outside ↔ around.class? = none := by
  unfold enclosing
  match around.class? with
  | none | some false | some true => simp

/-- Inside a class without a superclass the kind of class says so. -/
theorem enclosing_eq_base {around : Surroundings} :
    around.enclosing = .base ↔ around.class? = some false := by
  unfold enclosing
  match around.class? with
  | none | some false | some true => simp

/-- A block is no body. -/
theorem body?_ne_block (around : Surroundings) : around.body? ≠ some .block := by
  induction around with
  | nil => nofun
  | cons layer outer ih =>
    match layer with
    | .statements .block _ _ => exact ih
    | .statements .function _ _ => nofun
    | .statements (.method _) _ _ => nofun
    | .methods _ => exact ih

/-- The body of a method is that of an initializer if the method has its name. -/
theorem ofMethod_eq_initializer {name : String} :
    Body.ofMethod name = .initializer ↔ name = "init" := by
  unfold Body.ofMethod initializerName
  split <;> simp_all

/-- A method is not on the top level. -/
theorem ofMethod_ne_topLevel (name : String) : Body.ofMethod name ≠ .topLevel := by
  unfold Body.ofMethod
  split <;> nofun

/-- Only on the top level there is no body around. -/
theorem body_eq_topLevel {around : Surroundings} :
    around.body = .topLevel ↔ around.body? = none := by
  have hblock := around.body?_ne_block
  unfold body
  match h : around.body? with
  | none => simp
  | some .block => exact absurd h hblock
  | some .function => simp [Opener.body]
  | some (.method name) => simp [Opener.body, ofMethod_ne_topLevel]

/-- A body is that of an initializer exactly if it is a method of that name. -/
theorem body_eq_initializer {around : Surroundings} :
    around.body = .initializer ↔ around.body? = some (.method "init") := by
  unfold body
  match around.body? with
  | none => simp
  | some .block => simp [Opener.body]
  | some .function => simp [Opener.body]
  | some (.method name) => simp [Opener.body, ofMethod_eq_initializer]

/-- Only the declaration of a variable works out the first value of one. -/
theorem not_initializes_start {around : Surroundings} (h : around.HoldsStatements) {s : Stmt}
    (hs : ∀ name value, s ≠ .varDecl name value) (text : String) :
    ¬ (around.start s).Initializes text := by
  match around with
  | [] => exact id
  | .methods _ :: _ => exact h.elim
  | .statements _ _ _ :: _ =>
    cases s with
    | varDecl name value => exact absurd rfl (hs name value)
    | _ => exact id

end Surroundings

/-- What the walk carries along agrees with what stands around the place. -/
structure Context.Mirrors (Γ : Context) (around : Surroundings) : Prop where
  /-- The scopes have the same names. -/
  scopes : ∀ text, Γ.scopes.map (·.has text) = around.scopes.map (·.contains text)
  /-- The same body is around. -/
  body : Γ.body = around.body
  /-- The same class is around. -/
  enclosing : Γ.enclosing = around.enclosing

/-- No name of the innermost scope waits for its first value. -/
def Context.Settled (Γ : Context) : Prop := ∀ text, Γ.isPending text = false

/-- Where an expression is looked at, the names that wait for their first value
agree too. -/
structure Context.Sees (Γ : Context) (around : Surroundings) : Prop where
  /-- The context has the scopes of the place. -/
  mirrors : Γ.Mirrors around
  /-- The names that wait for their first value are those that are being initialized. -/
  pending : ∀ text, Γ.isPending text = true ↔ around.Initializes text

namespace Context

variable {Γ : Context} {around : Surroundings}

/-- The context at the start agrees with the top level. -/
theorem mirrors_top : top.Mirrors [] := ⟨fun _ => rfl, rfl, rfl⟩

/-- On the top level no name waits. -/
theorem settled_top : top.Settled := fun _ => rfl

/-- Of the names that wait, the one that is defined does so no longer. -/
theorem isPending_define (Γ : Context) (text other : String) :
    (Γ.define text).isPending other = (other != text && Γ.isPending other) := by
  obtain ⟨scopes, b, e⟩ := Γ
  cases scopes with
  | nil => simp [define, onInnermost, isPending]
  | cons scope rest =>
    simp only [define, onInnermost, isPending, Scope.isPending, Scope.define]
    by_cases h : other = text
    · simp [h]
    · simp [List.lookup_cons, beq_false_of_ne h, bne]

/-- A name that is defined does not wait. -/
theorem Settled.define (h : Γ.Settled) (text : String) : (Γ.define text).Settled := fun other => by
  rw [isPending_define, h other, Bool.and_false]

/-- Behind a statement no name waits. -/
theorem Settled.after (h : Γ.Settled) (s : Stmt) : (Γ.after s).Settled := by
  cases s <;> first | exact h.define _ | exact h

/-- Parameters do not wait. -/
theorem settled_parameterScope (params : List Name) (scope : Scope)
    (h : ∀ text, scope.isPending text = false) (text : String) :
    Scope.isPending (params.foldl (fun scope name => scope.define name.text) scope) text =
      false := by
  induction params generalizing scope with
  | nil => exact h text
  | cons name rest ih =>
    refine ih _ fun other => ?_
    have hscope := isPending_define ⟨[scope], .topLevel, .outside⟩ name.text other
    rw [show isPending ⟨[scope], .topLevel, .outside⟩ other = false from h other,
      Bool.and_false] at hscope
    exact hscope

/-- The scope of a keyword. -/
theorem has_keyword (keyword text : String) :
    Scope.has [(keyword, true)] text = [keyword].contains text := by
  simp [Scope.has, beq_eq_decide, eq_comm]

namespace Mirrors

/-- A name is taken if the innermost scope has it. -/
theorem isTaken (h : Γ.Mirrors around) (text : String) :
    Γ.isTaken text = true ↔ text ∈ around.innermost := by
  have hscopes := h.scopes text
  unfold Context.isTaken Surroundings.innermost
  match hΓ : Γ.scopes, ha : around.scopes with
  | [], [] => simp
  | [], _ :: _ => simp [hΓ, ha] at hscopes
  | _ :: _, [] => simp [hΓ, ha] at hscopes
  | scope :: _, names :: _ =>
    rw [hΓ, ha] at hscopes
    simp only [(List.cons.inj hscopes).1, List.headD_cons, List.contains_iff_mem]

/-- The distance of a name is the number of the first scope that has it. -/
theorem distance? (h : Γ.Mirrors around) (text : String) :
    Γ.distance? text = around.scopes.findIdx? (·.contains text) := by
  have hsame := congrArg (List.findIdx? id) (h.scopes text)
  rw [List.findIdx?_map, List.findIdx?_map] at hsame
  exact hsame

/-- A change of the innermost scope that adds the names that a statement declares. -/
theorem change (h : Γ.Mirrors around) (hplace : around.HoldsStatements) {s : Stmt}
    {change : Scope → Scope}
    (hs : ∀ (scope : Scope) text,
      (change scope).has text = (s.declared.contains text || scope.has text)) :
    (Γ.onInnermost change).Mirrors (around.start s) := by
  obtain ⟨scopes, b, e⟩ := Γ
  have hbody := (Surroundings.body_start around s).symm
  have henclosing := (Surroundings.enclosing_start around s).symm
  match around with
  | .methods _ :: _ => exact hplace.elim
  | [] =>
    cases scopes with
    | nil => exact h
    | cons scope rest => cases h.scopes ""
  | .statements opener params begun :: outer =>
    cases scopes with
    | nil => cases h.scopes ""
    | cons scope rest =>
      refine ⟨fun text => ?_, h.body.trans hbody, h.enclosing.trans henclosing⟩
      obtain ⟨hhead, htail⟩ := List.cons.inj (h.scopes text)
      refine congrArg₂ List.cons ?_ htail
      beta_reduce at hhead ⊢
      rw [hs, hhead, Bool.eq_iff_iff, Bool.or_eq_true]
      simp only [Layer.names, List.flatMap_cons, List.contains_iff_mem, List.mem_append]
      tauto

/-- Behind a statement the context agrees with the place behind it. -/
theorem after (h : Γ.Mirrors around) (hplace : around.HoldsStatements) (s : Stmt) :
    (Γ.after s).Mirrors (around.start s) := by
  have hdefine (name : String) (hs : s.declared = [name]) :
      (Γ.define name).Mirrors (around.start s) := by
    refine h.change hplace fun scope text => ?_
    rw [Scope.has_define, hs, List.contains_cons, List.contains_nil, Bool.or_false,
      Bool.beq_comm]
  have hsame (hs : s.declared = []) : Γ.Mirrors (around.start s) := by
    have hid : Γ.onInnermost id = Γ := by
      obtain ⟨scopes, b, e⟩ := Γ
      cases scopes <;> rfl
    rw [← hid]
    refine h.change hplace fun scope text => ?_
    rw [hs, List.contains_nil, Bool.false_or, id]
  cases s with
  | varDecl name _ => exact hdefine _ rfl
  | funDecl function => exact hdefine _ rfl
  | classDecl name _ _ => exact hdefine _ rfl
  | _ => exact hsame rfl

/-- So does the context inside a block. -/
theorem block (h : Γ.Mirrors around) :
    (Γ.enter []).Mirrors (.statements .block [] [] :: around) :=
  ⟨fun text => congrArg (List.cons false) (h.scopes text), h.body, h.enclosing⟩

/-- Among the parameters of a function, some of them declared. -/
theorem params (h : Γ.Mirrors around) (opener : Opener) (ho : opener ≠ .block)
    (earlier : List Name) :
    (Γ.inFunction opener.body earlier).Mirrors (.statements opener earlier [] :: around) := by
  refine ⟨fun text => ?_, ?_, h.enclosing⟩
  · refine congrArg₂ List.cons ?_ (h.scopes text)
    rw [Layer.names, List.flatMap_nil, List.append_nil]
    exact has_parameterScope earlier text
  · cases opener with
    | block => exact absurd rfl ho
    | function => rfl
    | method _ => rfl

/-- So does the context for the methods of a class. -/
theorem inClass (h : Γ.Mirrors around) (derived : Bool) :
    (Γ.inClass derived).Mirrors (.methods derived :: around) := by
  cases derived with
  | false =>
    refine ⟨fun text => ?_, h.body, rfl⟩
    exact congrArg₂ List.cons (has_keyword "this" text) (h.scopes text)
  | true =>
    refine ⟨fun text => ?_, h.body, rfl⟩
    exact congrArg₂ List.cons (has_keyword "this" text)
      (congrArg₂ List.cons (has_keyword "super" text) (h.scopes text))

/-- Inside a statement other than a declaration of a variable, no name waits. -/
theorem sees (h : Γ.Mirrors around) (hplace : around.HoldsStatements) (hsettled : Γ.Settled)
    {s : Stmt} (hs : ∀ name value, s ≠ .varDecl name value) :
    (Γ.after s).Sees (around.start s) := by
  refine ⟨h.after hplace s, fun text => ?_⟩
  rw [hsettled.after s text]
  exact iff_of_false nofun (Surroundings.not_initializes_start hplace hs text)

/-- Inside the declaration of a variable, its name waits if it is new. -/
theorem declare (h : Γ.Mirrors around) (hplace : around.HoldsStatements) (hsettled : Γ.Settled)
    (name : Name) (value : Option Expr) :
    (Γ.declare name.text).Sees (around.start (.varDecl name value)) := by
  constructor
  · refine h.change hplace fun scope text => ?_
    rw [Scope.has_declare, Stmt.declared, List.contains_cons, List.contains_nil, Bool.or_false,
      Bool.or_comm, Bool.beq_comm]
  · intro text
    have htaken := h.isTaken name.text
    obtain ⟨scopes, b, e⟩ := Γ
    match around with
    | .methods _ :: _ => exact hplace.elim
    | [] =>
      cases scopes with
      | nil => exact iff_of_false nofun id
      | cons scope rest => cases h.scopes ""
    | .statements opener params begun :: outer =>
      cases scopes with
      | nil => cases h.scopes ""
      | cons scope rest =>
        have hold : Scope.isPending scope text = false := hsettled text
        change scope.has name.text = true ↔ name.text ∈ Layer.names params begun at htaken
        change Scope.isPending (scope.declare name.text) text = true ↔
          name.text = text ∧ text ∉ Layer.names params begun
        unfold Scope.declare
        split
        · rename_i hhas
          rw [hold]
          refine iff_of_false nofun fun hnew => hnew.2 ?_
          exact hnew.1 ▸ htaken.1 hhas
        · rename_i hhas
          rw [htaken] at hhas
          by_cases heq : text = name.text
          · subst heq
            simpa [Scope.isPending] using hhas
          · rw [Scope.isPending, List.lookup_cons, beq_eq_false_iff_ne.2 heq]
            exact iff_of_false (by simpa [Scope.isPending] using hold) fun hnew => heq hnew.1.symm

end Mirrors

end Context

/-- The distance that the walk finds at a place. A `this` in no class gets none. -/
def Occurrence.located? (o : Occurrence) : Option (Nat × Nat) :=
  match o.site with
  | .reference ⟨kind, ref⟩ =>
    if kind = .this ∧ o.around.class? = none then none
    else (o.around.scopes.findIdx? (·.contains ref.name.text)).map (ref.id, ·)
  | _ => none

/-- The errors of one site are the one error that it has, or none. -/
theorem Reports.single {o : Occurrence} {errors : List ScopeError}
    (h : ∀ error, o.Wrong error ↔ error ∈ errors) (hone : errors.length ≤ 1) :
    Reports [o] errors := by
  match errors with
  | [] => exact .right (fun error hwrong => nomatch (h error).1 hwrong) .nil
  | [only] => exact .wrong (fun error => (h error).trans List.mem_singleton) .nil
  | _ :: _ :: _ => simp at hone

namespace Findings

variable {condition : Bool} {place : Name} {cause : ScopeCause}

/-- Of a single condition at most one error is found, and that is the one for it. -/
theorem mem_errorIf {error : ScopeError} :
    error ∈ (errorIf condition place cause).errors ↔
      condition = true ∧ error = ⟨place, cause⟩ := by
  cases condition <;> simp [errorIf, none]

/-- A condition has one error at most. -/
theorem length_errorIf : (errorIf condition place cause).errors.length ≤ 1 := by
  cases condition <;> simp [errorIf, none]

/-- Findings are about some sites if the errors and the distances are theirs. -/
structure Describes (findings : Findings) (os : List Occurrence) : Prop where
  /-- The errors are those of the sites, in order. -/
  errors : Reports os findings.errors
  /-- The distances are those of the sites, in order. -/
  distances : findings.distances = os.filterMap Occurrence.located?

namespace Describes

variable {a b : Findings} {first second : List Occurrence} {o : Occurrence}

/-- Where nothing is found, there are no sites. -/
theorem none : Findings.none.Describes [] := ⟨.nil, rfl⟩

/-- What is found one after the other is about the sites one after the other. -/
theorem append (ha : a.Describes first) (hb : b.Describes second) :
    (a ++ b).Describes (first ++ second) := by
  refine ⟨ha.errors.append hb.errors, ?_⟩
  rw [distances_append, ha.distances, hb.distances, List.filterMap_append]

/-- A site that is no reference and that one rule speaks about. -/
theorem errorIf (h : ∀ error, o.Wrong error ↔ condition = true ∧ error = ⟨place, cause⟩)
    (hlocated : o.located? = Option.none) :
    (Findings.errorIf condition place cause).Describes [o] := by
  constructor
  · exact .single (fun error => (h error).trans mem_errorIf.symm) length_errorIf
  · rw [distances_errorIf, List.filterMap_cons_none hlocated, List.filterMap_nil]

end Describes

end Findings

namespace Context

variable {Γ : Context} {around : Surroundings}

/-- Finding a distance finds no error. -/
theorem errors_locate (Γ : Context) (ref : Ref) : (Γ.locate ref).errors = [] := by
  unfold locate
  split <;> rfl

/-- A reference is found where its name is bound. -/
theorem Mirrors.located (h : Γ.Mirrors around) {kind : Reference.Kind} {ref : Ref}
    (hkind : ¬ (kind = .this ∧ around.class? = none)) :
    (Γ.locate ref).distances =
      [(⟨around, .reference ⟨kind, ref⟩⟩ : Occurrence)].filterMap Occurrence.located? := by
  have hlocated : Occurrence.located? ⟨around, .reference ⟨kind, ref⟩⟩ =
      (Γ.distance? ref.name.text).map (ref.id, ·) := by
    rw [h.distance?]
    exact if_neg hkind
  unfold locate
  cases hd : Γ.distance? ref.name.text with
  | none =>
    rw [hd] at hlocated
    rw [List.filterMap_cons_none hlocated]
    rfl
  | some d =>
    rw [hd] at hlocated
    rw [List.filterMap_cons_some hlocated]
    rfl

/-- Reading a name is looked at by its rule: a name that waits is an error, and its
distance is found all the same. -/
theorem Sees.read (h : Γ.Sees around) (ref : Ref) :
    (Γ.read ref).Describes [⟨around, .reference ⟨.read, ref⟩⟩] := by
  constructor
  · rw [Context.read, Findings.errors_append, errors_locate, List.append_nil]
    refine .single (fun error => ?_) Findings.length_errorIf
    rw [Findings.mem_errorIf, h.pending]
    constructor
    · rintro ⟨⟩
      exact ⟨‹_›, rfl⟩
    · rintro ⟨hinitializes, rfl⟩
      exact .selfReferentialInitializer hinitializes
  · rw [Context.read, Findings.distances_append, Findings.distances_errorIf, List.nil_append]
    exact h.mirrors.located (by simp)

/-- Assigning to a name breaks no rule. -/
theorem Mirrors.assign (h : Γ.Mirrors around) (ref : Ref) :
    (Γ.locate ref).Describes [⟨around, .reference ⟨.assign, ref⟩⟩] := by
  refine ⟨?_, h.located (by simp)⟩
  rw [errors_locate]
  exact .right (fun _ hwrong => nomatch hwrong) .nil

/-- A `this` is looked at by its rule, and outside of all classes it has no distance. -/
theorem Mirrors.readThis (h : Γ.Mirrors around) (id line : Nat) :
    (Γ.readThis id line).Describes [⟨around, .reference ⟨.this, ⟨id, thisName line⟩⟩⟩] := by
  have hclass : Γ.enclosing = .outside ↔ around.class? = none := by
    rw [h.enclosing, Surroundings.enclosing_eq_outside]
  have hrule (error : ScopeError) :
      Occurrence.Wrong ⟨around, .reference ⟨.this, ⟨id, thisName line⟩⟩⟩ error ↔
        Γ.enclosing = .outside ∧ error = ⟨thisName line, .thisOutsideClass⟩ := by
    rw [hclass]
    constructor
    · rintro ⟨⟩
      exact ⟨‹_›, rfl⟩
    · rintro ⟨houtside, rfl⟩
      exact .thisOutsideClass houtside
  unfold Context.readThis
  split
  · rename_i houtside
    refine .errorIf (fun error => (hrule error).trans ?_) (if_pos ⟨rfl, hclass.1 houtside⟩)
    exact and_congr_left fun _ => iff_of_true houtside rfl
  · rename_i hinside
    constructor
    · rw [errors_locate]
      exact .right (fun error hwrong => hinside ((hrule error).1 hwrong).1) .nil
    · exact h.located fun hthis => hinside (hclass.2 hthis.2)

/-- A `super` is looked at by its rules, and its distance is found all the same. -/
theorem Mirrors.readSuper (h : Γ.Mirrors around) (id line : Nat) :
    (Γ.readSuper id line).Describes [⟨around, .reference ⟨.super, ⟨id, superName line⟩⟩⟩] := by
  constructor
  · rw [Context.readSuper, Findings.errors_append, errors_locate, List.append_nil,
      Findings.errors_append]
    refine .single (fun error => ?_) ?_
    · rw [List.mem_append, Findings.mem_errorIf, Findings.mem_errorIf, decide_eq_true_iff,
        decide_eq_true_iff, h.enclosing, Surroundings.enclosing_eq_outside,
        Surroundings.enclosing_eq_base]
      constructor
      · rintro (_ | _)
        · exact .inl ⟨‹_›, rfl⟩
        · exact .inr ⟨‹_›, rfl⟩
      · rintro (⟨houtside, rfl⟩ | ⟨hbase, rfl⟩)
        · exact .superOutsideClass houtside
        · exact .superWithoutSuperclass hbase
    · cases Γ.enclosing <;> simp [Findings.errorIf, Findings.none]
  · rw [Context.readSuper, Findings.distances_append, Findings.distances_append,
      Findings.distances_errorIf, Findings.distances_errorIf, List.nil_append, List.nil_append]
    exact h.located (by simp)

/-- A name that is declared is looked at by its rule. -/
theorem Mirrors.introduce (h : Γ.Mirrors around) (name : Name) :
    (Γ.introduce name).Describes [⟨around, .declares name⟩] := by
  refine .errorIf (fun error => ?_) rfl
  rw [h.isTaken]
  constructor
  · rintro ⟨⟩
    exact ⟨‹_›, rfl⟩
  · rintro ⟨htaken, rfl⟩
    exact .duplicateDeclaration htaken

/-- A `return` is looked at by its rules: it may be outside of all functions, or have a
value in an initializer. -/
theorem Mirrors.returned (h : Γ.Mirrors around) (line : Nat) (hasValue : Bool) :
    (Γ.returned line hasValue).Describes [⟨around, .returns line hasValue⟩] := by
  refine ⟨?_, Grammar.Context.distances_returned Γ line hasValue⟩
  rw [Context.returned, Findings.errors_append]
  refine .single (fun error => ?_) ?_
  · rw [List.mem_append, Findings.mem_errorIf, Findings.mem_errorIf, Bool.and_eq_true,
      decide_eq_true_iff, decide_eq_true_iff, h.body, Surroundings.body_eq_topLevel,
      Surroundings.body_eq_initializer]
    constructor
    · rintro (_ | _)
      · exact .inl ⟨‹_›, rfl⟩
      · exact .inr ⟨⟨‹_›, rfl⟩, rfl⟩
    · rintro (⟨houtside, rfl⟩ | ⟨⟨hinside, rfl⟩, rfl⟩)
      · exact .returnOutsideFunction houtside
      · exact .returnValueFromInitializer hinside
  · cases Γ.body <;> cases hasValue <;> simp [Findings.errorIf, Findings.none]

/-- The name of a superclass is compared with that of the class, and then it is read. -/
theorem Sees.superclass (h : Γ.Sees around) (name : Name) (parent : Option Ref) :
    (Γ.superclass name parent).Describes (occurrencesParent around name parent) := by
  cases parent with
  | none => exact .none
  | some ref =>
    refine Findings.Describes.append (.errorIf (fun error => ?_) rfl) (h.read ref)
    rw [beq_iff_eq]
    constructor
    · rintro ⟨⟩
      exact ⟨‹_›, rfl⟩
    · rintro ⟨hsame, rfl⟩
      exact .selfInheritance hsame

/-- Each parameter is declared where the earlier ones are. -/
theorem Mirrors.parameters (h : Γ.Mirrors around) {opener : Opener} (ho : opener ≠ .block)
    (earlier params : List Name) :
    ((Γ.inFunction opener.body earlier).parameters params).Describes
      (occurrencesParams around opener earlier params) := by
  induction params generalizing earlier with
  | nil => exact .none
  | cons name rest ih =>
    have hnext : (Γ.inFunction opener.body earlier).define name.text =
        Γ.inFunction opener.body (earlier ++ [name]) := by
      simp only [inFunction, enter, define, onInnermost, List.foldl_append, List.foldl_cons,
        List.foldl_nil]
    refine ((h.params opener ho earlier).introduce name).append ?_
    rw [hnext]
    exact ih (earlier ++ [name])

/-- The kind of body makes no difference to parameters. -/
theorem parameters_body (Γ : Context) (b : Body) (params : List Name) :
    Context.parameters { Γ with body := b } params = Γ.parameters params := by
  induction params generalizing Γ with
  | nil => rfl
  | cons name rest ih =>
    obtain ⟨scopes, b, e⟩ := Γ
    cases scopes with
    | nil => exact congrArg _ (ih _)
    | cons scope outer => exact congrArg _ (ih ⟨scope.define name.text :: outer, b, e⟩)

end Context

mutual

/-- What is found in an expression is about its sites. -/
theorem Expr.describes {Γ : Context} {around : Surroundings} (h : Γ.Sees around) :
    ∀ e : Expr, (e.resolve Γ).Describes (e.occurrences around)
  | .literal _ => .none
  | .group inner => inner.describes h
  | .unary _ _ operand => operand.describes h
  | .binary _ _ left right => (left.describes h).append (right.describes h)
  | .logical _ _ left right => (left.describes h).append (right.describes h)
  | .var ref => h.read ref
  | .assign ref value => (value.describes h).append (h.mirrors.assign ref)
  | .call callee arguments _ => (callee.describes h).append (Expr.describesList h arguments)
  | .get object _ => object.describes h
  | .set object _ value => (value.describes h).append (object.describes h)
  | .this id line => h.mirrors.readThis id line
  | .super id line _ => h.mirrors.readSuper id line

/-- So is what is found in several expressions. -/
theorem Expr.describesList {Γ : Context} {around : Surroundings} (h : Γ.Sees around) :
    ∀ es : List Expr, (Expr.resolveList Γ es).Describes (Expr.occurrencesList around es)
  | [] => .none
  | e :: rest => (e.describes h).append (Expr.describesList h rest)

end

/-- So is what is found in an expression that may be missing. -/
theorem describesOption {Γ : Context} {around : Surroundings} (h : Γ.Sees around)
    (e : Option Expr) : (resolveOption Γ e).Describes (occurrencesOption around e) := by
  cases e with
  | none => exact .none
  | some e => exact e.describes h

mutual

/-- At a place that the context agrees with, the findings of a statement are what
the rules say of its sites. -/
theorem Stmt.describes {Γ : Context} {around : Surroundings} (h : Γ.Mirrors around)
    (hplace : around.HoldsStatements) (hsettled : Γ.Settled) :
    ∀ s : Stmt, (s.resolve Γ).Describes (s.occurrences around)
  | .expression e => e.describes (h.sees hplace hsettled (s := .expression e) nofun)
  | .print e => e.describes (h.sees hplace hsettled (s := .print e) nofun)
  | .varDecl name initializer =>
    (h.introduce name).append
      (describesOption (h.declare hplace hsettled name initializer) initializer)
  | .block body =>
    Stmt.describesList (h.after hplace (.block body)).block trivial (fun _ => rfl) body
  | .branch condition yes none => by
    have hsees := h.sees hplace hsettled (s := .branch condition yes none) nofun
    exact (condition.describes hsees).append
      (yes.describes hsees.mirrors (hplace.start _) hsettled)
  | .branch condition yes (some no) => by
    have hsees := h.sees hplace hsettled (s := .branch condition yes (some no)) nofun
    exact ((condition.describes hsees).append
      (yes.describes hsees.mirrors (hplace.start _) hsettled)).append
      (no.describes hsees.mirrors (hplace.start _) hsettled)
  | .loop condition body => by
    have hsees := h.sees hplace hsettled (s := .loop condition body) nofun
    exact (condition.describes hsees).append
      (body.describes hsees.mirrors (hplace.start _) hsettled)
  | .funDecl function =>
    (h.introduce function.name).append
      (FunDecl.describes (h.after hplace (.funDecl function)) .function nofun function)
  | .result line value => by
    have hsees := h.sees hplace hsettled (s := .result line value) nofun
    exact (hsees.mirrors.returned line value.isSome).append (describesOption hsees value)
  | .classDecl name superclass methods => by
    have hsees := h.sees hplace hsettled (s := .classDecl name superclass methods) nofun
    have hfindings := ((h.introduce name).append (hsees.superclass name superclass)).append
      (FunDecl.describesList (hsees.mirrors.inClass superclass.isSome) methods)
    exact hfindings

/-- So is what is found in statements that follow each other. -/
theorem Stmt.describesList {Γ : Context} {around : Surroundings} (h : Γ.Mirrors around)
    (hplace : around.HoldsStatements) (hsettled : Γ.Settled) :
    ∀ ss : List Stmt, (Stmt.resolveList Γ ss).Describes (Stmt.occurrencesList around ss)
  | [] => .none
  | s :: rest =>
    (s.describes h hplace hsettled).append
      (Stmt.describesList (h.after hplace s) (hplace.start s) (hsettled.after s) rest)

/-- So is what is found in a function. -/
theorem FunDecl.describes {Γ : Context} {around : Surroundings} (h : Γ.Mirrors around)
    (opener : Opener) (ho : opener ≠ .block) :
    ∀ f : FunDecl, (FunDecl.resolve Γ opener.body f).Describes (FunDecl.occurrences around opener f)
  | ⟨_, params, body⟩ => by
    have hsettled : (Γ.inFunction opener.body params).Settled :=
      Context.settled_parameterScope params [] fun _ => rfl
    have hparams := h.parameters ho [] params
    rw [Context.inFunction, List.foldl_nil, Context.parameters_body] at hparams
    exact hparams.append (Stmt.describesList (h.params opener ho params) trivial hsettled body)

/-- So is what is found in the methods of a class. -/
theorem FunDecl.describesList {Γ : Context} {around : Surroundings} (h : Γ.Mirrors around) :
    ∀ fs : List FunDecl, (FunDecl.resolveList Γ fs).Describes (FunDecl.occurrencesList around fs)
  | [] => .none
  | f :: rest =>
    (FunDecl.describes h (.method f.name.text) nofun f).append
      (FunDecl.describesList h rest)

end

/-- What is found about a program is what the rules say of its sites. -/
theorem describes_resolveProgram (program : List Stmt) :
    (resolveProgram program).Describes (Stmt.occurrencesList [] program) :=
  Stmt.describesList Context.mirrors_top trivial Context.settled_top program

/-- The diagnostics of resolving a program are the errors of its sites, each once
and in the order of the sites, and there are no others. -/
theorem Session.resolve_reports (session : Session) (program : List Stmt) :
    ∃ errors : List ScopeError,
      Reports (Stmt.occurrencesList [] program) errors ∧
      (session.resolve program).pending = session.pending ++ errors.map .scoping := by
  refine ⟨(resolveProgram program).errors, (describes_resolveProgram program).errors, ?_⟩
  rw [Session.resolve, Session.reportAll_eq]
  rfl

end Lox

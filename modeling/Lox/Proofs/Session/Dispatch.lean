import Lox.Proofs.Dispatch
import Lox.Proofs.Session.Chronicle
import Lox.Proofs.Tree.Equality

/-!
# Properties and methods in the course of a session

In every session that can come about, and at every point of its runs. Reading a property
of an object yields what the field was last set to, in whichever run that was, and else
the method that counts, bound to the object. In the body of a method `super` looks for
methods in the superclass that was looked up when the class with the method was declared,
whatever the class and the fields of the object are.
-/

namespace Lox

/-- Reading a property of an object at a point, after some moments and before others. -/
def Point.ReadsProperty (p : Point) (before later : List Moment) : Prop :=
  ∀ fuel e name m id cls m₁, p = ⟨fuel + 1, .evaluate (.get e name), m⟩ →
    Eval.evaluate fuel e m = .ok (.object id cls) m₁ →
      let earlier := before ++ .begins p :: Point.moments ⟨fuel, .evaluate e, m⟩
      match lastWritten id name.text (writesOf earlier) with
      | some v => Eval.evaluate (fuel + 1) (.get e name) m = .ok v m₁
      | none => Search cls name (.object id cls) earlier m₁ later
          (Eval.evaluate (fuel + 1) (.get e name) m)

/-- What the keywords stand for at a point in the body of a method of a class that has a
superclass or not, where the method is bound to an object. -/
structure Point.UsesKeywords (q : Point) (superclass : Option Class) (object : Value)
    (before later : List Moment) : Prop where
  /-- The keyword stands for the object that the method is bound to. -/
  this : ∀ fuel id line m, q = ⟨fuel + 1, .evaluate (.this id line), m⟩ →
    Eval.evaluate (fuel + 1) (.this id line) m = .ok object m
  /-- A method is searched for from the superclass on, and bound to the same object. -/
  super : ∀ cls fuel id line name m, superclass = some cls →
    q = ⟨fuel + 1, .evaluate (.super id line name), m⟩ →
      Search cls name object (before ++ [.begins q]) m later
        (Eval.evaluate (fuel + 1) (.super id line name) m)

section Courses

variable {begun : Point → Prop} {m₀ m m₁ : Machine} {before later : List Moment} {p : Point}

/-- A property of an object is its field, or else a method of its class that is bound to it. -/
theorem getProperty_object (id : Nat) (cls : Class) (name : Name) (m : Machine) :
    Eval.getProperty (.object id cls) name m =
      match m.store.field? id name.text with
      | some v => .ok v m
      | none => Eval.boundMethod cls (.object id cls) name m := by
  change (match m.store.field? id name.text with
    | some value => pure value
    | none => Eval.boundMethod cls (.object id cls) name : Eval Value) m = _
  cases m.store.field? id name.text <;> rfl

/-- The moments of a property are those of its object, between its own beginning and end. -/
theorem moments_get (fuel : Nat) (e : Expr) (name : Name) (m : Machine) :
    Point.moments ⟨fuel + 1, .evaluate (.get e name), m⟩ =
      Point.during ⟨fuel + 1, .evaluate (.get e name), m⟩
        (Point.moments ⟨fuel, .evaluate e, m⟩) := by
  simp only [Point.moments, momentsEvaluate]

/-- On a machine that had no fields at first, a field is what it was last set to. -/
theorem Course.reading {fuel id : Nat} {e : Expr} {name : Name} {cls : Class} {m' : Machine}
    (hfields : ∀ object text, m₀.store.field? object text = none)
    (h : Course begun m₀
      (before ++ Point.moments ⟨fuel + 1, .evaluate (.get e name), m⟩ ++ later) m₁)
    (he : Eval.evaluate fuel e m = .ok (.object id cls) m') :
    let earlier := before ++ .begins ⟨fuel + 1, .evaluate (.get e name), m⟩ ::
      Point.moments ⟨fuel, .evaluate e, m⟩
    Course begun m₀ earlier m' ∧ cls.Placed begun m' ∧
      Eval.evaluate (fuel + 1) (.get e name) m =
        match lastWritten id name.text (writesOf earlier) with
        | some v => .ok v m'
        | none => Eval.boundMethod cls (.object id cls) name m' := by
  have hinner : before ++ Point.moments ⟨fuel + 1, .evaluate (.get e name), m⟩ ++ later =
      (before ++ [.begins ⟨fuel + 1, .evaluate (.get e name), m⟩]) ++
        Point.moments ⟨fuel, .evaluate e, m⟩ ++
          .ends ⟨fuel + 1, .evaluate (.get e name), m⟩ :: later := by
    rw [moments_get]
    simp [Point.during]
  have hafter : Point.after ⟨fuel, .evaluate e, m⟩ = m' := by
    rw [Point.after, he]
    rfl
  rw [hinner] at h
  have hearlier := h.task.2.1
  rw [hafter, List.append_assoc, List.singleton_append] at hearlier
  have hobject : Value.Placed begun m' (.object id cls) := hearlier.present (.yielded
    (List.mem_append_right _ (.tail _ (Point.ends_mem_moments _))) (.value he))
  have hfield := hearlier.follows.written id name.text
  rw [hfields, Option.or_none] at hfield
  have hget : Eval.evaluate (fuel + 1) (.get e name) m =
      Eval.getProperty (.object id cls) name m' := bind_of_ok he
  rw [getProperty_object, hfield] at hget
  exact ⟨hearlier, hobject.2, hget⟩

/-- A property that is read in a course is found as the moments before it say. -/
theorem Course.readsProperty (hfields : ∀ object text, m₀.store.field? object text = none)
    (h : Course begun m₀ (before ++ p.moments ++ later) m₁)
    (hbegun : ∀ q, begun q → .begins q ∈ before ++ p.moments ++ later) :
    p.ReadsProperty before later := by
  rintro fuel e name m id cls m' rfl he
  obtain ⟨hearlier, hcls, hget⟩ := h.reading hfields he
  have hlater := h.task.2.2
  dsimp only at hget ⊢
  split at hget
  · exact hget
  · rw [Point.after, hget] at hlater
    rw [hget]
    refine search_boundMethod hearlier hcls hlater fun q hq => ?_
    have hq := hbegun q hq
    rw [moments_get] at hq
    simpa [Point.during] using hq

/-- The keyword of superclasses searches from the superclass, for the current object. -/
theorem Course.searching {cls : Class} {object : Value} {moments : List Moment}
    {fuel id line : Nat} {name : Name} (h : Course begun m₀ moments m₁)
    (hbody : InBody moments (some cls) object before
      ⟨fuel + 1, .evaluate (.super id line name), m⟩ later) :
    cls.Placed begun m ∧
      Eval.evaluate (fuel + 1) (.super id line name) m = Eval.boundMethod cls object name m := by
  obtain ⟨hbefore, -, outer, bound, hin, hthis, hsuper⟩ := h.inBody hbody
  obtain ⟨i, hi⟩ := Store.get?_of_getAt (hsuper cls rfl)
  exact ⟨hbefore.placed.frames i _ _ hi, hin.super hthis (hsuper cls rfl)⟩

/-- A keyword in a course stands for the object that the method around it was bound to. -/
theorem Course.usesKeywords {superclass : Option Class} {object : Value} {moments : List Moment}
    (h : Course begun m₀ moments m₁) (hbegun : ∀ q, begun q → .begins q ∈ moments)
    (hbody : InBody moments superclass object before p later) :
    p.UsesKeywords superclass object before later := by
  obtain ⟨hbefore, hlater, outer, bound, hin, hthis, -⟩ := h.inBody hbody
  constructor
  · rintro fuel id line m rfl
    exact hin.this hthis
  · rintro cls fuel id line name m rfl rfl
    obtain ⟨hcls, hsuper⟩ := h.searching hbody
    rw [Point.after, hsuper] at hlater
    rw [hsuper]
    refine search_boundMethod hbefore hcls hlater fun q hq => ?_
    have hq := hbegun q hq
    rw [hbody.moments_eq] at hq
    simpa [Point.moments, momentsEvaluate, Point.during] using hq

end Courses

/-! ### Dispatch -/

/-- In the chronicle of a session and of one more run, every task is done in one piece, and
what the run comes to is begun. Where a property of an object is read, it is what the field
was last set to, and else what the search for a method from the class of the object yields.
Where one of the keywords is evaluated, this is in the body of a method or in a function that
is nested in it. There `this` is the object that the method is bound to, and `super` searches
for a method of that object, from the superclass that was looked up when the class with the
method was declared. -/
theorem run_dispatches_methods (session : Session) (past : List Moment)
    (h : session.Chronicle past) (fuel : Nat) (source : String) :
    let chronicle := past ++ session.moments fuel source
    (Whole chronicle ∧ ∀ n q, session.Reaches fuel source n q → .begins q ∈ chronicle) ∧
    (∀ before p later, chronicle = before ++ Point.moments p ++ later →
      p.ReadsProperty before later ∧ ∀ asks, p.task.Keyword asks →
        ∃ superclass object, InBody chronicle superclass object before p later ∧
          (asks = true → superclass.isSome = true)) ∧
    ∀ superclass object before q later, InBody chronicle superclass object before q later →
      q.UsesKeywords superclass object before later := by
  intro chronicle
  obtain ⟨sink, clock, m', hcourse⟩ := h.course_run fuel source
  refine ⟨⟨h.whole.append (session.whole_moments fuel source), fun n q hq => ?_⟩,
    fun before p later hp => ⟨?_, fun asks hasks => h.inBody hp hasks⟩,
    fun superclass object before q later hq => hcourse.usesKeywords (fun _ hq => hq) hq⟩
  · exact List.mem_append_right _ hq.begins_mem
  · rw [show past ++ session.moments fuel source = _ from hp] at hcourse
    exact hcourse.readsProperty (fun _ _ => rfl) fun _ hq => hq

/-- The method of a class calls that of its superclass, for an object of the class. -/
theorem run_dispatches_methods_super :
    let session := Session.initial .unbounded fun _ => 0
    let source :=
      "class A \x7b m() \x7b\x7d \x7d class B < A \x7b m() \x7b super.m; \x7d \x7d B().m();"
    let method : FunDecl := ⟨⟨"m", 1⟩, [], [.expression (.super 1 1 ⟨"m", 1⟩)]⟩
    let a : Class := ⟨1, "A", none, [⟨⟨⟨"m", 1⟩, [], []⟩, [0], false⟩]⟩
    let b : Class := ⟨2, "B", some a, [⟨method, [1, 0], false⟩]⟩
    session.Chronicle [] ∧ ∃ before m later f m',
      InBody ([] ++ session.moments 6 source) (some a) (.object 0 b) before
        ⟨3, .evaluate (.super 1 1 ⟨"m", 1⟩), m⟩ later ∧
      Eval.evaluate 3 (.super 1 1 ⟨"m", 1⟩) m = .ok (.function 4 f) m' ∧
      Search a ⟨"m", 1⟩ (.object 0 b)
        (before ++ [.begins ⟨3, .evaluate (.super 1 1 ⟨"m", 1⟩), m⟩]) m later
        (.ok (.function 4 f) m') := by
  intro session source method a b
  have hs : session.Chronicle [] := .initial _ _
  let declA : Stmt := .classDecl ⟨"A", 1⟩ none [⟨⟨"m", 1⟩, [], []⟩]
  let declB : Stmt := .classDecl ⟨"B", 1⟩ (some ⟨0, ⟨"A", 1⟩⟩) [method]
  let call : Stmt := .expression (.call (.get (.call (.var ⟨2, ⟨"B", 1⟩⟩) [] 1) ⟨"m", 1⟩) [] 1)
  have hstatements : (Program.ofSource source 0).statements = [declA, declB, call] := by
    decide +kernel
  have hread : (Program.ofSource source 0).diagnostics = [] := by
    decide +kernel
  have hresolve : (resolveProgram (Program.ofSource source 0).statements).errors = [] := by
    rw [hstatements]
    rfl
  let m₀ : Machine := session.machine.recordDistances [(1, 2)]
  have hmachine : (session.resolved source).machine = m₀ := by
    rw [session.resolved_machine source hstatements]
    rfl
  let globals : Bindings := [("clock", .native 0 .clock), ("A", .cls a), ("B", .cls b)]
  let mA : Machine := { m₀ with store := ⟨#[[("clock", .native 0 .clock), ("A", .cls a)]], #[], 2⟩ }
  let mB : Machine := { m₀ with store := ⟨#[globals, [("super", .cls a)]], #[], 3⟩ }
  let m₁ : Machine :=
    { m₀ with
      store := ⟨#[globals, [("super", .cls a)], [("this", .object 0 b)]], #[[]], 4⟩
      calls := 1 }
  have hA : Eval.execute 6 declA m₀ = .ok .normal mA := by rfl
  have hB : Eval.execute 6 declB mA = .ok .normal mB := by rfl
  have hmoments : session.moments 6 source = Point.moments ⟨6, .execute declA, m₀⟩ ++
      (Point.moments ⟨6, .execute declB, mA⟩ ++ momentsProgram 6 [call] mB) := by
    rw [session.moments_of_clean 6 rfl hread hresolve, hmachine, ← momentsProgram_cons hB,
      ← momentsProgram_cons hA, ← hstatements]
    rfl
  let c : Closure := ⟨method, [2, 1, 0], false⟩
  let body : Point := ⟨4, .execute (.expression (.super 1 1 ⟨"m", 1⟩)), c.inside [] m₁⟩
  let q : Point := ⟨3, .evaluate (.super 1 1 ⟨"m", 1⟩), c.inside [] m₁⟩
  have hget : Eval.evaluate 4 (.get (.call (.var ⟨2, ⟨"B", 1⟩⟩) [] 1) ⟨"m", 1⟩) mB =
      .ok (.function 3 c) { m₁ with calls := 0 } := by rfl
  have hcalls : Machine.calls { m₁ with calls := 0 } < Machine.maxCalls := by decide
  have hinside : Inside 1 ⟨6, .execute call, mB⟩ body :=
    .deeper (.deeper .here .expression)
      (.body hget rfl rfl rfl hcalls rfl (List.nil_append _).symm rfl)
  have hserves : Serves c q := .part (.body (List.nil_append _).symm rfl) .expression
  have hframe : ((Moment.begins body).machine.store.frame 2).get? "this" =
      some (.object 0 b) := by rfl
  have hstatement : body.moments = .begins body :: q.moments ++ [.ends body] := by rfl
  obtain ⟨between, rest, hcall⟩ := hinside.moments
  obtain ⟨tail, htail⟩ : ∃ tail, momentsProgram 6 [call] mB =
      Point.moments ⟨6, .execute call, mB⟩ ++ tail := ⟨_, rfl⟩
  have hdeclares : Point.DeclaresClass ⟨6, .execute declB, mA⟩ (some a) [1, 0] [method] :=
    .intro rfl rfl
  have hbefore : (Point.moments ⟨6, .execute declA, m₀⟩ ++
      (Point.moments ⟨6, .execute declB, mA⟩ ++ (between ++ [.begins body]))) ++ [.begins q] =
      Point.moments ⟨6, .execute declA, m₀⟩ ++ Point.moments ⟨6, .execute declB, mA⟩ ++
        (between ++ .begins body :: [.begins q]) := by
    simp
  have hbody : InBody ([] ++ session.moments 6 source) (some a) (.object 0 b)
      (Point.moments ⟨6, .execute declA, m₀⟩ ++ (Point.moments ⟨6, .execute declB, mA⟩ ++
        (between ++ [.begins body]))) q (.ends body :: rest ++ tail) := by
    refine .intro hdeclares (.head _) hframe hserves hbefore ?_
    rw [hmoments, htail, hcall, hstatement]
    simp
  obtain ⟨f, m', heval⟩ : ∃ f m', Eval.evaluate 3 (.super 1 1 ⟨"m", 1⟩) (c.inside [] m₁) =
      .ok (.function 4 f) m' := ⟨_, _, rfl⟩
  obtain ⟨-, -, hkeywords⟩ := run_dispatches_methods session [] hs 6 source
  have hsearch := (hkeywords _ _ _ _ _ hbody).super a 2 1 1 ⟨"m", 1⟩ _ rfl rfl
  rw [heval] at hsearch
  exact ⟨hs, _, _, _, f, m', hbody, heval, hsearch⟩

end Lox

import Lox.Proofs.Session.Reachable
import Lox.Proofs.Tree.Equality

/-!
# What holds at every point of a run

Two results about the points that a run of a source comes to, in any session that
can come about. What is done for the time of a block or of a call is undone
however the block or the call ends. And frames, functions, classes and objects
are such that names, methods and the current object can be looked up: the
machine is well formed at the point, and so are the values in hand.
-/

namespace Lox

/-! ### One map of links -/

/-- A machine and the values in hand are well formed, by some map of links. -/
def Machine.Sound (m : Machine) (values : List Value) : Prop :=
  ∃ links, m.At ⟨links, m.store⟩ ∧ ∀ v ∈ values, v.Sound ⟨links, m.store⟩

section Links

variable {m m' : Machine} {w w' : World}

/-- A machine in a world is well formed together with values that are well formed there. -/
theorem Machine.At.sound (h : m.At w) {values : List Value} (hv : ∀ v ∈ values, v.Sound w) :
    m.Sound values := by
  obtain ⟨links, store⟩ := w
  cases h.store
  exact ⟨links, h, hv⟩

/-- The links of a later world account for an earlier machine as well. -/
theorem Machine.At.relink (h : m.At w) (hw : w.Before w') : m.At ⟨w'.links, m.store⟩ := by
  obtain ⟨links, store⟩ := w
  cases h.store
  have hsame : World.Before ⟨links, m.store⟩ ⟨w'.links, m.store⟩ :=
    ⟨hw.links, Nat.le_refl _, Nat.le_refl _, Nat.le_refl _, fun _ _ _ _ => rfl⟩
  refine ⟨rfl, ⟨h.wellFormed.globals, fun i hpos hi => ?_, fun i => ?_, fun object x v hv => ?_⟩,
    h.env.later hsame⟩
  · change w'.links i < i
    rw [hw.links i hi]
    exact h.wellFormed.older i hpos hi
  · exact (h.wellFormed.frames i).later hsame
  · exact (h.wellFormed.fields object x v hv).later hsame

end Links

/-! ### What is restored -/

/-- What is as it was on another machine: the environment in effect, the number
of calls in progress and the distances. Every name that was bound in a frame is
bound there, and one map of links accounts for the environments of both. -/
structure Machine.Restored (m m' : Machine) : Prop where
  /-- The environment in effect is the same. -/
  env : m'.env = m.env
  /-- As many calls are in progress. -/
  calls : m'.calls = m.calls
  /-- The distances are the same. -/
  distances : m'.distances = m.distances
  /-- No name is lost. -/
  bindings : ∀ i x, m.store.Binds i x → m'.store.Binds i x
  /-- One map of links is right for both. -/
  links : ∃ links, m.At ⟨links, m.store⟩ ∧ m'.At ⟨links, m'.store⟩

/-- A task that was started in a world restores what it changed for a time. -/
theorem Point.restored {p : Point} {w : World} (hp : p.task.Plain) (hm : p.machine.At w) :
    p.machine.Restored p.after := by
  have hchanges := p.changes
  obtain ⟨w', hw, hend⟩ := Point.endsAt hp hm
  have hafter := hend.after
  refine ⟨hchanges.env, hchanges.calls, hchanges.distances, hchanges.kept, w'.links,
    hm.relink hw, ?_⟩
  exact hafter.relink (.refl w')

/-- Whatever is evaluated or executed at a point that a run comes to, and however
it is finished, what it did for the time of blocks and calls is undone. The
number of calls in progress is what the machine counts, and it never exceeds its
limit. After a run the environment in effect is the global one and no call is in
progress, also if the run ended with an error. -/
theorem run_restores_scoped_state (session : Session) (hs : session.Reachable) (fuel : Nat)
    (source : String) :
    (∀ n q, session.Reaches fuel source n q →
      q.machine.calls = n ∧ n ≤ Machine.maxCalls ∧ q.task.Plain ∧
      ∀ bound task m', task.Plain → Point.Ends ⟨bound, task, q.machine⟩ m' →
        q.machine.Restored m') ∧
    ∀ after, Session.run fuel source session = .ok () after →
      after.machine.env = globalEnv ∧ after.machine.calls = 0 := by
  refine ⟨fun n q hq => ?_, fun after hrun => (hs.run hrun).idle⟩
  obtain ⟨w, hm⟩ := hs.at
  obtain ⟨hplain, w₁, -, hm₁, -⟩ := hq.passes hm
  have hcalls := hq.calls_eq hs
  refine ⟨hcalls.1, hcalls.2, hplain, fun bound task m' htask hend => ?_⟩
  rw [hend.eq_after]
  exact Point.restored (p := ⟨bound, task, q.machine⟩) htask hm₁

/-- An error is raised in the body of a call: one call is in progress there, and
none after the run. -/
theorem run_restores_scoped_state_error :
    let session := Session.initial .unbounded fun _ => 0
    let source := "fun f() \x7b nil(); \x7d f();"
    session.Reachable ∧
    (∃ q m', session.Reaches 6 source 1 q ∧ q.Ends m' ∧ q.machine.calls = 1 ∧
      q.machine.Restored m') ∧
    ∃ after, Session.run 6 source session = .ok () after ∧ after.hadRuntimeError = true ∧
      after.machine.env = globalEnv ∧ after.machine.calls = 0 := by
  intro session source
  have hs : session.Reachable := .initial _ _
  have hstatements : (Program.ofSource source 0).statements =
      [.funDecl ⟨⟨"f", 1⟩, [], [.expression (.call (.literal .nil) [] 1)]⟩] ++
        [.expression (.call (.var ⟨0, ⟨"f", 1⟩⟩) [] 1)] := by
    decide +kernel
  have hread : (Program.ofSource source 0).diagnostics = [] := by
    decide +kernel
  have hresolve : (resolveProgram (Program.ofSource source 0).statements).errors = [] := by
    rw [hstatements]
    rfl
  have hmachine : (session.resolved source).machine = session.machine := by
    rw [session.resolved_machine source hstatements]
    rfl
  have hreaches : ∃ q m', session.Reaches 6 source 1 q ∧ q.Ends m' := by
    exact ⟨_, _, .intro rfl hread hresolve hstatements (by rw [hmachine]; rfl)
      (.deeper (.deeper .here .expression)
        (.body rfl rfl rfl rfl (by decide) rfl (List.nil_append _).symm rfl)), .stopped rfl⟩
  have hmain := run_restores_scoped_state session hs 6 source
  obtain ⟨q, m', hq, hend⟩ := hreaches
  obtain ⟨hcalls, -, hplain, hrestored⟩ := hmain.1 1 q hq
  have hfinished : (Session.finished? (Session.run 6 source session)).any
      (·.hadRuntimeError) = true := by
    decide +kernel
  obtain ⟨after, hafter, herror⟩ := (Option.any_eq_true _ _).1 hfinished
  have hrun := Session.eq_ok_of_finished? hafter
  exact ⟨hs, ⟨q, m', hq, hend, hcalls, hrestored q.fuel q.task m' hplain hend⟩,
    after, hrun, herror, hmain.2 after hrun⟩

/-! ### What is in hand -/

/-- The values that a task has in hand and the machine at that time: the value of
an expression, the value that a statement ends the call in progress with, and
the values that a call is made with. -/
inductive Point.Holds : Point → List Value → Machine → Prop where
  /-- An expression holds its value at its end. -/
  | value {fuel : Nat} {e : Expr} {m m' : Machine} {v : Value}
      (h : Eval.evaluate fuel e m = .ok v m') : Holds ⟨fuel, .evaluate e, m⟩ [v] m'
  /-- A statement that returns holds the value at its end. -/
  | returned {fuel : Nat} {s : Stmt} {m m' : Machine} {v : Value}
      (h : Eval.execute fuel s m = .ok (.returned v) m') : Holds ⟨fuel, .execute s, m⟩ [v] m'
  /-- A call holds what is called and its arguments before it is made. -/
  | call {fuel : Nat} {callee : Expr} {es : List Expr} {line : Nat} {m m₁ m₂ : Machine}
      {f : Value} {vs : List Value} (hf : Eval.evaluate fuel callee m = .ok f m₁)
      (hvs : Eval.evaluateAll (Eval.evaluate fuel) es m₁ = .ok vs m₂) :
      Holds ⟨fuel + 1, .evaluate (.call callee es line), m⟩ (f :: vs) m₂

/-- The values that a task holds in its middle are well formed, and so is the machine there. -/
theorem Point.Holds.sound {p : Point} {values : List Value} {m' : Machine} {w : World}
    (h : p.Holds values m') (hp : p.task.Plain) (hm : p.machine.At w) : m'.Sound values := by
  cases h with
  | @value fuel e _ _ v h =>
    obtain ⟨w', -, hend⟩ := (safeEvaluation fuel).expression e w hp _ w (.refl w) hm
    have hthere := hend.1
    rw [h] at hthere
    refine hthere.sound fun u hu => ?_
    rw [List.mem_singleton.1 hu]
    exact hend.2 v m' h
  | @returned fuel s _ _ v h =>
    obtain ⟨w', -, hend⟩ := (safeEvaluation fuel).statement s w hp _ w (.refl w) hm
    have hthere := hend.1
    rw [h] at hthere
    refine hthere.sound fun u hu => ?_
    rw [List.mem_singleton.1 hu]
    exact hend.2 _ m' h
  | @call fuel callee es line _ m₁ m₂ f vs hf hvs =>
    have hsafe := (safeEvaluation fuel).expression
    obtain ⟨w₁, -, hend⟩ := hsafe callee w hp.1 _ w (.refl w) hm
    have hthere := hend.1
    rw [hf] at hthere
    obtain ⟨w₂, hw₂, hend₂⟩ := safe_evaluateAll hsafe hp.2.mem m₁ w₁ (.refl w₁) hthere
    have hthere₂ := hend₂.1
    rw [hvs] at hthere₂
    refine hthere₂.sound (List.forall_mem_cons.2 ⟨?_, hend₂.2 vs m' hvs⟩)
    exact Value.Sound.later (hend.2 f m₁ hf) hw₂

/-- A function that a statement declares is no initializer. -/
theorem execute_funDecl {fuel : Nat} {f : FunDecl} {m m' : Machine} {flow : Flow} {w : World}
    (hm : m.At w) (h : Eval.execute fuel (.funDecl f) m = .ok flow m') :
    ∃ i rest id, m.env = i :: rest ∧
      (m'.store.frame i).get? f.name.text = some (.function id ⟨f, m.env, false⟩) := by
  cases fuel with
  | zero => cases h
  | succ fuel =>
    cases henv : m.env with
    | nil =>
      have hend := hm.env.globals
      rw [henv] at hend
      cases hend
    | cons i rest =>
      have hi : i < m.store.freshId.2.frames.size := by
        have hlt := hm.env.frames i (by rw [henv]; exact .head _)
        rw [hm.store] at hlt
        exact hlt
      refine ⟨i, rest, m.store.nextId, rfl, ?_⟩
      cases h
      change (Store.frame (Store.define _ m.env _ _) i).get? _ = _
      rw [henv]
      exact (Store.get?_bindIn hi).trans (if_pos ⟨rfl, rfl⟩)

/-! ### The keywords -/

/-- The keywords of the frames of a store are the same in another one. -/
def Store.SameKeywords (store later : Store) : Prop :=
  ∀ i < store.frames.size, (later.frame i).get? "this" = (store.frame i).get? "this" ∧
    (later.frame i).get? "super" = (store.frame i).get? "super"

/-- A later world has the same keywords in the frames that were there. -/
theorem World.Before.sameKeywords {w w' : World} (h : w.Before w') {m m' : Machine}
    (hm : m.At w) (hm' : m'.At w') : m.store.SameKeywords m'.store := by
  rw [← hm.store, ← hm'.store]
  intro i hi
  exact ⟨h.keywords i hi _ not_isPlain_this, h.keywords i hi _ not_isPlain_super⟩

/-! ### The object model -/

/-- In every session that can come about, and at every point that a run comes to
in it, the machine is well formed, when the task of the point begins and when it
is finished, and so are the values in hand. A function that a statement declares
is no initializer. The keywords of a frame stay as they are from the start of
the run to the point, from there until its task is finished, and from then on
until the end of the run. -/
theorem run_keeps_object_model (session : Session) (hs : session.Reachable) (fuel : Nat)
    (source : String) :
    session.machine.Sound [] ∧
    ∀ n q, session.Reaches fuel source n q →
      q.machine.Sound [] ∧
      (∀ values m, q.Holds values m → m.Sound values) ∧
      (∀ f flow m', q.task = .execute (.funDecl f) →
        Eval.execute q.fuel (.funDecl f) q.machine = .ok flow m' →
        ∃ i rest id, q.machine.env = i :: rest ∧
          (m'.store.frame i).get? f.name.text = some (.function id ⟨f, q.machine.env, false⟩)) ∧
      session.machine.store.SameKeywords q.machine.store ∧
      ∀ m', q.Ends m' → m'.Sound [] ∧ q.machine.store.SameKeywords m'.store ∧
        ∀ after, Session.run fuel source session = .ok () after →
          m'.store.SameKeywords after.machine.store := by
  obtain ⟨w, hm⟩ := hs.at
  refine ⟨hm.sound nofun, fun n q hq => ?_⟩
  obtain ⟨hplain, w₁, hw₁, hm₁, hrest⟩ := hq.passes hm
  refine ⟨hm₁.sound nofun, fun values m hvalues => hvalues.sound hplain hm₁, ?_, ?_, ?_⟩
  · intro f flow m' _ hexecute
    exact execute_funDecl hm₁ hexecute
  · exact hw₁.sameKeywords hm hm₁
  · intro m' hend
    obtain ⟨w₂, hw₂, hended⟩ := Point.endsAt hplain hm₁
    obtain ⟨w₃, hw₃, hlast, -⟩ := hrest w₂ hw₂ hended
    rw [hend.eq_after]
    refine ⟨hended.after.sound nofun, hw₂.sameKeywords hm₁ hended.after, fun after hrun => ?_⟩
    rw [hq.machine_eq hrun]
    exact hw₃.sameKeywords hended.after hlast

/-- The initializer of a class is run for a new object, which its frame binds. -/
theorem run_keeps_object_model_initializer :
    let session := Session.initial .unbounded fun _ => 0
    let source := "class A \x7b init() \x7b return; \x7d \x7d A();"
    session.Reachable ∧ ∃ q m', session.Reaches 6 source 1 q ∧ q.Ends m' ∧
      q.machine.store.Binds 1 "this" ∧ q.machine.Sound [] ∧ m'.Sound [] ∧
      q.machine.store.SameKeywords m'.store := by
  intro session source
  have hs : session.Reachable := .initial _ _
  have hstatements : (Program.ofSource source 0).statements =
      [.classDecl ⟨"A", 1⟩ none [⟨⟨"init", 1⟩, [], [.result 1 none]⟩]] ++
        [.expression (.call (.var ⟨0, ⟨"A", 1⟩⟩) [] 1)] := by
    decide +kernel
  have hread : (Program.ofSource source 0).diagnostics = [] := by
    decide +kernel
  have hresolve : (resolveProgram (Program.ofSource source 0).statements).errors = [] := by
    rw [hstatements]
    rfl
  have hmachine : (session.resolved source).machine = session.machine := by
    rw [session.resolved_machine source hstatements]
    rfl
  have hreaches : ∃ q m', session.Reaches 6 source 1 q ∧ q.Ends m' ∧
      q.machine.store.Binds 1 "this" := by
    exact ⟨_, _, .intro rfl hread hresolve hstatements (by rw [hmachine]; rfl)
      (.deeper (.deeper .here .expression)
        (.body rfl rfl rfl rfl (by decide) rfl (List.nil_append _).symm rfl)),
      .executed rfl, by rfl⟩
  obtain ⟨q, m', hq, hend, hthis⟩ := hreaches
  obtain ⟨-, hpoint⟩ := run_keeps_object_model session hs 6 source
  obtain ⟨hsound, -, -, -, hended⟩ := hpoint 1 q hq
  exact ⟨hs, q, m', hq, hend, hthis, hsound, (hended m' hend).1, (hended m' hend).2.1⟩

end Lox

import Lox.Proofs.Search.Agreement
import Lox.Proofs.Session.Consistency

/-!
# Distances and search

A source without static errors runs in the same way with distances and by
search, if it declares no name late and no initializer of a local variable
assigns to its variable.
-/

namespace Lox

/-- Whether a scope of a source declares a name late. -/
def Program.declaresLate (source : String) : Bool :=
  Stmt.declaresLateList (ofSource source 0).statements

/-- A fresh machine is under the forecast that every frame may have any name. -/
theorem under_initial (sink : Sink) (clock : Nat → Float) (source : String) :
    Machine.Under ((Session.initial sink clock).resolved source).known
      ⟨fun _ _ => True, (Machine.initial sink clock).store⟩
      ((Session.initial sink clock).resolved source).machine := by
  refine ⟨rfl, fun _ _ hd => hd.2, fun _ => trivial, Nat.one_pos, fun _ _ _ => trivial, ?_,
    nofun⟩
  intro i x v hv
  cases i with
  | zero =>
    change Bindings.get? [(Native.clock.name, .native 0 .clock)] x = some v at hv
    rw [Bindings.get?_single] at hv
    split at hv
    · cases hv
      trivial
    · cases hv
  | succ i => cases hv

/-- A source without static errors is executed by search, if no error is
remembered. -/
theorem Session.runBySearch_of_clean (fuel : Nat) (source : String) (session : Session)
    (herror : session.hadError = false)
    (hread : (Program.ofSource source session.nextId).diagnostics = [])
    (hresolve :
      (resolveProgram (Program.ofSource source session.nextId).statements).errors = []) :
    runBySearch fuel source session =
      executeBySearch fuel (Program.ofSource source session.nextId).statements
        (session.resolved source) := by
  unfold runBySearch read resolve
  simp only [reportAll_eq, Findings.diagnostics, hread, hresolve, herror]
  simp [resolved, herror]

/-- A session runs statements by search as it runs them by distance, when the machines do. -/
theorem Session.execute_eq_executeBySearch {fuel : Nat} {ss : List Stmt} {session : Session}
    (h : Search.executeProgram fuel ss session.machine =
      Eval.executeProgram fuel ss session.machine) :
    execute fuel ss session = executeBySearch fuel ss session := by
  unfold execute executeBySearch
  exact h ▸ rfl

/-- A run of a source on a fresh session is the same with distances and by
search, with any bound: it prints the same, reports the same and leaves the same
session behind. The source has no static errors, no scope declares a name after
a function in the scope that mentions the name, and no initializer of a local
variable assigns to the variable. -/
theorem run_eq_runBySearch (sink : Sink) (clock : Nat → Float) (source : String) (fuel : Nat)
    (hread : (Program.ofSource source 0).diagnostics = [])
    (hresolve : (resolveProgram (Program.ofSource source 0).statements).errors = [])
    (hlate : Program.declaresLate source = false)
    (hinit : Program.assignsOwnInitializer source = false) :
    Session.run fuel source (.initial sink clock) =
      Session.runBySearch fuel source (.initial sink clock) := by
  have hresolved := Session.resolvedList_resolved (Session.consistent_initial sink clock) hread
    hresolve hinit
  have hagree := (agree_executeProgram fuel hlate hresolved _
    (under_initial sink clock source) rfl).1
  have hrun := Session.run_of_clean fuel source (.initial sink clock) rfl hread hresolve
  have hsearch := Session.runBySearch_of_clean fuel source (.initial sink clock) rfl hread hresolve
  exact hrun.trans ((Session.execute_eq_executeBySearch hagree).trans hsearch.symm)

/-- Closures, a superclass and a loop. -/
theorem run_eq_runBySearch_closure :
    let source := "class A \x7b m() \x7b return a; \x7d \x7d
      class B < A \x7b m() \x7b return super.m(); \x7d \x7d
      var a = 1; \x7b var a = 5; fun f() \x7b var c = a; a = c + B().m(); return c; \x7d
        while (a < 7) print f(); \x7d print a - nil;"
    (Program.declaresLate source = false ∧ Program.assignsOwnInitializer source = false) ∧
    Session.run 30 source (.initial .unbounded fun _ => 0) =
      Session.runBySearch 30 source (.initial .unbounded fun _ => 0) := by
  intro source
  obtain ⟨hread, hresolve, hlate, hinit⟩ : (Program.ofSource source 0).diagnostics = [] ∧
      (resolveProgram (Program.ofSource source 0).statements).errors = [] ∧
      Program.declaresLate source = false ∧ Program.assignsOwnInitializer source = false := by
    decide +kernel
  exact ⟨⟨hlate, hinit⟩, run_eq_runBySearch .unbounded (fun _ => 0) source 30 hread hresolve hlate
    hinit⟩

-- A name that is declared late is found by a search and not by its distance.
example :
    let source := "var a = 1; \x7b fun f() \x7b print a; \x7d var a = 2; f(); \x7d"
    let printed := fun result => (Session.finished? result).map (·.machine.sink.accepted)
    Program.declaresLate source = true ∧
      printed (Session.run 9 source (.initial .unbounded fun _ => 0)) = some "1\n" ∧
      printed (Session.runBySearch 9 source (.initial .unbounded fun _ => 0)) = some "2\n" := by
  decide +kernel

end Lox

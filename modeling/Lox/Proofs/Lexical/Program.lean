import Lox.Proofs.Session.Consistency

/-!
# Sources run by lexical scope

A source without static errors prints the same and ends the same way whether it
is run with frames and distances or by lexical scope.
-/

namespace Lox

/-- A run of a source on a fresh session agrees with the run of its program by
lexical scope: if the first ends, both print the same, and both end normally or
with one and the same error. Local variables must not be assigned to by their
own initializers. -/
theorem run_implements_lexical_scope (sink : Sink) (clock : Nat → Float) (source : String)
    {fuel fuel' : Nat} (hle : fuel ≤ fuel')
    (hread : (Program.ofSource source 0).diagnostics = [])
    (hresolve : (resolveProgram (Program.ofSource source 0).statements).errors = [])
    (hinit : Program.assignsOwnInitializer source = false)
    (hends : ∀ after, Session.run fuel source (.initial sink clock) ≠ .error .exhausted after) :
    ∃ after l, Session.run fuel source (.initial sink clock) = .ok () after ∧
      after.machine.sink = l.sink ∧
      (after.pending = [] ∧
          Lexical.executeProgram fuel' (Program.ofSource source 0).statements
            (.initial sink clock) = .ok () l ∨
        ∃ e, after.pending = [.runtime e] ∧
          Lexical.executeProgram fuel' (Program.ofSource source 0).statements
            (.initial sink clock) = .error (.error e) l) := by
  have hinitial := Session.consistent_initial sink clock
  have hresolved := Session.resolvedList_resolved hinitial hread hresolve hinit
  have hrun := Session.run_of_clean fuel source (.initial sink clock) rfl hread hresolve
  have hrel : Related ((Session.initial sink clock).resolved source).table Layout.initial
      ((Session.initial sink clock).resolved source).machine (.initial sink clock) :=
    (related_initial sink clock).within ⟨Nat.zero_le _, fun _ h => absurd h (Nat.not_lt_zero _)⟩
  have hknown : ((Session.initial sink clock).resolved source).known.Within
      ((Session.initial sink clock).resolved source).table := fun _ _ hd => hd
  rw [hrun] at hends ⊢
  unfold Session.execute at hends ⊢
  rcases executeProgram_agrees hrel rfl hknown hle hresolved with
    ⟨m', hm⟩ | ⟨m', l', ⟨w', hrel'⟩, -, ⟨hm, hl⟩ | ⟨e, hm, hl⟩⟩
  · rw [hm] at hends
    exact absurd rfl (hends _)
  · rw [hm]
    exact ⟨_, l', rfl, hrel'.sink, .inl ⟨rfl, hl⟩⟩
  · rw [hm]
    exact ⟨_, l', rfl, hrel'.sink, .inr ⟨e, rfl, hl⟩⟩

/-- A closure does not see a variable that is declared after it, and the run ends
with an error. -/
theorem run_implements_lexical_scope_closure :
    let source := "var a = \"global\"; \x7b fun f() \x7b print a; \x7d f();
      var a = \"block\"; f(); print a; \x7d print a - a;"
    (∀ after, Session.run 20 source (.initial .unbounded fun _ => 0) ≠
      .error .exhausted after) ∧
    ∃ after l, Session.run 20 source (.initial .unbounded fun _ => 0) = .ok () after ∧
      after.machine.sink = l.sink ∧
      (after.pending = [] ∧
          Lexical.executeProgram 20 (Program.ofSource source 0).statements
            (.initial .unbounded fun _ => 0) = .ok () l ∨
        ∃ e, after.pending = [.runtime e] ∧
          Lexical.executeProgram 20 (Program.ofSource source 0).statements
            (.initial .unbounded fun _ => 0) = .error (.error e) l) := by
  intro source
  obtain ⟨hread, hresolve, hinit, hfinished⟩ : (Program.ofSource source 0).diagnostics = [] ∧
      (resolveProgram (Program.ofSource source 0).statements).errors = [] ∧
      Program.assignsOwnInitializer source = false ∧
      (Session.finished? (Session.run 20 source (.initial .unbounded fun _ => 0))).isSome := by
    decide +kernel
  have hends := Session.ne_exhausted_of_finished? hfinished
  exact ⟨hends, run_implements_lexical_scope .unbounded (fun _ => 0) source (Nat.le_refl 20) hread
    hresolve hinit hends⟩

end Lox

import Lox.Proofs.Source
import Lox.Session

/-!
# What a run of a source does

A run reads its source, and it stops there if an error is remembered; it looks
for distances, and it stops there if it finds an error; only then does it
execute. The distances that are found belong to identities that were handed out
for this source, so what was recorded before stays.
-/

namespace Lox

open Grammar

namespace Machine

variable {machine : Machine} {found : List (Nat × Nat)} {id : Nat}

/-- Distances of other identities stay. -/
theorem recordDistances_of_notMem (h : id ∉ found.map (·.1)) :
    (machine.recordDistances found).distances[id]? = machine.distances[id]? := by
  unfold recordDistances
  dsimp only
  generalize machine.distances = all
  induction found generalizing all with
  | nil => rfl
  | cons p rest ih =>
    rw [List.map_cons, List.mem_cons, not_or] at h
    rw [List.foldl_cons, ih h.2, Std.TreeMap.getElem?_insert, if_neg]
    rw [Nat.compare_eq_eq]
    exact Ne.symm h.1

/-- A distance that was found is recorded, if its identity occurs once. -/
theorem recordDistances_of_mem (hfound : (found.map (·.1)).Nodup) {d : Nat}
    (h : (id, d) ∈ found) : (machine.recordDistances found).distances[id]? = some d := by
  have hlast : ∀ all : Distances,
      (found.foldl (fun all (p : Nat × Nat) => all.insert p.1 p.2) all)[id]? = some d := by
    induction found with
    | nil => cases h
    | cons p rest ih =>
      intro all
      rw [List.map_cons, List.nodup_cons] at hfound
      rw [List.foldl_cons]
      cases h with
      | head =>
        have hrest :
            (recordDistances { machine with distances := all.insert id d } rest).distances[id]? =
              (all.insert id d)[id]? := recordDistances_of_notMem hfound.1
        refine hrest.trans ?_
        rw [Std.TreeMap.getElem?_insert, if_pos (Nat.compare_eq_eq.2 rfl)]
      | tail _ h => exact ih hfound.2 h _
  exact hlast machine.distances

/-- Only identities that were handed out for a source get distances from it. -/
theorem recordDistances_of_outside {n m : Nat} (hfound : Within n m found)
    (hid : id < n ∨ m ≤ id) :
    (machine.recordDistances found).distances[id]? = machine.distances[id]? := by
  refine recordDistances_of_notMem fun hmem => ?_
  obtain ⟨p, hp, rfl⟩ := List.mem_map.1 hmem
  have hrange := hfound.range p hp
  omega

end Machine

namespace Session

variable (session : Session)

/-- Reporting diagnostics appends them to those that wait, and sets the flags for the
kinds that occur. -/
theorem reportAll_eq (ds : List Diagnostic) :
    session.reportAll ds =
      { session with
        pending := session.pending ++ ds
        hadError := session.hadError || ds.any (·.isStatic)
        hadRuntimeError := session.hadRuntimeError || ds.any (!·.isStatic) } := by
  induction ds generalizing session with
  | nil => simp [reportAll]
  | cons d rest ih =>
    change (session.report d).reportAll rest = _
    rw [ih]
    simp [report, Bool.or_assoc]

/-- The exit code follows from the flags. -/
theorem exitCode_congr {s s' : Session} (herror : s'.hadError = s.hadError)
    (hruntime : s'.hadRuntimeError = s.hadRuntimeError) : s'.exitCode = s.exitCode := by
  unfold exitCode
  rw [herror, hruntime]

end Session

/-- What reading a source reports is static. -/
theorem Program.isStatic_of_mem {source : String} {n : Nat} {d : Diagnostic}
    (hd : d ∈ (Program.ofSource source n).diagnostics) : d.isStatic = true := by
  rcases List.mem_append.1 hd with hd | hd
  · obtain ⟨item, -, hitem⟩ := List.mem_filterMap.1 hd
    cases item with
    | token t => cases hitem
    | bad line cause =>
      cases hitem
      rfl
  · obtain ⟨e, -, rfl⟩ := List.mem_map.1 hd
    rfl

/-- Reading a source reports a static diagnostic if it reports any. -/
theorem Program.any_isStatic (source : String) (n : Nat) :
    (Program.ofSource source n).diagnostics.any (·.isStatic) =
      !(Program.ofSource source n).diagnostics.isEmpty := by
  have hstatic : ∀ d ∈ (Program.ofSource source n).diagnostics, d.isStatic = true :=
    fun d hd => isStatic_of_mem hd
  cases hds : (Program.ofSource source n).diagnostics with
  | nil => rfl
  | cons d rest =>
    rw [hds] at hstatic
    rw [List.any_cons, hstatic d (.head _)]
    rfl

/-- Resolving reports a static diagnostic if it finds any error. -/
theorem Findings.any_isStatic (findings : Findings) :
    findings.diagnostics.any (·.isStatic) = !findings.errors.isEmpty := by
  unfold Findings.diagnostics
  cases findings.errors <;> rfl

namespace Session

variable (fuel : Nat) (source : String) (session : Session)

/-- A session that has read a source and recorded its distances. -/
def resolved : Session :=
  { session with
    nextId := (Program.ofSource source session.nextId).nextId
    machine := session.machine.recordDistances
      (resolveProgram (Program.ofSource source session.nextId).statements).distances }

/-- The machine keeps the distances of the statements that the source consists of. -/
theorem resolved_machine {statements : List Stmt}
    (h : (Program.ofSource source session.nextId).statements = statements) :
    (session.resolved source).machine =
      session.machine.recordDistances (resolveProgram statements).distances := by
  rw [resolved, h]

/-- A source without static errors is executed, if no error is remembered. -/
theorem run_of_clean (herror : session.hadError = false)
    (hread : (Program.ofSource source session.nextId).diagnostics = [])
    (hresolve :
      (resolveProgram (Program.ofSource source session.nextId).statements).errors = []) :
    run fuel source session =
      execute fuel (Program.ofSource source session.nextId).statements
        (session.resolved source) := by
  unfold run read resolve
  simp only [reportAll_eq, Findings.diagnostics, hread, hresolve, herror]
  simp [resolved, herror]

/-- A source is only read if an error is remembered or found in its text. -/
theorem run_of_error (h : session.hadError = true ∨
    (Program.ofSource source session.nextId).diagnostics ≠ []) :
    run fuel source session = .ok () (session.read source).2 := by
  have hread : (session.read source).2.hadError = true := by
    simp only [read, reportAll_eq, Program.any_isStatic]
    rcases h with h | h
    · rw [h, Bool.true_or]
    · simp [h]
  unfold run
  simp only [hread, if_true]

/-- A source is read and resolved, but not executed, if its scopes have errors. -/
theorem run_of_scopeError (herror : session.hadError = false)
    (hread : (Program.ofSource source session.nextId).diagnostics = [])
    (hresolve :
      (resolveProgram (Program.ofSource source session.nextId).statements).errors ≠ []) :
    run fuel source session = .ok () ((session.resolved source).reportAll
      (resolveProgram (Program.ofSource source session.nextId).statements).diagnostics) := by
  have hgoes : (session.read source).2.hadError = false := by
    simp only [read, reportAll_eq, herror, hread, List.any_nil, Bool.or_false]
  have hstops : ((session.read source).2.resolve
      (Program.ofSource source session.nextId).statements).hadError = true := by
    simp only [resolve, reportAll_eq, Findings.any_isStatic]
    simp [hresolve]
  have hrun : run fuel source session = .ok () ((session.read source).2.resolve
      (Program.ofSource source session.nextId).statements) := by
    unfold run
    simp only [hgoes, Bool.false_eq_true, if_false]
    exact if_pos hstops
  rw [hrun]
  simp [resolve, read, reportAll_eq, resolved, hread]

/-- All that a run can do: it reads its source, or it records distances as well,
or it executes a source without static errors. -/
theorem run_cases :
    (∃ after, run fuel source session = .ok () after ∧ after.machine = session.machine ∧
      after.nextId = (Program.ofSource source session.nextId).nextId) ∨
    (Program.ofSource source session.nextId).diagnostics = [] ∧
      ((∃ after, run fuel source session = .ok () after ∧
        after.machine = (session.resolved source).machine ∧
        after.nextId = (session.resolved source).nextId) ∨
      (resolveProgram (Program.ofSource source session.nextId).statements).errors = [] ∧
        run fuel source session =
          execute fuel (Program.ofSource source session.nextId).statements
            (session.resolved source)) := by
  by_cases herror : session.hadError = true ∨
      (Program.ofSource source session.nextId).diagnostics ≠ []
  · refine .inl ⟨_, run_of_error fuel source session herror, ?_, ?_⟩
    · simp only [read, reportAll_eq]
    · simp only [read, reportAll_eq]
  · rw [not_or, not_not, Bool.not_eq_true] at herror
    refine .inr ⟨herror.2, ?_⟩
    by_cases hresolve :
        (resolveProgram (Program.ofSource source session.nextId).statements).errors = []
    · exact .inr ⟨hresolve, run_of_clean fuel source session herror.1 herror.2 hresolve⟩
    · refine .inl ⟨_, run_of_scopeError fuel source session herror.1 herror.2 hresolve, ?_, ?_⟩
      · simp only [reportAll_eq]
      · simp only [reportAll_eq]

/-- The session that a step leaves behind, however it ends. -/
def sessionAfter {α : Type} : EStateM.Result Abort Session α → Session
  | .ok _ session => session
  | .error _ session => session

/-- The session after a run that was not aborted. -/
def finished? : EStateM.Result Abort Session Unit → Option Session
  | .ok () after => some after
  | .error _ _ => none

variable {result : EStateM.Result Abort Session Unit} {after : Session}

/-- A run that has finished has succeeded with the session that it left. -/
theorem eq_ok_of_finished? (h : finished? result = some after) : result = .ok () after := by
  cases result with
  | ok _ s =>
    cases h
    rfl
  | error abort s => cases h

/-- A run that has finished was not cut short by its bound. -/
theorem ne_exhausted_of_finished? (h : (finished? result).isSome) (s : Session) :
    result ≠ .error .exhausted s := by
  intro hexhausted
  rw [hexhausted] at h
  cases h

end Session

end Lox

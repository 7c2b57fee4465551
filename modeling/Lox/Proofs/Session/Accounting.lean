import Mathlib.Data.List.DropRight
import Lox.Proofs.Session
import Lox.Session.Dialogue

/-!
# Every diagnostic is accounted for

A session holds diagnostics until they are taken or shown in answer to a line, and it
has two flags with different rules: static errors are forgotten after every line of a
dialogue, runtime errors never. A ledger is a session with a record of what was
reported and what was handed out, written beside it. Whatever is asked for in whatever
order, what was reported is what was handed out and then what is still held, and the
flags say of the record what they should.
-/

namespace Lox

namespace Session

/-! ### What a run reports -/

/-- What a run of a source reports: what is wrong with its text; else, unless an error
is remembered, what is wrong with its scopes; else the error that ends it. -/
def reports (session : Session) (fuel : Nat) (source : String) : List Diagnostic :=
  let program := Program.ofSource source session.nextId
  let findings := resolveProgram program.statements
  if session.hadError || !program.diagnostics.isEmpty then program.diagnostics
  else if !findings.errors.isEmpty then findings.diagnostics
  else
    match Eval.executeProgram fuel program.statements (session.resolved source).machine with
    | .error (.error error) _ => [.runtime error]
    | _ => []

/-- What becomes of the diagnostics of a session that reports some. -/
structure Reports (diagnostics : List Diagnostic) (session after : Session) : Prop where
  /-- They are held behind those that were held before. -/
  pending : after.pending = session.pending ++ diagnostics
  /-- A static error among them is remembered. -/
  hadError : after.hadError = (session.hadError || diagnostics.any (·.isStatic))
  /-- A runtime error among them is remembered. -/
  hadRuntimeError :
    after.hadRuntimeError = (session.hadRuntimeError || diagnostics.any (!·.isStatic))

variable (session : Session) (fuel : Nat) (source : String)

/-- The three ways that a run takes, and what it reports on each. -/
theorem run_kinds :
    (session.hadError = true ∨ (Program.ofSource source session.nextId).diagnostics ≠ []) ∧
      run fuel source session = .ok () (session.read source).2 ∧
      session.reports fuel source = (Program.ofSource source session.nextId).diagnostics ∨
    (resolveProgram (Program.ofSource source session.nextId).statements).errors ≠ [] ∧
      run fuel source session = .ok () ((session.resolved source).reportAll
        (resolveProgram (Program.ofSource source session.nextId).statements).diagnostics) ∧
      session.reports fuel source =
        (resolveProgram (Program.ofSource source session.nextId).statements).diagnostics ∨
    session.hadError = false ∧
      run fuel source session = execute fuel (Program.ofSource source session.nextId).statements
        (session.resolved source) ∧
      session.reports fuel source =
        match Eval.executeProgram fuel (Program.ofSource source session.nextId).statements
          (session.resolved source).machine with
        | .error (.error error) _ => [.runtime error]
        | _ => [] := by
  by_cases herror : session.hadError = true ∨
      (Program.ofSource source session.nextId).diagnostics ≠ []
  · refine .inl ⟨herror, run_of_error fuel source session herror, if_pos ?_⟩
    rcases herror with herror | hread
    · rw [herror, Bool.true_or]
    · simp [hread]
  · rw [not_or, not_not, Bool.not_eq_true] at herror
    obtain ⟨herror, hread⟩ := herror
    refine .inr ?_
    by_cases hresolve :
        (resolveProgram (Program.ofSource source session.nextId).statements).errors = []
    · refine .inr ⟨herror, run_of_clean fuel source session herror hread hresolve, ?_⟩
      simp [reports, herror, hread, hresolve]
    · refine .inl ⟨hresolve, run_of_scopeError fuel source session herror hread hresolve, ?_⟩
      simp [reports, herror, hread, hresolve]

/-- Executing a program reports the error that ends it, and nothing static. -/
theorem execute_reports (statements : List Stmt) :
    Reports (match Eval.executeProgram fuel statements session.machine with
      | .error (.error error) _ => [.runtime error]
      | _ => []) session (sessionAfter (execute fuel statements session)) := by
  unfold execute
  cases Eval.executeProgram fuel statements session.machine with
  | ok _ machine =>
    constructor <;> simp [sessionAfter]
  | error halt machine =>
    cases halt with
    | error error => constructor <;> simp [sessionAfter, report, Diagnostic.isStatic]
    | fault fault => constructor <;> simp [sessionAfter]
    | exhausted => constructor <;> simp [sessionAfter]

/-- Diagnostics that are reported one by one are held in that order, and set the flags of
their kinds. -/
theorem reportAll_reports (diagnostics : List Diagnostic) :
    Reports diagnostics session (session.reportAll diagnostics) := by
  rw [reportAll_eq]
  exact ⟨rfl, rfl, rfl⟩

/-- A run leaves its reports behind those that wait, and sets the flags by them. -/
theorem run_reports :
    Reports (session.reports fuel source) session (sessionAfter (run fuel source session)) := by
  rcases run_kinds session fuel source with ⟨-, hrun, hreports⟩ | ⟨-, hrun, hreports⟩ |
    ⟨-, hrun, hreports⟩
  · rw [hrun, hreports]
    have hread := reportAll_reports
      { session with nextId := (Program.ofSource source session.nextId).nextId }
      (Program.ofSource source session.nextId).diagnostics
    exact ⟨hread.pending, hread.hadError, hread.hadRuntimeError⟩
  · rw [hrun, hreports]
    have hscopes := reportAll_reports (session.resolved source)
      (resolveProgram (Program.ofSource source session.nextId).statements).diagnostics
    exact ⟨hscopes.pending, hscopes.hadError, hscopes.hadRuntimeError⟩
  · rw [hrun, hreports]
    have hexecute := execute_reports (session.resolved source) fuel
      (Program.ofSource source session.nextId).statements
    exact ⟨hexecute.pending, hexecute.hadError, hexecute.hadRuntimeError⟩

/-- A run either leaves a static error behind, and then it was refused: it records
distances at most, and all else stays, the globals, the objects, the environment, the
calls and the output. Or it reports no static error, and one error of the program at
most. -/
theorem run_refused_or_executed :
    (sessionAfter (run fuel source session)).hadError = true ∧
      (sessionAfter (run fuel source session)).machine =
        { session.machine with
          distances := (sessionAfter (run fuel source session)).machine.distances } ∨
    (sessionAfter (run fuel source session)).hadError = false ∧
      (∀ d ∈ session.reports fuel source, d.isStatic = false) ∧
      (session.reports fuel source).length ≤ 1 := by
  have hflags := run_reports session fuel source
  rcases run_kinds session fuel source with ⟨hbad, hrun, hreports⟩ | ⟨hbad, hrun, hreports⟩ |
    ⟨herror, hrun, hreports⟩
  · refine .inl ⟨?_, ?_⟩
    · rw [hflags.hadError, hreports, Program.any_isStatic]
      rcases hbad with hbad | hbad
      · rw [hbad, Bool.true_or]
      · simp [hbad]
    · rw [hrun]
      simp only [sessionAfter, read, reportAll_eq]
  · refine .inl ⟨?_, ?_⟩
    · rw [hflags.hadError, hreports, Findings.any_isStatic]
      simp [hbad]
    · rw [hrun]
      simp only [sessionAfter, reportAll_eq]
      rfl
  · have hquiet : (∀ d ∈ session.reports fuel source, d.isStatic = false) ∧
        (session.reports fuel source).length ≤ 1 := by
      rw [hreports]
      split
      · exact ⟨fun d hd => by rw [List.mem_singleton.1 hd]; rfl, Nat.le_refl 1⟩
      · exact ⟨List.forall_mem_nil _, Nat.zero_le 1⟩
    refine .inr ⟨?_, hquiet⟩
    rw [hflags.hadError, herror, Bool.false_or, List.any_eq_false]
    intro d hd
    rw [hquiet.1 d hd]
    exact Bool.false_ne_true

/-! ### Ledgers -/

/-- What happens to diagnostics. -/
inductive Event where
  /-- A run reported these. -/
  | reported (diagnostics : List Diagnostic)
  /-- These were taken, or shown in answer to a line. -/
  | delivered (diagnostics : List Diagnostic)
  /-- A line of a dialogue was completed. -/
  | completed

namespace Event

/-- What was reported by an event. -/
def inflow : Event → List Diagnostic
  | reported diagnostics => diagnostics
  | _ => []

/-- What was handed out by an event. -/
def outflow : Event → List Diagnostic
  | delivered diagnostics => diagnostics
  | _ => []

/-- Whether a line was completed. -/
def isCompleted : Event → Bool
  | completed => true
  | _ => false

/-- All that was reported, oldest first. -/
def reportedIn (events : List Event) : List Diagnostic := events.flatMap inflow

/-- All that was handed out, oldest first. -/
def deliveredIn (events : List Event) : List Diagnostic := events.flatMap outflow

/-- What was reported since the last completed line, or at all if there is none. -/
def recentIn (events : List Event) : List Diagnostic :=
  reportedIn (events.rtakeWhile (!·.isCompleted))

variable (events : List Event) (event : Event)

/-- One more event adds what it reported. -/
@[simp]
theorem reportedIn_concat : reportedIn (events ++ [event]) = reportedIn events ++ event.inflow := by
  simp [reportedIn]

/-- One more event adds what it handed out. -/
@[simp]
theorem deliveredIn_concat :
    deliveredIn (events ++ [event]) = deliveredIn events ++ event.outflow := by
  simp [deliveredIn]

/-- A completed line starts a new count of what was reported since; any other event goes
on with it. -/
@[simp]
theorem recentIn_concat : recentIn (events ++ [event]) =
    if event.isCompleted then [] else recentIn events ++ event.inflow := by
  unfold recentIn
  cases hcompleted : event.isCompleted with
  | true =>
    rw [List.rtakeWhile_concat_neg _ _ _ (by rw [hcompleted]; decide)]
    rfl
  | false =>
    rw [List.rtakeWhile_concat_pos _ _ _ (by rw [hcompleted]; rfl), reportedIn_concat]
    rfl

end Event

end Session

/-- A session with a record of its diagnostics. -/
structure Ledger where
  /-- What happened so far, oldest first. -/
  events : List Session.Event
  /-- The session. -/
  session : Session

namespace Ledger

open Session Event

/-- A ledger before the first source. -/
def initial (sink : Sink) (clock : Nat → Float) : Ledger := ⟨[], .initial sink clock⟩

/-- Runs a source. -/
def run (ledger : Ledger) (fuel : Nat) (source : String) : Ledger :=
  ⟨ledger.events ++ [.reported (ledger.session.reports fuel source)],
    sessionAfter (Session.run fuel source ledger.session)⟩

/-- Takes the diagnostics. -/
def take (ledger : Ledger) : Ledger :=
  ⟨ledger.events ++ [.delivered ledger.session.takeDiagnostics.1],
    ledger.session.takeDiagnostics.2⟩

/-- Asks for lines, as a dialogue does. A line that is aborted is not completed, and
nothing is shown in answer to it. -/
def prompt (ledger : Ledger) (fuel : Nat) : List Line → Ledger
  | [] => ledger
  | none :: _ => ledger
  | some line :: rest =>
    if line.isEmpty then ledger
    else
      match Session.answer fuel line ledger.session with
      | .error _ _ => ledger.run fuel line
      | .ok turn after =>
        prompt ⟨(ledger.run fuel line).events ++ [.delivered turn.reported] ++ [.completed], after⟩
          fuel rest

/-- What can be asked for. -/
inductive Call where
  /-- A source is run. -/
  | run (fuel : Nat) (source : String)
  /-- Lines are asked for. -/
  | prompt (fuel : Nat) (lines : List Line)
  /-- The diagnostics are taken. -/
  | take

/-- Does what is asked for. Where a run is aborted, the session goes on as it was left. -/
def perform (ledger : Ledger) : Call → Ledger
  | .run fuel source => ledger.run fuel source
  | .prompt fuel lines => ledger.prompt fuel lines
  | .take => ledger.take

/-- Does one thing after the other. -/
def performAll (ledger : Ledger) (calls : List Call) : Ledger := calls.foldl perform ledger

/-- Answering a line is a run, and then its diagnostics are shown and its static errors
forgotten. -/
theorem answer_cases (fuel : Nat) (line : String) (session : Session) :
    (∃ abort after, Session.answer fuel line session = .error abort after ∧
      sessionAfter (Session.run fuel line session) = after) ∨
    ∃ turn after, Session.answer fuel line session = .ok turn after ∧
      turn.reported = (sessionAfter (Session.run fuel line session)).takeDiagnostics.1 ∧
      after = (sessionAfter
        (Session.run fuel line session)).takeDiagnostics.2.takeOutput.2.forgetErrors := by
  unfold Session.answer
  rw [bind_apply]
  cases Session.run fuel line session with
  | error abort after => exact .inl ⟨abort, after, rfl, rfl⟩
  | ok _ after => exact .inr ⟨_, _, rfl, rfl, rfl⟩

/-- The record of a dialogue is what the dialogue shows, and it ends in the same
session. -/
theorem prompt_eq (ledger : Ledger) (fuel : Nat) (lines : List Line) :
    (ledger.prompt fuel lines).session = (ledger.session.converse fuel lines).session ∧
      deliveredIn (ledger.prompt fuel lines).events = deliveredIn ledger.events ++
        (ledger.session.converse fuel lines).turns.flatMap (·.reported) := by
  induction lines generalizing ledger with
  | nil => exact ⟨rfl, (List.append_nil _).symm⟩
  | cons line rest ih =>
    cases line with
    | none => exact ⟨rfl, (List.append_nil _).symm⟩
    | some line =>
      rw [prompt, Session.converse]
      split
      · exact ⟨rfl, (List.append_nil _).symm⟩
      · rcases answer_cases fuel line ledger.session with
          ⟨abort, after, hanswer, hafter⟩ | ⟨turn, after, hanswer, -, -⟩
        · rw [hanswer]
          exact ⟨hafter, deliveredIn_concat _ _⟩
        · rw [hanswer]
          obtain ⟨hsession, hdelivered⟩ := ih
            ⟨(ledger.run fuel line).events ++ [.delivered turn.reported] ++ [.completed], after⟩
          refine ⟨hsession, hdelivered.trans ?_⟩
          rw [deliveredIn_concat, deliveredIn_concat, run, deliveredIn_concat]
          simp only [outflow, List.append_nil, List.append_assoc, List.flatMap_cons]

/-- The books are balanced. -/
structure Balanced (ledger : Ledger) : Prop where
  /-- What was reported was handed out or is still held. -/
  reported : reportedIn ledger.events = deliveredIn ledger.events ++ ledger.session.pending
  /-- A static error is remembered if there is one since the last completed line. -/
  hadError : ledger.session.hadError = (recentIn ledger.events).any (·.isStatic)
  /-- A runtime error is remembered if there ever was one. -/
  hadRuntimeError :
    ledger.session.hadRuntimeError = (reportedIn ledger.events).any (!·.isStatic)

namespace Balanced

variable {ledger : Ledger}

/-- A run that reports something leaves the books balanced: it is held, and the flags say so. -/
theorem run (h : ledger.Balanced) (fuel : Nat) (source : String) :
    (ledger.run fuel source).Balanced := by
  have hreports := run_reports ledger.session fuel source
  constructor
  · simp [Ledger.run, inflow, outflow, h.reported, hreports.pending]
  · simp [Ledger.run, inflow, isCompleted, ← h.hadError, hreports.hadError]
  · simp only [Ledger.run, reportedIn_concat, inflow, List.any_append, ← h.hadRuntimeError,
      hreports.hadRuntimeError]

/-- Diagnostics that are taken leave the books balanced: they are handed out, and the
flags stay. -/
theorem take (h : ledger.Balanced) : ledger.take.Balanced := by
  constructor
  · simp [Ledger.take, takeDiagnostics, inflow, outflow, h.reported]
  · simp [Ledger.take, takeDiagnostics, inflow, isCompleted, h.hadError]
  · simp [Ledger.take, takeDiagnostics, inflow, h.hadRuntimeError]

/-- A completed line forgets its static errors. -/
theorem complete (h : ledger.Balanced) :
    Balanced ⟨ledger.events ++ [.completed], ledger.session.takeOutput.2.forgetErrors⟩ := by
  constructor
  · simp [takeOutput, forgetErrors, inflow, outflow, h.reported]
  · simp [forgetErrors, isCompleted]
  · simp [takeOutput, forgetErrors, inflow, h.hadRuntimeError]

/-- A dialogue leaves the books balanced, line by line and however it ends. -/
theorem prompt (h : ledger.Balanced) (fuel : Nat) (lines : List Line) :
    (ledger.prompt fuel lines).Balanced := by
  induction lines generalizing ledger with
  | nil => exact h
  | cons line rest ih =>
    cases line with
    | none => exact h
    | some line =>
      rw [Ledger.prompt]
      split
      · exact h
      · rcases answer_cases fuel line ledger.session with
          ⟨abort, after, hanswer, -⟩ | ⟨turn, after, hanswer, hturn, hafter⟩
        · rw [hanswer]
          exact h.run fuel line
        · rw [hanswer]
          refine ih ?_
          rw [hturn, hafter]
          exact (h.run fuel line).take.complete

/-- Each call leaves the books balanced. -/
theorem perform (h : ledger.Balanced) (call : Call) : (ledger.perform call).Balanced := by
  cases call with
  | run fuel source => exact h.run fuel source
  | prompt fuel lines => exact h.prompt fuel lines
  | take => exact h.take

/-- Calls in any order leave the books balanced. -/
theorem performAll (h : ledger.Balanced) (calls : List Call) :
    (ledger.performAll calls).Balanced := by
  induction calls generalizing ledger with
  | nil => exact h
  | cons call rest ih => exact ih (h.perform call)

end Balanced

/-- Nothing was reported before the first source. -/
theorem balanced_initial (sink : Sink) (clock : Nat → Float) : (initial sink clock).Balanced :=
  ⟨rfl, rfl, rfl⟩

/-- Diagnostics and flags are accounted for. Whatever is run, asked for line by line and
taken, in whatever order, the diagnostics that were reported are, in order, those that
were handed out and then those that are still held. A static error is remembered if one
was reported since the last completed line, a runtime error if one ever was, and the exit
code follows. What is handed out in answer to lines is what the dialogue shows. And every
single run either leaves a static error behind and changes nothing but distances, or it
reports nothing static and one error at most. -/
theorem diagnostics_accounted (sink : Sink) (clock : Nat → Float) (calls : List Call) :
    let ledger := (initial sink clock).performAll calls
    reportedIn ledger.events = deliveredIn ledger.events ++ ledger.session.pending ∧
      (ledger.session.hadError = true ↔ ∃ d ∈ recentIn ledger.events, d.isStatic = true) ∧
      (ledger.session.hadRuntimeError = true ↔
        ∃ d ∈ reportedIn ledger.events, d.isStatic = false) ∧
      ledger.session.exitCode =
        (if (recentIn ledger.events).any (·.isStatic) then some 65
          else if (reportedIn ledger.events).any (!·.isStatic) then some 70 else none) ∧
      (∀ fuel lines,
        (ledger.prompt fuel lines).session = (ledger.session.converse fuel lines).session ∧
        deliveredIn (ledger.prompt fuel lines).events = deliveredIn ledger.events ++
          (ledger.session.converse fuel lines).turns.flatMap (·.reported)) ∧
      ∀ (session : Session) (fuel : Nat) (source : String),
        let after := sessionAfter (Session.run fuel source session)
        after.hadError = true ∧
            after.machine = { session.machine with distances := after.machine.distances } ∨
          after.hadError = false ∧ (∀ d ∈ session.reports fuel source, d.isStatic = false) ∧
            (session.reports fuel source).length ≤ 1 := by
  have hbalanced := (balanced_initial sink clock).performAll calls
  refine ⟨hbalanced.reported, ?_, ?_, ?_, fun fuel lines => prompt_eq _ fuel lines,
    fun session fuel source => run_refused_or_executed session fuel source⟩
  · rw [hbalanced.hadError, List.any_eq_true]
  · rw [hbalanced.hadRuntimeError, List.any_eq_true]
    simp
  · rw [exitCode, hbalanced.hadError, hbalanced.hadRuntimeError]

end Ledger

end Lox

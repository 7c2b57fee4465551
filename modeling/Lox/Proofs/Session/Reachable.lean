import Lox.Proofs.Heap.Points
import Lox.Proofs.Session
import Lox.Session.Dialogue

/-!
# Sessions and points that are reached

A session is reached from one before its first source by runs of sources, by
taking what was printed or reported, and by forgetting static errors; so is
every session in the course of a dialogue. A point is reached if a run of a
source in such a session comes to it. Between two sources the environment in
effect is the global one, no call is in progress, and the machine is well formed.
-/

namespace Lox

/-- A machine is where it was if its store and its environment are the same. -/
theorem Machine.At.congr {m m' : Machine} {w : World} (h : m.At w)
    (hstore : m'.store = m.store) (henv : m'.env = m.env) : m'.At w :=
  ⟨h.store.trans hstore.symm, h.wellFormed, henv ▸ h.env⟩

namespace Session

/-- The sessions that can come about. -/
inductive Reachable : Session → Prop where
  /-- Nothing has happened before the first source. -/
  | initial (sink : Sink) (clock : Nat → Float) : Reachable (initial sink clock)
  /-- A run came to an end. -/
  | run {session after : Session} {fuel : Nat} {source : String} (h : Reachable session)
      (hrun : Session.run fuel source session = .ok () after) : Reachable after
  /-- The diagnostics were taken. -/
  | takeDiagnostics {session : Session} (h : Reachable session) :
      Reachable session.takeDiagnostics.2
  /-- The output was taken. -/
  | takeOutput {session : Session} (h : Reachable session) : Reachable session.takeOutput.2
  /-- The static errors were forgotten. -/
  | forgetErrors {session : Session} (h : Reachable session) : Reachable session.forgetErrors

/-- Answering a line is a run and then taking what it left. -/
theorem Reachable.answer {session after : Session} (h : session.Reachable) {fuel : Nat}
    {line : String} {turn : Turn} (hanswer : Session.answer fuel line session = .ok turn after) :
    after.Reachable := by
  obtain ⟨_, middle, hrun, htake⟩ := bind_eq_ok hanswer
  cases htake
  exact (((h.run hrun).takeDiagnostics).takeOutput).forgetErrors

/-- A dialogue that is not aborted leaves a session that can come about. -/
theorem Reachable.converse {session : Session} (h : session.Reachable) (fuel : Nat)
    (lines : List Line) (hending : ∀ abort, (session.converse fuel lines).ending ≠ .aborted abort) :
    (session.converse fuel lines).session.Reachable := by
  induction lines generalizing session with
  | nil => exact h
  | cons line rest ih =>
    cases line with
    | none => exact h
    | some line =>
      rw [Session.converse] at hending ⊢
      split
      · exact h
      · rename_i hempty
        rw [if_neg hempty] at hending
        cases hanswer : Session.answer fuel line session with
        | error abort after =>
          rw [hanswer] at hending
          exact absurd rfl (hending abort)
        | ok turn after =>
          rw [hanswer] at hending
          exact ih (h.answer hanswer) hending

/-- The points that the run of a source comes to, with the number of calls that
are in progress there. -/
inductive Reaches (session : Session) (fuel : Nat) (source : String) (n : Nat) (q : Point) :
    Prop where
  /-- The source has no static errors, the statements before one are done, and the point is
  inside of that one. -/
  | intro {before later : List Stmt} {s : Stmt} {m : Machine} (herror : session.hadError = false)
      (hread : (Program.ofSource source session.nextId).diagnostics = [])
      (hresolve :
        (resolveProgram (Program.ofSource source session.nextId).statements).errors = [])
      (hstatements :
        (Program.ofSource source session.nextId).statements = before ++ s :: later)
      (hbefore : Eval.executeProgram fuel before (session.resolved source).machine = .ok () m)
      (hinside : Inside n ⟨fuel, .execute s, m⟩ q) : Reaches session fuel source n q

/-! ### What a run does to the machine -/

variable {session after : Session} {fuel : Nat} {source : String}

/-- Execution leaves the machine that the statements of the program leave. -/
theorem machine_of_execute {ss : List Stmt} (h : execute fuel ss session = .ok () after) :
    after.machine = machineAfter (Eval.executeProgram fuel ss session.machine) := by
  unfold execute at h
  cases hrun : Eval.executeProgram fuel ss session.machine with
  | ok _ m =>
    rw [hrun] at h
    cases h
    rfl
  | error halt m =>
    rw [hrun] at h
    cases halt with
    | error e =>
      cases h
      rfl
    | fault f => cases h
    | exhausted => cases h

/-- A run leaves the machine alone, or records distances, or executes a program
without static errors as well. -/
theorem machine_of_run (h : run fuel source session = .ok () after) :
    after.machine = session.machine ∨ after.machine = (session.resolved source).machine ∨
      (Program.ofSource source session.nextId).diagnostics = [] ∧
        after.machine = machineAfter (Eval.executeProgram fuel
          (Program.ofSource source session.nextId).statements
          (session.resolved source).machine) := by
  rcases run_cases fuel source session with
    ⟨other, hrun, hmachine, -⟩ | ⟨hread, ⟨other, hrun, hmachine, -⟩ | ⟨-, hrun⟩⟩
  · rw [hrun] at h
    cases h
    exact .inl hmachine
  · rw [hrun] at h
    cases h
    exact .inr (.inl hmachine)
  · rw [hrun] at h
    exact .inr (.inr ⟨hread, machine_of_execute h⟩)

/-- Between two sources nothing is in progress. -/
theorem Reachable.idle (h : session.Reachable) :
    session.machine.env = globalEnv ∧ session.machine.calls = 0 := by
  induction h with
  | initial sink clock => exact ⟨rfl, rfl⟩
  | @run session after fuel source _ hrun ih =>
    rcases machine_of_run hrun with hm | hm | ⟨-, hm⟩
    · rw [hm]
      exact ih
    · rw [hm]
      exact ih
    · have hkept := keeps_executeProgram fuel
        (Program.ofSource source session.nextId).statements (session.resolved source).machine
      rw [hm]
      exact ⟨hkept.env.trans ih.1, hkept.calls.trans ih.2⟩
  | takeDiagnostics _ ih => exact ih
  | takeOutput _ ih => exact ih
  | forgetErrors _ ih => exact ih

/-! ### Well-formed machines -/

/-- Before the first source there is one frame, and nothing refers to it. -/
theorem at_initial (sink : Sink) (clock : Nat → Float) :
    (Machine.initial sink clock).At ⟨id, (Machine.initial sink clock).store⟩ := by
  refine ⟨rfl, ⟨Nat.one_pos, fun i hpos hi => ?_, fun i => ?_, fun object x v hv => ?_⟩,
    ⟨.singleton _, rfl, fun i hi => ?_⟩⟩
  · have hone : i < 1 := hi
    omega
  · cases i with
    | zero => exact .single trivial (fun h => absurd h (by decide)) fun h => absurd h (by decide)
    | succ i =>
      change Bindings.Sound _ []
      exact ⟨nofun, nofun, nofun⟩
  · cases hv
  · rw [List.mem_singleton.1 hi]
    exact Nat.one_pos

/-- A run leaves a well-formed machine at a later world. -/
theorem at_of_run (hrun : run fuel source session = .ok () after) {w : World}
    (hm : session.machine.At w) : ∃ w', w.Before w' ∧ after.machine.At w' := by
  have hresolved : (session.resolved source).machine.At w := hm.congr rfl rfl
  rcases machine_of_run hrun with hmachine | hmachine | ⟨hread, hmachine⟩
  · rw [hmachine]
    exact ⟨w, .refl w, hm⟩
  · rw [hmachine]
    exact ⟨w, .refl w, hresolved⟩
  · have hplain := (Program.plain_of_diagnostics hread).mem
    have hsafe : Safe w Anything (Eval.executeProgram fuel _) := safe_executeProgram hplain
    obtain ⟨w', hw, hend⟩ := hsafe _ w (.refl w) hresolved
    rw [hmachine]
    exact ⟨w', hw, hend.1⟩

/-- Every session that can come about has a well-formed machine. -/
theorem Reachable.at (h : session.Reachable) : ∃ w, session.machine.At w := by
  induction h with
  | initial sink clock => exact ⟨_, at_initial sink clock⟩
  | run _ hrun ih =>
    obtain ⟨w, hm⟩ := ih
    obtain ⟨w', -, hm'⟩ := at_of_run hrun hm
    exact ⟨w', hm'⟩
  | takeDiagnostics _ ih => exact ih
  | takeOutput _ ih =>
    obtain ⟨w, hm⟩ := ih
    exact ⟨w, hm.congr rfl rfl⟩
  | forgetErrors _ ih => exact ih

/-! ### Points of a run -/

/-- A program passes through the points of its statements. -/
theorem passes_executeProgram {before later : List Stmt} {s : Stmt} {m m' : Machine} {w : World}
    (hss : ∀ a ∈ before ++ s :: later, a.Plain) (hm : m.At w)
    (hbefore : Eval.executeProgram fuel before m = .ok () m') :
    Passes w ⟨fuel, .execute s, m'⟩ fun w' => EndsAt w' Anything
      (Eval.executeProgram fuel (before ++ s :: later) m) := by
  induction before generalizing w m with
  | nil =>
    cases hbefore
    rw [List.nil_append, List.forall_mem_cons] at hss
    exact (Passes.statement hss.1 hm).bind fun _ _ _ _ => safe_executeProgram hss.2
  | cons a before ih =>
    rw [List.cons_append, List.forall_mem_cons] at hss
    obtain ⟨flow, m₁, ha, hrest⟩ := bind_eq_ok hbefore
    refine Passes.andThen ((safeEvaluation fuel).statement a w hss.1) hm ha fun w₁ _ hm₁ _ => ?_
    exact ih hss.2 hm₁ hrest

/-- A run passes through the points that it comes to. -/
theorem Reaches.passes {n : Nat} {q : Point} (h : session.Reaches fuel source n q) {w : World}
    (hm : session.machine.At w) : Passes w q fun w' => EndsAt w' Anything
      (Eval.executeProgram fuel (Program.ofSource source session.nextId).statements
        (session.resolved source).machine) := by
  obtain ⟨-, hread, -, hstatements, hbefore, hinside⟩ := h
  have hss := (Program.plain_of_diagnostics hread).mem
  have hresolved : (session.resolved source).machine.At w := hm.congr rfl rfl
  rw [hstatements] at hss ⊢
  refine (passes_executeProgram hss hresolved hbefore).trans fun w' hs hm' => ?_
  exact hinside.passes hs hm'

/-- The machine counts the calls in progress. -/
theorem Reaches.calls_eq {n : Nat} {q : Point} (h : session.Reaches fuel source n q)
    (hs : session.Reachable) : q.machine.calls = n ∧ n ≤ Machine.maxCalls := by
  obtain ⟨-, -, -, -, hbefore, hinside⟩ := h
  have hstart := calls_of_ok (keeps_executeProgram fuel _) hbefore
  have hidle : (session.resolved source).machine.calls = 0 := hs.idle.2
  rw [hidle] at hstart
  have hcalls := hinside.calls_eq
  dsimp only at hcalls
  rw [hstart] at hcalls
  have hmax := hcalls.2 (Nat.zero_le _)
  omega

/-- A run that comes to some point ends where its program ends. -/
theorem Reaches.machine_eq {n : Nat} {q : Point} (h : session.Reaches fuel source n q)
    (hrun : run fuel source session = .ok () after) :
    after.machine = machineAfter (Eval.executeProgram fuel
      (Program.ofSource source session.nextId).statements (session.resolved source).machine) := by
  obtain ⟨herror, hread, hresolve, -, -, -⟩ := h
  rw [run_of_clean fuel source session herror hread hresolve] at hrun
  exact machine_of_execute hrun

end Session

end Lox

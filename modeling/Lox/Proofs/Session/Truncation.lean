import Lox.Proofs.Output.Evaluation
import Lox.Proofs.Session.Refusal

/-!
# Sources whose output is refused

A source without static errors is run in a session whose sink may be full, and once
more in the same session with a sink that is not. If nothing is refused, both runs end
alike. If a print is refused, the first run stops there: nothing is begun after that
print, it is reported once, and the session is idle again. In either case what the first
run printed is the beginning of what the second one prints, however long that goes on.
-/

namespace Lox

/-! ### Programs -/

section Programs

variable {fuel fuel' : Nat}

/-- The points of the statements of a program. -/
def visitsProgram (fuel : Nat) : List Stmt → Machine → List Point
  | [], _ => []
  | s :: rest, m =>
    visitsExecute fuel s m ++ afterOk (Eval.execute fuel s m) fun _ => visitsProgram fuel rest

/-- A statement of a program is come to once those before it are over. -/
theorem mem_visitsProgram {ss : List Stmt} {m : Machine} {q : Point} :
    q ∈ visitsProgram fuel ss m ↔ ∃ before s later m', ss = before ++ s :: later ∧
      Eval.executeProgram fuel before m = .ok () m' ∧
        q ∈ Point.visits ⟨fuel, .execute s, m'⟩ := by
  constructor
  · intro h
    induction ss generalizing m with
    | nil => cases h
    | cons s rest ih =>
      rcases List.mem_append.1 h with h | h
      · exact ⟨[], s, rest, m, rfl, rfl, h⟩
      · obtain ⟨flow, m₁, hs, h⟩ := mem_afterOk.1 h
        obtain ⟨before, s', later, m', rfl, hbefore, h⟩ := ih h
        refine ⟨s :: before, s', later, m', rfl, ?_, h⟩
        rw [Eval.executeProgram, bind_of_ok hs]
        exact hbefore
  · rintro ⟨before, s, later, m', rfl, hbefore, h⟩
    induction before generalizing m with
    | nil =>
      cases hbefore
      exact List.mem_append_left _ h
    | cons s' before ih =>
      obtain ⟨flow, m₁, hs, hrest⟩ := bind_eq_ok hbefore
      exact List.mem_append_right _ (mem_afterOk.2 ⟨flow, m₁, hs, ih hrest⟩)

/-- A program runs up to the first print that is refused. -/
theorem follows_executeProgram (h : fuel ≤ fuel') (ss : List Stmt) :
    Follows (visitsProgram fuel ss) (Eval.executeProgram fuel ss)
      (Eval.executeProgram fuel' ss) := by
  induction ss with
  | nil => exact .quiet (.pure _)
  | cons s rest ih => exact ((followsWithin h).statement s).bind fun _ => ih

end Programs

namespace Session

variable {s : Session} {fuel fuel' : Nat} {source : String}

/-- A session whose output is never refused. -/
def unlimited (s : Session) : Session := { s with machine := s.machine.unlimited }

/-- The points that the run of a source without static errors comes to, in order. -/
def visits (s : Session) (fuel : Nat) (source : String) : List Point :=
  visitsProgram fuel (Program.ofSource source s.nextId).statements (s.resolved source).machine

/-- They are the ones that are reached. -/
theorem mem_visits_iff (herror : s.hadError = false)
    (hread : (Program.ofSource source s.nextId).diagnostics = [])
    (hresolve : (resolveProgram (Program.ofSource source s.nextId).statements).errors = [])
    {q : Point} : q ∈ s.visits fuel source ↔ ∃ n, s.Reaches fuel source n q := by
  unfold visits
  rw [mem_visitsProgram]
  constructor
  · rintro ⟨before, st, later, m, hstatements, hbefore, h⟩
    obtain ⟨n, hinside⟩ := Point.mem_visits_iff.1 h
    exact ⟨n, herror, hread, hresolve, hstatements, hbefore, hinside⟩
  · rintro ⟨n, -, -, -, hstatements, hbefore, hinside⟩
    exact ⟨_, _, _, _, hstatements, hbefore, Point.mem_visits_iff.2 ⟨n, hinside⟩⟩

/-- The end of a run with a change of the session that is left behind. -/
def onEnd (change : Session → Session) :
    EStateM.Result Abort Session Unit → EStateM.Result Abort Session Unit
  | .ok () after => .ok () (change after)
  | .error abort after => .error abort (change after)

/-- A change of what the sink refuses does not change what it has taken. -/
theorem accepted_onEnd (result : EStateM.Result Abort Session Unit) :
    (sessionAfter (onEnd unlimited result)).machine.sink.accepted =
      (sessionAfter result).machine.sink.accepted := by
  cases result <;> rfl

/-- How a run stops at a print that is refused. -/
structure StopsAt (s : Session) (fuel : Nat) (source : String) (q : Point) (refusal : Refusal)
    (after : Session) : Prop where
  /-- Nothing is begun after that print and its value, and all other prints are accepted. -/
  last : ∃ earlier, s.visits fuel source = earlier ++ q.visits ∧
    ∀ p ∈ earlier ++ q.visits.tail, p.Accepted
  /-- It is reported, and nothing else is. -/
  pending : after.pending = s.pending ++
    [.runtime ⟨refusal.line, .output refusal.machine.sink.refusal⟩]
  /-- A runtime error is remembered, and no static one. -/
  flags : after.hadError = false ∧ after.hadRuntimeError = true
  /-- The machine is as the refusal left it, but nothing is in progress. -/
  machine : after.machine = { refusal.machine with env := globalEnv, calls := 0 }
  /-- The text ends within the print. -/
  printed : ∃ part rest, refusal.text = part ++ rest ∧
    after.machine.sink.accepted = refusal.printed ++ part

/-- No other print is refused. -/
theorem StopsAt.eq_of_refuses {p q : Point} {refusal refusal' : Refusal} {after : Session}
    (h : s.StopsAt fuel source q refusal after) (hp : p ∈ s.visits fuel source)
    (hrefuses : p.Refuses refusal') : p = q := by
  obtain ⟨earlier, hlast, hothers⟩ := h.last
  rw [hlast, q.visits_eq, List.mem_append, List.mem_cons] at hp
  rcases hp with hp | rfl | hp
  · exact absurd hrefuses (hothers p (List.mem_append_left _ hp) refusal')
  · rfl
  · exact absurd hrefuses (hothers p (List.mem_append_right _ hp) refusal')

/-- A source without static errors is read and resolved without one, whatever identities
it is given. -/
theorem diagnostics_eq_nil (hstatic : Program.staticErrors source = []) (n : Nat) :
    (Program.ofSource source n).diagnostics = [] ∧
      (resolveProgram (Program.ofSource source n).statements).errors = [] := by
  rw [Program.staticErrors_eq source n] at hstatic
  split at hstatic
  · rename_i hread
    exact ⟨List.isEmpty_iff.1 hread, List.map_eq_nil_iff.1 hstatic⟩
  · rename_i hread
    exact absurd (List.isEmpty_iff.2 hstatic) hread

/-- The machine of the session that is left behind is the one that the program leaves. -/
theorem machine_sessionAfter_execute (ss : List Stmt) (s : Session) :
    (sessionAfter (execute fuel ss s)).machine =
      machineAfter (Eval.executeProgram fuel ss s.machine) := by
  unfold execute
  cases Eval.executeProgram fuel ss s.machine with
  | ok _ m => rfl
  | error halt m => cases halt <;> rfl

/-- Programs that end alike but for the sink leave sessions that are. -/
theorem execute_unlimited {ss : List Stmt}
    (h : Eval.executeProgram fuel' ss s.machine.unlimited =
      onState Machine.unlimited (Eval.executeProgram fuel ss s.machine)) :
    execute fuel' ss s.unlimited = onEnd unlimited (execute fuel ss s) := by
  have hfull : Eval.executeProgram fuel' ss s.unlimited.machine =
      onState Machine.unlimited (Eval.executeProgram fuel ss s.machine) := h
  unfold execute
  rw [hfull]
  cases Eval.executeProgram fuel ss s.machine with
  | ok _ m => rfl
  | error halt m => cases halt <;> rfl

/-- A source that is only read prints nothing. -/
theorem run_unlimited_of_hadError (fuel fuel' : Nat) (source : String)
    (herror : s.hadError = true) :
    run fuel' source s.unlimited = onEnd unlimited (run fuel source s) := by
  rw [run_of_error fuel source s (.inl herror),
    run_of_error fuel' source s.unlimited (.inl herror)]
  simp only [read, reportAll_eq]
  rfl

/-- A run ends as on a sink that is never full, or it stops at a print that is refused. -/
theorem run_same_or_stops (hs : s.Reachable) (herror : s.hadError = false)
    (hstatic : Program.staticErrors source = []) (hle : fuel ≤ fuel')
    (hends : ∀ after, run fuel source s ≠ .error .exhausted after) :
    (∀ p ∈ s.visits fuel source, p.Accepted) ∧
        run fuel' source s.unlimited = onEnd unlimited (run fuel source s) ∨
      ∃ q refusal after more, q.Refuses refusal ∧ run fuel source s = .ok () after ∧
        s.StopsAt fuel source q refusal after ∧
        (sessionAfter (run fuel' source s.unlimited)).machine.sink.accepted =
          refusal.printed ++ refusal.text ++ more := by
  obtain ⟨hread, hresolve⟩ := diagnostics_eq_nil hstatic s.nextId
  have hlimited := run_of_clean fuel source s herror hread hresolve
  have hfull : run fuel' source s.unlimited = execute fuel'
      (Program.ofSource source s.nextId).statements (s.resolved source).unlimited :=
    run_of_clean fuel' source s.unlimited herror hread hresolve
  rw [hlimited] at hends ⊢
  rw [hfull, machine_sessionAfter_execute]
  have hkept := keeps_executeProgram fuel (Program.ofSource source s.nextId).statements
    (s.resolved source).machine
  have hruns := (follows_executeProgram hle
    (Program.ofSource source s.nextId).statements).truncates (s.resolved source).machine
  change Truncates (s.visits fuel source) _
    (Eval.executeProgram fuel' _ (s.resolved source).unlimited.machine) at hruns
  generalize hother : Eval.executeProgram fuel' (Program.ofSource source s.nextId).statements
    (s.resolved source).unlimited.machine = other at hruns ⊢
  generalize hrun : Eval.executeProgram fuel (Program.ofSource source s.nextId).statements
    (s.resolved source).machine = result at hruns hkept
  cases hruns with
  | @exhausted m =>
    exact absurd (by rw [execute, hrun]) (hends { s.resolved source with machine := m })
  | same hvisited =>
    refine .inl ⟨hvisited, execute_unlimited ?_⟩
    rw [hrun]
    exact hother
  | @refused earlier q refusal env calls _ hrefuses hvisited hothers hmore =>
    obtain ⟨more, hmore⟩ := hmore
    obtain rfl : env = globalEnv := hkept.env.trans hs.idle.1
    obtain rfl : calls = 0 := hkept.calls.trans hs.idle.2
    refine .inr ⟨q, refusal, _, more, hrefuses, by rw [execute, hrun], ?_, hmore⟩
    have hflag : (s.hadError || false) = false := by rw [herror, Bool.or_false]
    exact ⟨⟨earlier, hvisited, hothers⟩, rfl, ⟨hflag, Bool.or_true _⟩, rfl,
      hrefuses.exists_part⟩

end Session

/-- A sink that refuses output only cuts it off, be it in the middle of a value. A source
without static errors is run to its end in a session with any sink, and run in the same
session with a sink that is never full, which may take longer and need not come to an
end. What the first run prints is the beginning of what the second one prints. If nothing
is refused they end alike. If a print is refused, the run stops there, while the other
one prints the whole of it and goes on. -/
theorem run_truncated_by_sink {s : Session} (hs : s.Reachable) {source : String}
    (hstatic : Program.staticErrors source = []) {fuel fuel' : Nat}
    (hle : fuel ≤ fuel') (hends : ∀ after, Session.run fuel source s ≠ .error .exhausted after) :
    let limited := Session.run fuel source s
    let full := Session.run fuel' source s.unlimited
    (∃ more, (Session.sessionAfter full).machine.sink.accepted =
      (Session.sessionAfter limited).machine.sink.accepted ++ more) ∧
    ((∀ n p, s.Reaches fuel source n p → p.Accepted) →
      full = Session.onEnd Session.unlimited limited) ∧
    ∀ n q refusal, s.Reaches fuel source n q → q.Refuses refusal →
      ∃ after, limited = .ok () after ∧ s.StopsAt fuel source q refusal after ∧
        ∃ more, (Session.sessionAfter full).machine.sink.accepted =
          refusal.printed ++ refusal.text ++ more := by
  dsimp only
  have hagree : Session.run fuel' source s.unlimited =
      Session.onEnd Session.unlimited (Session.run fuel source s) →
      ∃ more, (Session.sessionAfter (Session.run fuel' source s.unlimited)).machine.sink.accepted =
        (Session.sessionAfter (Session.run fuel source s)).machine.sink.accepted ++ more := by
    intro hsame
    refine ⟨"", ?_⟩
    rw [String.append_empty, hsame, Session.accepted_onEnd]
  by_cases herror : s.hadError = true
  · have hsame := Session.run_unlimited_of_hadError fuel fuel' source herror
    refine ⟨hagree hsame, fun _ => hsame, fun n q refusal hq => ?_⟩
    obtain ⟨hnone, -, -, -, -, -⟩ := hq
    exact absurd herror (by rw [hnone]; exact Bool.false_ne_true)
  rw [Bool.not_eq_true] at herror
  obtain ⟨hread, hresolve⟩ := Session.diagnostics_eq_nil hstatic s.nextId
  have hvisits : ∀ {p}, p ∈ s.visits fuel source ↔ ∃ n, s.Reaches fuel source n p :=
    Session.mem_visits_iff herror hread hresolve
  rcases Session.run_same_or_stops hs herror hstatic hle hends with
    ⟨haccepted, hsame⟩ | ⟨q, refusal, after, more, hrefuses, hlimited, hstops, hmore⟩
  · refine ⟨hagree hsame, fun _ => hsame, fun n q refusal hq hrefuses => ?_⟩
    exact absurd hrefuses (haccepted q (hvisits.2 ⟨n, hq⟩) refusal)
  · refine ⟨?_, fun haccepted => ?_, fun n q' refusal' hq' hrefuses' => ?_⟩
    · obtain ⟨part, rest, htext, hpart⟩ := hstops.printed
      refine ⟨rest ++ more, ?_⟩
      rw [hmore, hlimited, Session.sessionAfter, hpart, htext]
      simp only [String.append_assoc]
    · obtain ⟨earlier, hlast, -⟩ := hstops.last
      have hq : q ∈ s.visits fuel source := by
        rw [hlast]
        exact List.mem_append_right _ q.mem_visits_self
      obtain ⟨n, hq⟩ := hvisits.1 hq
      exact absurd hrefuses (haccepted n q hq refusal)
    · obtain rfl := hstops.eq_of_refuses (hvisits.2 ⟨n, hq'⟩) hrefuses'
      obtain rfl := hrefuses.unique hrefuses'
      exact ⟨after, hlimited, hstops, more, hmore⟩

/-- The sink is full after one line and one character more, and the second print is made
in a function that an initializer calls. -/
theorem run_truncated_by_sink_initializer :
    let s := Session.initial { Sink.upToLines 1 with spare := 1 } fun _ => 0
    let source := "fun f(a) \x7b print a; while (true) \x7b print a + \"b\"; return; \x7d \x7d
      class A \x7b init() \x7b f(\"a\"); print \"c\"; \x7d \x7d A(); print \"d\";"
    Program.staticErrors source = [] ∧
      ∃ n q refusal after, s.Reaches 20 source n q ∧ q.Refuses refusal ∧
        Session.run 20 source s = .ok () after ∧ s.StopsAt 20 source q refusal after ∧
        after.machine.sink.accepted = "a\na" ∧
        ∃ more, "a\nab\nc\nd\n" = refusal.printed ++ refusal.text ++ more := by
  intro s source
  obtain ⟨hstatic, hfinished, haccepted, hfull⟩ :
      Program.staticErrors source = [] ∧ (Session.finished? (Session.run 20 source s)).isSome ∧
      (Session.sessionAfter (Session.run 20 source s)).machine.sink.accepted = "a\na" ∧
      (Session.sessionAfter (Session.run 30 source s.unlimited)).machine.sink.accepted =
        "a\nab\nc\nd\n" := by
    decide +kernel
  obtain ⟨-, hsame, hstops⟩ := run_truncated_by_sink (.initial _ _) hstatic
    (show 20 ≤ 30 by decide) (Session.ne_exhausted_of_finished? hfinished)
  -- The two runs print different texts, so something was refused.
  have hsome : ¬∀ n p, s.Reaches 20 source n p → p.Accepted := by
    intro hall
    rw [hsame hall, Session.accepted_onEnd, haccepted] at hfull
    exact absurd hfull (by decide)
  simp only [Point.Accepted, not_forall, not_not] at hsome
  obtain ⟨n, q, hq, refusal, hrefuses⟩ := hsome
  obtain ⟨after, hrun, hstop, hmore⟩ := hstops n q refusal hq hrefuses
  rw [hrun] at haccepted
  rw [hfull] at hmore
  exact ⟨hstatic, n, q, refusal, after, hq, hrefuses, hrun, hstop, haccepted, hmore⟩

end Lox

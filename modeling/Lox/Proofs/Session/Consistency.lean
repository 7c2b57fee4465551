import Lox.Proofs.Lexical.Agreement
import Lox.Proofs.Session
import Lox.Session.Dialogue

/-!
# Sessions are never at fault

Between the sources of a session, its machine corresponds to one that runs by
lexical scope, and every identity that was handed out has the distance that its
place asks for. A run keeps this, whichever way it ends, so whatever is run or
asked for later, no distance disagrees with the frames it is used on. The one
shape of program that is left out is a local variable that its own initializer
assigns to.
-/

namespace Lox

open Grammar Layout

/-! ### Growing tables -/

/-- One table has what another has. -/
def Table.Within (table table' : Table) : Prop :=
  table.bound ≤ table'.bound ∧
    ∀ id, id < table.bound → table'.distances[id]? = table.distances[id]?

section Tables

variable {table table' : Table} {w : Layout}

/-- What a table has, a greater one has as well. -/
theorem Known.Within.trans {K : Known} (hK : K.Within table) (ht : table.Within table') :
    K.Within table' := by
  intro id d hd
  obtain ⟨hid, hlookup⟩ := hK id d hd
  exact ⟨Nat.lt_of_lt_of_le hid ht.1, (ht.2 id hid).trans hlookup⟩

/-- Functions that correspond do so under every greater table: their bodies are resolved
as before. -/
theorem FunctionRel.within (ht : table.Within table') {c : Closure} {d : Closure Locals}
    (h : FunctionRel table w c d) : FunctionRel table' w c d := by
  obtain ⟨K, Γ, b, hK, hcovers, hbody, hthis⟩ := h.resolved
  exact ⟨h.decl, h.isInitializer, K, Γ, b, hK.trans ht, hcovers, hbody, hthis⟩

/-- Methods that correspond do so under every greater table. -/
theorem MethodRel.within (ht : table.Within table') {c : Closure} {d : Closure Locals}
    (h : MethodRel table w c d) : MethodRel table' w c d := by
  obtain ⟨K, Γ, b, hK, hcovers, hbody⟩ := h.resolved
  exact ⟨h.decl, h.isInitializer, K, Γ, b, hK.trans ht, hcovers, hbody⟩

/-- Values that correspond do so under every greater table. -/
theorem ValueRel.within (ht : table.Within table') {v : Value} {v' : Value Locals}
    (h : ValueRel table w v v') : ValueRel table' w v v' :=
  h.mono (fun _ _ => FunctionRel.within ht) fun _ _ => MethodRel.within ht

/-- Machines stay related when more distances are recorded. -/
theorem Related.within {m : Machine} {l : LexicalMachine} (h : Related table w m l)
    (ht : table.Within table') :
    Related table' w { m with distances := table'.distances } l where
  frames := h.frames
  cells := h.cells
  positive := h.positive
  globals := h.globals.mono fun _ _ => ValueRel.within ht
  locals := fun hc => by
    obtain ⟨v, v', hv, hv', hvv⟩ := h.locals hc
    exact ⟨v, v', hv, hv', hvv.within ht⟩
  supers := h.supers
  fields := h.fields.imp fun _ _ hb => hb.mono fun _ _ => ValueRel.within ht
  nextId := h.nextId
  calls := h.calls
  sink := h.sink
  clock := h.clock
  distances := rfl

/-- The two machines that nothing was run on are related: both have the native functions
as globals and nothing else. -/
theorem related_initial (sink : Sink) (clock : Nat → Float) :
    Related ⟨0, ∅⟩ Layout.initial (Machine.initial sink clock)
      (LexicalMachine.initial sink clock) where
  frames := rfl
  cells := rfl
  positive := Nat.one_pos
  globals := .cons ⟨rfl, .native 0 .clock⟩ .nil
  locals := nofun
  supers := nofun
  fields := .nil
  nextId := rfl
  calls := rfl
  sink := rfl
  clock := rfl
  distances := rfl

end Tables

namespace Session

/-! ### The invariant -/

/-- The distances of the identities handed out so far. -/
def table (session : Session) : Table := ⟨session.nextId, session.machine.distances⟩

/-- A session between two sources: its machine corresponds to one that runs by
lexical scope, and nothing is recorded for identities to come. -/
structure Consistent (session : Session) : Prop where
  /-- No block and no call is in progress. -/
  env : session.machine.env = globalEnv
  /-- Nothing is recorded for identities to come. -/
  fresh : ∀ id, session.nextId ≤ id → session.machine.distances[id]? = none
  /-- Its machine corresponds to one that runs by lexical scope. -/
  related : ∃ w l, Related session.table w session.machine l

variable {session : Session} {source : String}

/-- A session before its first source is consistent. -/
theorem consistent_initial (sink : Sink) (clock : Nat → Float) :
    (initial sink clock).Consistent :=
  ⟨rfl, fun _ _ => rfl, _, _, related_initial sink clock⟩

/-- Only the machine and the next identity matter. -/
theorem Consistent.congr (h : session.Consistent) {after : Session}
    (hmachine : after.machine = session.machine) (hid : after.nextId = session.nextId) :
    after.Consistent := by
  have htable : after.table = session.table := by
    unfold table
    rw [hmachine, hid]
  obtain ⟨w, l, hrel⟩ := h.related
  refine ⟨hmachine ▸ h.env, ?_, w, l, ?_⟩
  · rw [hmachine, hid]
    exact h.fresh
  · rw [htable, hmachine]
    exact hrel

/-- Distances of new identities are recorded. -/
theorem Consistent.record (h : session.Consistent) {found : List (Nat × Nat)} {m : Nat}
    (hle : session.nextId ≤ m) (hfound : Within session.nextId m found) :
    Consistent { session with nextId := m, machine := session.machine.recordDistances found } := by
  have hold : ∀ id, id < session.nextId ∨ m ≤ id →
      (session.machine.recordDistances found).distances[id]? =
        session.machine.distances[id]? :=
    fun id hid => Machine.recordDistances_of_outside hfound hid
  obtain ⟨w, l, hrel⟩ := h.related
  refine ⟨h.env, fun id hid => ?_, w, l, hrel.within ⟨hle, fun id hid => hold id (.inl hid)⟩⟩
  rw [hold id (.inr hid)]
  exact h.fresh id (Nat.le_trans hle hid)

/-! ### Sources -/

/-- What is known of the references of a source that was read. -/
def known (session : Session) : Known :=
  fun id d => id < session.nextId ∧ session.machine.distances[id]? = d

/-- What was found for a source is what is known of its references. -/
theorem agrees_resolved (h : session.Consistent)
    (hfound : Within session.nextId (session.resolved source).nextId
      (resolveProgram (Program.ofSource source session.nextId).statements).distances) :
    Agrees (session.resolved source).known session.nextId (session.resolved source).nextId
      (resolveProgram (Program.ofSource source session.nextId).statements).distances where
  found := fun id d hd =>
    ⟨(hfound.range _ hd).2, Machine.recordDistances_of_mem hfound.distinct hd⟩
  missing := fun id hn hm hd => by
    refine ⟨hm, (Machine.recordDistances_of_notMem fun hmem => ?_).trans (h.fresh id hn)⟩
    obtain ⟨p, hp, rfl⟩ := List.mem_map.1 hmem
    exact hd p.2 hp

/-- A program without static errors is resolved by what is known once it was
read, unless an initializer assigns to its own variable. -/
theorem resolvedList_resolved (h : session.Consistent)
    (hread : (Program.ofSource source session.nextId).diagnostics = [])
    (hresolve : (resolveProgram (Program.ofSource source session.nextId).statements).errors = [])
    (hinit : Program.assignsOwnInitializer source = false) :
    Stmt.ResolvedList (session.resolved source).known .top
      (Program.ofSource source session.nextId).statements := by
  obtain ⟨ts, hs, hderives⟩ := Program.derives_of_diagnostics hread
  have hfits : Fits false .top := ⟨Context.inClass_top, fun _ => rfl⟩
  have hassigns := (Program.assignsOwnInitializer_eq hread).trans hinit
  have hagrees := agrees_resolved h (hderives.within.2 .top)
  exact hderives.sound hs.plainNames _ .top false hfits hassigns hresolve hagrees

/-- What was found for a source is recorded for new identities, so the session stays
consistent. -/
theorem Consistent.resolved (h : session.Consistent)
    (hread : (Program.ofSource source session.nextId).diagnostics = []) :
    (session.resolved source).Consistent := by
  obtain ⟨ts, -, hderives⟩ := Program.derives_of_diagnostics hread
  exact h.record hderives.within.1 (hderives.within.2 .top)

/-! ### Runs and dialogues -/

/-- A step that leaves a consistent session behind or used up its bound. -/
def Sound {α : Type} : EStateM.Result Abort Session α → Prop
  | .ok _ after => after.Consistent
  | .error abort _ => abort = .exhausted

/-- Statements that were resolved leave a consistent session behind, whether they end well
or in an error. -/
theorem Consistent.execute (h : session.Consistent) {ss : List Stmt}
    (hss : Stmt.ResolvedList session.known .top ss) (fuel : Nat) :
    Sound (Session.execute fuel ss session) := by
  obtain ⟨w, l, hrel⟩ := h.related
  have hknown : session.known.Within session.table := fun _ _ hd => hd
  have hkeep : ∀ after : Session, after.nextId = session.nextId →
      after.machine.env = globalEnv → (∃ w' l', Related session.table w' after.machine l') →
      after.Consistent := by
    intro after hid henv hafter
    obtain ⟨w', l', hrel'⟩ := hafter
    have htable : after.table = session.table := by
      unfold table
      rw [hid, hrel'.distances]
      rfl
    refine ⟨henv, ?_, w', l', htable ▸ hrel'⟩
    rw [hid, hrel'.distances]
    exact h.fresh
  unfold Session.execute
  rcases executeProgram_agrees hrel h.env hknown (Nat.le_refl fuel) hss with
    ⟨m', hm⟩ | ⟨m', l', ⟨w', hrel'⟩, henv', ⟨hm, -⟩ | ⟨e, hm, -⟩⟩
  · rw [hm]
    rfl
  · rw [hm]
    exact hkeep _ rfl henv' ⟨w', l', hrel'⟩
  · rw [hm]
    exact hkeep _ rfl henv' ⟨w', l', hrel'⟩

/-- A run keeps a session consistent. -/
theorem Consistent.run (h : session.Consistent)
    (hinit : Program.assignsOwnInitializer source = false) (fuel : Nat) :
    Sound (Session.run fuel source session) := by
  rcases run_cases fuel source session with
    ⟨after, hrun, hmachine, hid⟩ | ⟨hread, ⟨after, hrun, hmachine, hid⟩ | ⟨hresolve, hrun⟩⟩
  · rw [hrun]
    have hnone := h.record (Program.le_nextId source session.nextId) (.nil _ _)
    exact hnone.congr hmachine hid
  · rw [hrun]
    exact (h.resolved hread).congr hmachine hid
  · rw [hrun]
    exact (h.resolved hread).execute (resolvedList_resolved h hread hresolve hinit) fuel

/-- The machine without the text printed so far. -/
theorem Consistent.takeOutput (h : session.Consistent) : session.takeOutput.2.Consistent := by
  obtain ⟨w, l, hrel⟩ := h.related
  refine ⟨h.env, h.fresh, w, { l with sink := { l.sink with accepted := "" } }, ?_⟩
  exact { hrel with sink := congrArg (fun sink => { sink with accepted := "" }) hrel.sink }

/-- An answer leaves a consistent session behind. -/
theorem Consistent.answer (h : session.Consistent)
    (hinit : Program.assignsOwnInitializer source = false) (fuel : Nat) :
    Sound (Session.answer fuel source session) := by
  have hrun := h.run hinit fuel
  unfold Session.answer
  rw [bind_apply]
  revert hrun
  cases Session.run fuel source session with
  | error abort after => exact fun hrun => hrun
  | ok _ after =>
    intro hrun
    have htaken : after.takeDiagnostics.2.Consistent := hrun.congr rfl rfl
    exact htaken.takeOutput.congr rfl rfl

/-- A dialogue keeps a session consistent, unless a line used up its bound. -/
theorem Consistent.converse (h : session.Consistent) {lines : List Line}
    (hinit : ∀ line, some line ∈ lines → Program.assignsOwnInitializer line = false)
    (fuel : Nat) :
    (session.converse fuel lines).ending = .aborted .exhausted ∨
      (∀ abort, (session.converse fuel lines).ending ≠ .aborted abort) ∧
        (session.converse fuel lines).session.Consistent := by
  induction lines generalizing session with
  | nil => exact .inr ⟨nofun, h⟩
  | cons line rest ih =>
    cases line with
    | none => exact .inr ⟨nofun, h⟩
    | some line =>
      rw [Session.converse]
      by_cases hempty : line.isEmpty = true
      · rw [if_pos hempty]
        exact .inr ⟨nofun, h⟩
      · rw [if_neg hempty]
        have hanswer := h.answer (hinit line (.head _)) fuel
        revert hanswer
        cases Session.answer fuel line session with
        | error abort after =>
          intro hanswer
          exact .inl (congrArg Ending.aborted hanswer)
        | ok turn after =>
          intro hanswer
          exact ih hanswer fun line hline => hinit line (.tail _ hline)

end Session

/-! ### Whatever is done with a session -/

/-- What can be done with a session: a source is run, or lines are asked for. -/
inductive Action where
  /-- A source is run. -/
  | run (fuel : Nat) (source : String)
  /-- Lines are asked for. -/
  | prompt (fuel : Nat) (lines : List Line)

namespace Action

/-- The sources that are run. -/
def sources : Action → List String
  | run _ source => [source]
  | prompt _ lines => lines.filterMap id

/-- Does what there is to do, once. -/
def perform : Action → Session.Step Unit
  | run fuel source => Session.run fuel source
  | prompt fuel lines => fun session =>
    let dialogue := session.converse fuel lines
    match dialogue.ending with
    | .aborted abort => .error abort dialogue.session
    | _ => .ok () dialogue.session

/-- Does one thing after the other, until the session cannot go on. -/
def performAll : List Action → Session.Step Unit
  | [] => return ()
  | action :: rest => do
    action.perform
    performAll rest

/-- Whatever is done with a consistent session leaves it consistent. -/
theorem sound_perform {session : Session} (h : session.Consistent) {action : Action}
    (hinit : ∀ source ∈ action.sources, Program.assignsOwnInitializer source = false) :
    Session.Sound (action.perform session) := by
  cases action with
  | run fuel source => exact h.run (hinit source (.head _)) fuel
  | prompt fuel lines =>
    have hlines : ∀ line, some line ∈ lines → Program.assignsOwnInitializer line = false :=
      fun line hline => hinit line (List.mem_filterMap.2 ⟨some line, hline, rfl⟩)
    have hdialogue := h.converse hlines fuel
    unfold perform
    dsimp only
    cases hending : (session.converse fuel lines).ending with
    | aborted abort =>
      rw [hending] at hdialogue
      rcases hdialogue with hexhausted | hother
      · cases hexhausted
        rfl
      · exact absurd rfl (hother.1 abort)
    | finished =>
      rw [hending] at hdialogue
      rcases hdialogue with hexhausted | hother
      · cases hexhausted
      · exact hother.2
    | unreadable =>
      rw [hending] at hdialogue
      rcases hdialogue with hexhausted | hother
      · cases hexhausted
      · exact hother.2

/-- Whatever is done, one thing after the other, leaves a consistent session consistent. -/
theorem sound_performAll {session : Session} (h : session.Consistent) {actions : List Action}
    (hinit : ∀ action ∈ actions, ∀ source ∈ action.sources,
      Program.assignsOwnInitializer source = false) :
    Session.Sound (performAll actions session) := by
  induction actions generalizing session with
  | nil => exact h
  | cons action rest ih =>
    have hfirst := sound_perform h (hinit action (.head _))
    rw [performAll, bind_apply]
    revert hfirst
    cases action.perform session with
    | error abort after => exact fun hfirst => hfirst
    | ok _ after => exact fun hfirst => ih hfirst fun a ha => hinit a (.tail _ ha)

/-- Whatever is run and asked for in a session, it never comes to a fault: every
distance leads to a frame that has the name, `super` has a distance, a class and
an object inside, and an initializer finds its object. Local variables must not
be assigned to by their own initializers. -/
theorem performAll_never_faults (sink : Sink) (clock : Nat → Float) (actions : List Action)
    (hinit : ∀ action ∈ actions, ∀ source ∈ action.sources,
      Program.assignsOwnInitializer source = false) (fault : Fault) (after : Session) :
    performAll actions (Session.initial sink clock) ≠ .error (.fault fault) after := by
  intro hfault
  have hsound := sound_performAll (Session.consistent_initial sink clock) hinit
  rw [hfault] at hsound
  cases hsound

/-- A class with a superclass is declared, then used line by line, with errors in
between, and used once more. -/
theorem performAll_never_faults_inheritance :
    let actions :=
      [run 40 "class A \x7b m() \x7b return 1; \x7d \x7d
          class B < A \x7b m() \x7b return super.m(); \x7d \x7d",
        prompt 40 [some "\x7b var b = B(); fun f() \x7b return b.m(); \x7d print f(); \x7d",
          some "return 1;", some "print nothing;"],
        run 40 "for (var i = 0; i < 2; i = i + 1) print B().m();"]
    (∀ action ∈ actions, ∀ source ∈ action.sources,
      Program.assignsOwnInitializer source = false) ∧
    ¬∃ fault after,
      performAll actions (Session.initial .unbounded fun _ => 0) = .error (.fault fault) after := by
  intro actions
  have hinit : ∀ action ∈ actions, ∀ source ∈ action.sources,
      Program.assignsOwnInitializer source = false := by
    decide +kernel
  refine ⟨hinit, fun h => ?_⟩
  obtain ⟨fault, after, hfault⟩ := h
  exact performAll_never_faults .unbounded (fun _ => 0) actions hinit fault after hfault

-- The shape that is left out does come to a fault.
example : (match Session.run 9 "\x7b var a = (a = 1); \x7d" (.initial .unbounded fun _ => 0) with
    | .error (.fault fault) _ => some fault
    | _ => none) = some (.missingBinding "a") := by
  decide +kernel

end Action

end Lox

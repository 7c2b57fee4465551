import Lox.Proofs.Course.Bodies
import Lox.Proofs.Session.Truncation

/-!
# The chronicle of a session

The moments of all runs of a session, one run after the other. Together they are one
course, from the machine before the first source to the machine of the session: no
source changes the distances of another, and the parts of a source that is executed
are anchored once its distances are recorded.
-/

namespace Lox

variable {begun : Point → Prop}

/-! ### Programs -/

/-- The moments of the statements of a program. -/
def momentsProgram (fuel : Nat) : List Stmt → Machine → List Moment
  | [], _ => []
  | s :: rest, m =>
    momentsExecute fuel s m ++
      momentsAfter (Eval.execute fuel s m) fun _ => momentsProgram fuel rest

/-- The moments of a program are those of its first statement and, behind it, those of the
others. -/
theorem momentsProgram_cons {fuel : Nat} {s : Stmt} {rest : List Stmt} {m m' : Machine}
    {flow : Flow} (h : Eval.execute fuel s m = .ok flow m') :
    momentsProgram fuel (s :: rest) m =
      Point.moments ⟨fuel, .execute s, m⟩ ++ momentsProgram fuel rest m' := by
  rw [momentsProgram, h]
  rfl

/-- The statements of an anchored program run as a course. -/
theorem runs_executeProgram (fuel : Nat) {ss : List Stmt} {m₀ : Machine}
    (hss : Stmt.AnchoredList m₀.distances [] ss) :
    Runs begun m₀ Unsaid (Eval.executeProgram fuel ss) (momentsProgram fuel ss) := by
  induction ss generalizing m₀ with
  | nil => exact .pure fun _ _ => trivial
  | cons s rest ih =>
    obtain ⟨hfirst, hrest⟩ := hss.cons
    exact ((runs_task fuel).2 s m₀ [] hfirst).bind
      fun m₁ _ hm₁ _ => ih (hrest.later hm₁.distances)

/-- Every task in the moments of a program is done in one piece. -/
theorem whole_momentsProgram (fuel : Nat) (ss : List Stmt) (m : Machine) :
    Whole (momentsProgram fuel ss m) := by
  induction ss generalizing m with
  | nil => exact closed_whole.nil
  | cons s rest ih =>
    exact ((closed_whole.task fuel).2 s m).append (closed_whole.after fun _ => ih)

/-- What is begun among the moments of a program are the points that its statements come to. -/
theorem begunIn_momentsProgram (fuel : Nat) (ss : List Stmt) (m : Machine) :
    begunIn (momentsProgram fuel ss m) = visitsProgram fuel ss m := by
  induction ss generalizing m with
  | nil => rfl
  | cons s rest ih =>
    rw [momentsProgram, begunIn_append, (begunIn_task fuel).2, begunIn_after fun _ => ih]
    rfl

/-- Where nothing is reported, nothing is against the rules. -/
theorem Reports.right_of_nil {os : List Occurrence} (h : Reports os []) :
    ∀ o ∈ os, ∀ error, ¬o.Wrong error := by
  induction os with
  | nil => nofun
  | cons o rest ih =>
    cases h with
    | right hright later => exact List.forall_mem_cons.2 ⟨hright, ih later⟩

/-- Before the first source there is one value, a native function. -/
theorem Machine.placed_initial (sink : Sink) (clock : Nat → Float) :
    (Machine.initial sink clock).Placed begun := by
  refine ⟨fun i x v hv => ?_, nofun⟩
  cases i with
  | zero =>
    change Bindings.get? [(Native.clock.name, .native 0 .clock)] x = some v at hv
    unfold Bindings.get? at hv
    split at hv
    · cases hv
      trivial
    · cases hv
  | succ i => cases hv

namespace Session

variable {session after : Session} {fuel : Nat} {source : String}

/-- The moments of the run of a source. A source with static errors, or one that is
read while such errors are remembered, is not executed. -/
def moments (session : Session) (fuel : Nat) (source : String) : List Moment :=
  let program := Program.ofSource source session.nextId
  if session.hadError || !program.diagnostics.isEmpty ||
      !(resolveProgram program.statements).errors.isEmpty then []
  else momentsProgram fuel program.statements (session.resolved source).machine

/-- The sessions that can come about, each with the moments of its runs. -/
inductive Chronicle : Session → List Moment → Prop where
  /-- Nothing has happened before the first source. -/
  | initial (sink : Sink) (clock : Nat → Float) : Chronicle (initial sink clock) []
  /-- A run that comes to an end adds its moments. -/
  | run {session after : Session} {past : List Moment} {fuel : Nat} {source : String}
      (h : Chronicle session past) (hrun : Session.run fuel source session = .ok () after) :
      Chronicle after (past ++ session.moments fuel source)
  /-- The diagnostics are taken. -/
  | takeDiagnostics {session : Session} {past : List Moment} (h : Chronicle session past) :
      Chronicle session.takeDiagnostics.2 past
  /-- The output is taken. -/
  | takeOutput {session : Session} {past : List Moment} (h : Chronicle session past) :
      Chronicle session.takeOutput.2 past
  /-- The static errors are forgotten. -/
  | forgetErrors {session : Session} {past : List Moment} (h : Chronicle session past) :
      Chronicle session.forgetErrors past

/-- A session that has a chronicle can come about. -/
theorem Chronicle.reachable {past : List Moment} (h : session.Chronicle past) :
    session.Reachable := by
  induction h with
  | initial sink clock => exact .initial sink clock
  | run _ hrun ih => exact ih.run hrun
  | takeDiagnostics _ ih => exact ih.takeDiagnostics
  | takeOutput _ ih => exact ih.takeOutput
  | forgetErrors _ ih => exact ih.forgetErrors

/-- A source without static errors has the moments of its program. -/
theorem moments_of_clean (session : Session) (fuel : Nat) (herror : session.hadError = false)
    (hread : (Program.ofSource source session.nextId).diagnostics = [])
    (hresolve : (resolveProgram (Program.ofSource source session.nextId).statements).errors = []) :
    session.moments fuel source = momentsProgram fuel
      (Program.ofSource source session.nextId).statements (session.resolved source).machine := by
  simp [moments, herror, hread, hresolve]

/-- Every session that can come about has a chronicle. -/
theorem Reachable.chronicle (h : session.Reachable) : ∃ past, session.Chronicle past := by
  induction h with
  | initial sink clock => exact ⟨[], .initial sink clock⟩
  | run _ hrun ih => exact ih.imp' _ fun _ hpast => hpast.run hrun
  | takeDiagnostics _ ih => exact ih.imp fun _ hpast => hpast.takeDiagnostics
  | takeOutput _ ih => exact ih.imp fun _ hpast => hpast.takeOutput
  | forgetErrors _ ih => exact ih.imp fun _ hpast => hpast.forgetErrors

/-! ### The distances of a source -/

/-- More distances are recorded, and nothing else is done. -/
theorem Reachable.follows (h : session.Reachable)
    (hread : (Program.ofSource source session.nextId).diagnostics = []) :
    Machine.Follows [] session.machine (session.resolved source).machine := by
  refine .of_fields ⟨fun id d hd => ?_, Nat.le_refl _, Nat.le_refl _, Nat.le_refl _,
    fun _ _ _ _ => rfl⟩ fun _ _ => rfl
  by_cases hid : id < session.nextId
  · rw [resolved, Machine.recordDistances_of_outside (Program.within hread) (.inl hid)]
    exact hd
  · rw [h.fresh id (Nat.le_of_not_lt hid)] at hd
    cases hd

/-- A source without static errors is anchored once it was read and resolved. -/
theorem Reachable.anchored (h : session.Reachable)
    (hread : (Program.ofSource source session.nextId).diagnostics = [])
    (hresolve : (resolveProgram (Program.ofSource source session.nextId).statements).errors = []) :
    Stmt.AnchoredList (session.resolved source).machine.distances []
      (Program.ofSource source session.nextId).statements := by
  have hdescribes := describes_resolveProgram (Program.ofSource source session.nextId).statements
  have hhanded := Program.handed source session.nextId
  have hperm := Stmt.referencesList_perm [] (Program.ofSource source session.nextId).statements
  have htame := Stmt.tameList Surroundings.plain_top _ (Program.proper source session.nextId)
  have hreports := hdescribes.errors
  rw [hresolve] at hreports
  refine ⟨Program.plain_of_diagnostics hread, fun o ho =>
    ⟨hreports.right_of_nil o ho, (htame o ho).plain, fun r d hr hbinds => ?_⟩⟩
  obtain ⟨around, site⟩ := o
  cases site with
  | reference r' =>
    cases hr
    have hids : (Reference.ids (Occurrence.uses (Stmt.occurrencesList []
        (Program.ofSource source session.nextId).statements))).Nodup :=
      (hperm.map _).nodup_iff.2 hhanded.distinct
    have hmem : r ∈ Stmt.referencesList (Program.ofSource source session.nextId).statements :=
      hperm.subset (List.mem_filterMap.2 ⟨_, ho, rfl⟩)
    have hnew := h.fresh r.ref.id (hhanded.range r hmem).1
    have hrecorded := recordDistances_located hids ho (r := r) rfl hnew
    rw [← hdescribes.distances] at hrecorded
    refine hrecorded.trans ?_
    rw [(htame _ ho).located, Surroundings.findIdx?_eq_some.2 hbinds]
    rfl
  | _ => cases hr

/-! ### Runs -/

/-- The moments of a run, and the machine that it leaves. -/
theorem moments_cases (fuel : Nat) (source : String) (session : Session) :
    (session.moments fuel source = [] ∧ ∀ after, run fuel source session = .ok () after →
      after.machine = session.machine ∨
        (Program.ofSource source session.nextId).diagnostics = [] ∧
          after.machine = (session.resolved source).machine) ∨
    ((Program.ofSource source session.nextId).diagnostics = [] ∧
      (resolveProgram (Program.ofSource source session.nextId).statements).errors = [] ∧
      session.moments fuel source = momentsProgram fuel
        (Program.ofSource source session.nextId).statements (session.resolved source).machine ∧
      ∀ after, run fuel source session = .ok () after →
        after.machine = machineAfter (Eval.executeProgram fuel
          (Program.ofSource source session.nextId).statements
          (session.resolved source).machine)) := by
  by_cases herror : session.hadError = true ∨
      (Program.ofSource source session.nextId).diagnostics ≠ []
  · refine .inl ⟨?_, fun after hrun => .inl ?_⟩
    · unfold moments
      rcases herror with herror | herror
      · simp [herror]
      · simp [herror]
    · rw [run_of_error fuel source session herror] at hrun
      cases hrun
      simp [read, reportAll_eq]
  · rw [not_or, not_not, Bool.not_eq_true] at herror
    by_cases hresolve :
        (resolveProgram (Program.ofSource source session.nextId).statements).errors = []
    · refine .inr ⟨herror.2, hresolve, ?_, fun after hrun => ?_⟩
      · exact moments_of_clean _ fuel herror.1 herror.2 hresolve
      · rw [run_of_clean fuel source session herror.1 herror.2 hresolve] at hrun
        exact machine_of_execute hrun
    · refine .inl ⟨?_, fun after hrun => .inr ⟨herror.2, ?_⟩⟩
      · simp [moments, hresolve]
      · rw [run_of_scopeError fuel source session herror.1 herror.2 hresolve] at hrun
        cases hrun
        simp [reportAll_eq]

/-- The moments of a run are a course from the machine of the session, also if the run
does not come to an end. -/
theorem Reachable.course (h : session.Reachable) (hplaced : session.machine.Placed begun)
    (fuel : Nat) (source : String)
    (hbegun : ∀ q ∈ begunIn (session.moments fuel source), begun q) :
    (∃ m, Course begun session.machine (session.moments fuel source) m) ∧
      ∀ after, Session.run fuel source session = .ok () after →
        Course begun session.machine (session.moments fuel source) after.machine := by
  have hresolved : ∀ {m : Machine}, Machine.Follows [] session.machine m →
      m.store = session.machine.store → m.Placed begun := by
    intro m hfollows hstore
    refine hplaced.later hfollows.toGrows ?_ ?_
    all_goals
      rw [hstore]
      exact fun _ _ _ hv => .inl hv
  rcases moments_cases fuel source session with
    ⟨hmoments, hafter⟩ | ⟨hread, hresolve, hmoments, hafter⟩
  · rw [hmoments]
    refine ⟨⟨_, .still (.refl _) hplaced⟩, fun after hrun => ?_⟩
    rcases hafter after hrun with hmachine | ⟨hread, hmachine⟩
    · rw [hmachine]
      exact .still (.refl _) hplaced
    · rw [hmachine]
      exact .still (h.follows hread) (hresolved (h.follows hread) rfl)
  · rw [hmoments] at hbegun ⊢
    obtain ⟨hcourse, -⟩ := runs_executeProgram fuel (h.anchored hread hresolve) _ (.refl _)
      (hresolved (h.follows hread) rfl) hbegun
    refine ⟨⟨_, hcourse.precede (h.follows hread)⟩, fun after hrun => ?_⟩
    rw [hafter after hrun]
    exact hcourse.precede (h.follows hread)

/-- The chronicle of a session is a course to its machine. -/
theorem Chronicle.course {past : List Moment} (h : session.Chronicle past)
    (hbegun : ∀ q ∈ begunIn past, begun q) :
    ∃ sink clock, Course begun (Machine.initial sink clock) past session.machine := by
  induction h with
  | initial sink clock =>
    exact ⟨sink, clock, .still (.refl _) (Machine.placed_initial sink clock)⟩
  | @run session after past fuel source h hrun ih =>
    rw [begunIn_append, List.forall_mem_append] at hbegun
    obtain ⟨sink, clock, hpast⟩ := ih hbegun.1
    have hcourse := (h.reachable.course hpast.placed fuel source hbegun.2).2 after hrun
    exact ⟨sink, clock, hpast.append hcourse⟩
  | takeDiagnostics _ ih => exact ih hbegun
  | takeOutput _ ih =>
    obtain ⟨sink, clock, hpast⟩ := ih hbegun
    exact ⟨sink, clock, hpast.proceed (.congr rfl rfl) (hpast.placed.congr rfl rfl)⟩
  | forgetErrors _ ih => exact ih hbegun

/-- So is the chronicle together with a run that need not come to an end. -/
theorem Chronicle.course_run {past : List Moment} (h : session.Chronicle past) (fuel : Nat)
    (source : String) : ∃ sink clock m,
      Course (fun q => .begins q ∈ past ++ session.moments fuel source)
        (Machine.initial sink clock) (past ++ session.moments fuel source) m := by
  obtain ⟨sink, clock, hpast⟩ :=
    h.course fun q hq => List.mem_append_left _ (mem_begunIn.1 hq)
  obtain ⟨⟨m, hrun⟩, -⟩ := h.reachable.course hpast.placed fuel source
    fun q hq => List.mem_append_right _ (mem_begunIn.1 hq)
  exact ⟨sink, clock, m, hpast.append hrun⟩

/-! ### The tasks of a chronicle -/

/-- Every task in the moments of a run is done in one piece. -/
theorem whole_moments (session : Session) (fuel : Nat) (source : String) :
    Whole (session.moments fuel source) := by
  unfold moments
  dsimp only
  split
  · exact closed_whole.nil
  · exact whole_momentsProgram _ _ _

/-- Every task of a chronicle is done in one piece. -/
theorem Chronicle.whole {past : List Moment} (h : session.Chronicle past) : Whole past := by
  induction h with
  | initial sink clock => exact closed_whole.nil
  | run _ _ ih => exact ih.append (whole_moments _ _ _)
  | takeDiagnostics _ ih => exact ih
  | takeOutput _ ih => exact ih
  | forgetErrors _ ih => exact ih

/-- What a run comes to is begun among its moments. -/
theorem Reaches.begins_mem {n : Nat} {q : Point} (h : session.Reaches fuel source n q) :
    .begins q ∈ session.moments fuel source := by
  obtain ⟨herror, hread, hresolve, hstatements, hbefore, hinside⟩ := id h
  have hvisited := (mem_visits_iff herror hread hresolve).2 ⟨n, h⟩
  rw [visits, ← begunIn_momentsProgram, ← moments_of_clean _ fuel herror hread hresolve] at hvisited
  exact mem_begunIn.1 hvisited

/-- What is begun in a run is inside of a statement of its program. -/
theorem Reachable.rooted (h : session.Reachable) (fuel : Nat) (source : String) :
    Rooted (session.moments fuel source) := by
  intro q hq
  have hclean : session.hadError = false ∧
      (Program.ofSource source session.nextId).diagnostics = [] ∧
      (resolveProgram (Program.ofSource source session.nextId).statements).errors = [] := by
    unfold moments at hq
    dsimp only at hq
    split at hq
    · cases hq
    · rename_i hclean
      simpa [and_assoc] using hclean
  obtain ⟨herror, hread, hresolve⟩ := hclean
  rw [moments_of_clean _ fuel herror hread hresolve, ← mem_begunIn,
    begunIn_momentsProgram] at hq
  obtain @⟨n, before, later, s, m, -, -, -, hstatements, hbefore, hinside⟩ :=
    (mem_visits_iff herror hread hresolve).1 hq
  have hanchored := h.anchored hread hresolve
  have hkept := (keeps_executeProgram fuel before (session.resolved source).machine).distances
  rw [hbefore] at hkept
  rw [hstatements, ← show m.distances = _ from hkept] at hanchored
  have htop : NoClass (Surroundings.startAll [] before) m.env :=
    stable_noClass.startAll (show NoClass [] m.env from rfl) before
  refine ⟨⟨fuel, .execute s, m⟩, n, ⟨_, hanchored.statement, htop⟩, hinside, fun k p hp => ?_⟩
  exact Reaches.begins_mem ⟨herror, hread, hresolve, hstatements, hbefore, hp⟩

/-- What is begun in a chronicle is inside of a statement of one of its programs. -/
theorem Chronicle.rooted {past : List Moment} (h : session.Chronicle past) : Rooted past := by
  induction h with
  | initial sink clock => nofun
  | run h _ ih => exact ih.append (h.reachable.rooted _ _)
  | takeDiagnostics _ ih => exact ih
  | takeOutput _ ih => exact ih
  | forgetErrors _ ih => exact ih

/-- Where a keyword is evaluated, in a chronicle or in one more run, there is a method that
is bound to an object, and its class has a superclass if the keyword asks for one. -/
theorem Chronicle.inBody {past : List Moment} (h : session.Chronicle past) {before : List Moment}
    {q : Point} {later : List Moment}
    (hmoments : past ++ session.moments fuel source = before ++ q.moments ++ later)
    {asks : Bool} (hq : q.task.Keyword asks) :
    ∃ superclass object,
      InBody (past ++ session.moments fuel source) superclass object before q later ∧
        (asks = true → superclass.isSome = true) := by
  obtain ⟨sink, clock, m, hcourse⟩ := h.course_run fuel source
  have hwhole := h.whole.append (session.whole_moments fuel source)
  have hrooted := h.rooted.append (h.reachable.rooted fuel source)
  rw [hmoments] at hcourse hwhole hrooted ⊢
  exact hcourse.inBody_of_keyword (fun _ hp => hp) hwhole hrooted hq

end Session

end Lox

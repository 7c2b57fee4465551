import Lox.Proofs.Session
import Lox.Proofs.Shift.Evaluation

/-!
# Running sources one by one and all at once

Two sources that are run one after the other on one session print and report what
their text does when it is run as one source, with a line break in between. The
first source is executed with the distances of both sources at hand, but no tree
of it has an identity of the second; the second is executed further down.
-/

namespace Lox

open Grammar

/-! ### Programs -/

/-- What is found in two programs is what is found in the first and then in the second,
since both start at the top. -/
theorem resolveProgram_append (ss ss' : List Stmt) :
    resolveProgram (ss ++ ss') = resolveProgram ss ++ resolveProgram ss' := by
  unfold resolveProgram
  induction ss with
  | nil => rfl
  | cons s rest ih =>
    rw [List.cons_append, Stmt.resolveList, Stmt.resolveList, Context.after_top, ih]
    change Findings.mk _ _ = Findings.mk _ _
    rw [Findings.distances_append, Findings.errors_append, ← List.append_assoc,
      ← List.append_assoc]
    rfl

/-- The statements of two programs run one after the other. -/
theorem Eval.executeProgram_append (fuel : Nat) (ss ss' : List Stmt) :
    Eval.executeProgram fuel (ss ++ ss') =
      (do Eval.executeProgram fuel ss; Eval.executeProgram fuel ss') := by
  induction ss with
  | nil => rfl
  | cons s rest ih =>
    rw [List.cons_append, Eval.executeProgram, Eval.executeProgram, ih, bind_assoc]

/-- Distances may be recorded in two steps. -/
theorem Machine.recordDistances_append (machine : Machine) (ds ds' : List (Nat × Nat)) :
    machine.recordDistances (ds ++ ds') =
      (machine.recordDistances ds).recordDistances ds' := by
  unfold recordDistances
  rw [List.foldl_append]

namespace Program

variable {source : String} {n : Nat}

/-- A program that was read is itself, further down by no line. -/
theorem shift_zero (h : (ofSource source n).diagnostics = []) :
    Stmt.shiftList id 0 (ofSource source n).statements = (ofSource source n).statements := by
  obtain ⟨ts, hs, hderives⟩ := derives_of_diagnostics h
  have hmoved := hderives.shift 0 (g := id) fun _ _ => rfl
  have hsame : ts.map (·.shift 0) = ts := List.map_id ts
  rw [hsame] at hmoved
  have hboth := (ofSource_of_derives hs hmoved).symm.trans (ofSource_of_derives hs hderives)
  exact congrArg Program.statements hboth

/-- A source without errors has no identities but those it was given. -/
theorem bound_le (h : (ofSource source n).diagnostics = []) :
    Stmt.boundList (ofSource source n).statements ≤ (ofSource source n).nextId := by
  obtain ⟨ts, hs, hderives⟩ := derives_of_diagnostics h
  exact hderives.bound_le

/-- A source without errors is given distances for its own identities only, one each. -/
theorem within (h : (ofSource source n).diagnostics = []) :
    Within n (ofSource source n).nextId
      (resolveProgram (ofSource source n).statements).distances := by
  obtain ⟨ts, hs, hderives⟩ := derives_of_diagnostics h
  exact hderives.within.2 .top

/-- A source without static errors has none wherever identities start. -/
theorem clean_renumber (hread : (ofSource source 0).diagnostics = [])
    (hresolve : (resolveProgram (ofSource source 0).statements).errors = []) (n : Nat) :
    (ofSource source n).diagnostics = [] ∧
      (resolveProgram (ofSource source n).statements).errors = [] := by
  rw [ofSource_renumber hread n, resolveProgram, Stmt.resolveList_shift]
  refine ⟨rfl, ?_⟩
  change List.map _ (resolveProgram (ofSource source 0).statements).errors = []
  rw [hresolve]
  rfl

end Program

/-! ### Machines -/

/-- Ends of runs that have printed the same and halt alike, but for lines. -/
def SameEnd (offset : Nat) :
    EStateM.Result Halt Machine Unit → EStateM.Result Halt Machine Unit → Prop :=
  Matches (fun _ m _ m' => m'.sink = m.sink)
    fun h m h' m' => (h' = h ∨ h' = h.shift offset) ∧ m'.sink = m.sink

/-- Runs that match end alike when both have printed the same before. -/
theorem Parallel.sameEnd {P : Pairing} {A : Unit → Unit → Prop} {p q : Eval Unit}
    (h : Parallel P A p q) (hearlier : P.earlier = "") {m m' : Machine} (hm : P.Alike m m') :
    SameEnd P.offset (p m) (q m') := by
  refine (h m m' hm).mono (fun _ _ _ _ hok => hok.1.sink_eq hearlier) ?_
  rintro h m h' m' ⟨⟨l, rfl | rfl, rfl⟩, halike⟩
  · exact ⟨.inl h.shift_zero, halike.sink_eq hearlier⟩
  · exact ⟨.inr rfl, halike.sink_eq hearlier⟩

/-- Two runs that end as a third does end alike. -/
theorem SameEnd.trans_symm {offset : Nat} {r r' r'' : EStateM.Result Halt Machine Unit}
    (h : SameEnd offset r r') (h' : SameEnd 0 r'' r')
    (hends : ∀ m, r'' ≠ .error .exhausted m) : SameEnd offset r r'' := by
  rcases h'.inversion with ⟨m'', hr''⟩ | ⟨_, m'', _, m', rfl, rfl, hsink'⟩ |
    ⟨e'', m'', e', m', rfl, rfl, he', hsink'⟩
  · exact absurd hr'' (hends m'')
  · rcases h.inversion with ⟨m, rfl⟩ | ⟨_, m, _, _, rfl, hr', hsink⟩ | ⟨_, _, _, _, _, hr', _⟩
    · exact Matches.exhausted m _
    · cases hr'
      exact hsink'.symm.trans hsink
    · cases hr'
  · have hsame : e' = e'' := by
      rw [Halt.shift_zero, or_self] at he'
      exact he'
    subst hsame
    rcases h.inversion with ⟨m, rfl⟩ | ⟨_, _, _, _, _, hr', _⟩ | ⟨e, m, _, _, rfl, hr', he, hsink⟩
    · exact Matches.exhausted m _
    · cases hr'
    · cases hr'
      exact Matches.error ⟨he, hsink'.symm.trans hsink⟩

section Machines

variable {sink : Sink} {clock : Nat → Float} {found found' : List (Nat × Nat)}
  {ss ss' : List Stmt} {fuel fuel' more : Nat}

/-- With a greater bound, a program ends as it did. -/
theorem sameEnd_more (hzero : Stmt.shiftList id 0 ss = ss) (hle : fuel ≤ more) :
    SameEnd 0
      (Eval.executeProgram fuel ss ((Machine.initial sink clock).recordDistances found))
      (Eval.executeProgram more ss ((Machine.initial sink clock).recordDistances found)) := by
  let start := (Machine.initial sink clock).recordDistances found
  let P : Pairing :=
    ⟨Stmt.boundList ss, 0, id, "", start.distances, start.distances, fun _ _ => rfl⟩
  have hstart : P.Alike start start :=
    ⟨Pairing.stores_initial sink clock, rfl, rfl, (Sink.behind_empty sink).symm, rfl, rfl, rfl⟩
  have hrun := P.executeProgram hle (.inl rfl) (Nat.le_refl (Stmt.boundList ss))
  rw [hzero] at hrun
  exact hrun.sameEnd rfl hstart

/-- The identities of a first program have the distances that were found for it,
whatever was found for a second one. -/
theorem distances_of_lt {n m : Nat} (hfound' : Within n m found') (id : Nat) (hid : id < n) :
    ((Machine.initial sink clock).recordDistances (found ++ found')).distances[id]? =
      ((Machine.initial sink clock).recordDistances found).distances[id]? := by
  rw [Machine.recordDistances_append]
  exact Machine.recordDistances_of_outside hfound' (.inl hid)

/-- Two programs one after the other, the second further down, end as the second
does when it is run after the first. -/
theorem sameEnd_append {n n' offset : Nat} (hn : n ≤ n') (hfound' : Within n n' found')
    (hss : Stmt.boundList ss ≤ n) (hzero : Stmt.shiftList id 0 ss = ss)
    (hss' : Stmt.boundList ss' ≤ n') (hle : fuel ≤ more) (hle' : fuel' ≤ more) {m : Machine}
    (hfirst : Eval.executeProgram fuel ss ((Machine.initial sink clock).recordDistances found) =
      .ok () m) :
    SameEnd offset (Eval.executeProgram fuel' ss' (m.recordDistances found'))
      (Eval.executeProgram more (ss ++ Stmt.shiftList id offset ss')
        ((Machine.initial sink clock).recordDistances (found ++ found'))) := by
  let start := (Machine.initial sink clock).recordDistances found
  let both := (Machine.initial sink clock).recordDistances (found ++ found')
  -- While the first program runs, only the distances of the second differ.
  let P : Pairing := ⟨n, 0, id, "", start.distances, both.distances, distances_of_lt hfound'⟩
  have hstart : P.Alike start both :=
    ⟨Pairing.stores_initial sink clock, rfl, rfl, (Sink.behind_empty sink).symm, rfl, rfl, rfl⟩
  have hrun := P.executeProgram hle (.inl rfl) hss
  rw [hzero] at hrun
  have hends := hrun start both hstart
  rw [hfirst] at hends
  rcases hends.inversion with ⟨_, h⟩ | ⟨_, _, _, m', h, hboth, halike, -⟩ | ⟨_, _, _, _, h, _⟩
  · cases h
  · cases h
    -- While the second runs, the distances are the same, and lines differ.
    let Q : Pairing := ⟨n', offset, id, "", both.distances, both.distances, fun _ _ => rfl⟩
    have hrecorded : (m.recordDistances found').distances = both.distances := by
      have hleft : m.distances = start.distances := halike.left
      have hsame : (m.recordDistances found').distances =
          (start.recordDistances found').distances := by
        unfold Machine.recordDistances
        rw [hleft]
      rw [hsame, ← Machine.recordDistances_append]
    have hrename : ∀ id, id < P.bound → P.rename id = Q.rename id := fun _ _ => rfl
    have hmiddle : Q.Alike (m.recordDistances found') m' :=
      ⟨halike.store.mono hn rfl hrename, halike.env, halike.calls, halike.sink, halike.clock,
        hrecorded, halike.right⟩
    have hsecond := (Q.executeProgram hle' (.inr rfl) hss').sameEnd rfl hmiddle
    rw [Eval.executeProgram_append, bind_of_ok hboth]
    exact hsecond
  · cases h

end Machines

/-! ### Sessions that differ in lines -/

/-- A diagnostic further down. -/
def Diagnostic.shift (l : Nat) : Diagnostic → Diagnostic
  | .lexical line cause => .lexical (line + l) cause
  | .grammatical error => .grammatical ⟨error.place.shift l, error.cause⟩
  | .scoping error => .scoping ⟨error.place.shift l, error.cause⟩
  | .runtime error => .runtime ⟨error.line + l, error.cause⟩

/-- Two sessions that have printed and reported the same, but for the lines of
diagnostics, which may be further down by `offset` in the second. -/
structure Session.SameButLines (offset : Nat) (s s' : Session) : Prop where
  /-- The output is the same. -/
  sink : s'.machine.sink = s.machine.sink
  /-- A static error is remembered by both or by none. -/
  hadError : s'.hadError = s.hadError
  /-- A runtime error is remembered by both or by none. -/
  hadRuntimeError : s'.hadRuntimeError = s.hadRuntimeError
  /-- The exit code is the same. -/
  exitCode : s'.exitCode = s.exitCode
  /-- The diagnostics are the same, one by one, but for their lines. -/
  diagnostics : List.Forall₂ (fun d d' => d' = d ∨ d' = d.shift offset) s.pending s'.pending

namespace Session.SameButLines

variable {s s' : Session} {offset : Nat}

/-- Sessions with the same output, the same flags and diagnostics that differ in lines
have the same exit code. -/
theorem of_flags (hsink : s'.machine.sink = s.machine.sink) (herror : s'.hadError = s.hadError)
    (hruntime : s'.hadRuntimeError = s.hadRuntimeError)
    (hpending : List.Forall₂ (fun d d' => d' = d ∨ d' = d.shift offset) s.pending s'.pending) :
    s.SameButLines offset s' :=
  ⟨hsink, herror, hruntime, exitCode_congr herror hruntime, hpending⟩

/-- Reports of one diagnostic, which may be further down in the second session. -/
theorem report (h : s.SameButLines offset s') {d d' : Diagnostic}
    (hd : d' = d ∨ d' = d.shift offset) :
    (s.report d).SameButLines offset (s'.report d') := by
  have hstatic : d'.isStatic = d.isStatic := by
    rcases hd with rfl | rfl
    · rfl
    · cases d <;> rfl
  refine .of_flags h.sink ?_ ?_ (List.rel_append h.diagnostics (.cons hd .nil))
  · change (s'.hadError || d'.isStatic) = (s.hadError || d.isStatic)
    rw [h.hadError, hstatic]
  · change (s'.hadRuntimeError || !d'.isStatic) = (s.hadRuntimeError || !d.isStatic)
    rw [h.hadRuntimeError, hstatic]

end Session.SameButLines

/-- Two runs that end alike, with sessions that differ in lines only. -/
inductive EndsAlike (offset : Nat) :
    EStateM.Result Abort Session Unit → EStateM.Result Abort Session Unit → Prop where
  /-- Both runs come to an end. -/
  | finished {s s' : Session} (h : s.SameButLines offset s') :
      EndsAlike offset (.ok () s) (.ok () s')
  /-- Both runs are at the same fault, but for its line. -/
  | faulted {s s' : Session} {f f' : Fault} (hf : f' = f ∨ f' = f.shift offset)
      (h : s.SameButLines offset s') :
      EndsAlike offset (.error (.fault f) s) (.error (.fault f') s')

namespace Session

variable {s s' : Session} {offset fuel fuel' : Nat} {ss ss' : List Stmt}

/-- An execution that reports nothing has changed the machine only. -/
theorem execute_of_quiet {after : Session} (h : execute fuel ss s = .ok () after)
    (hquiet : after.hadRuntimeError = false) :
    ∃ m, Eval.executeProgram fuel ss s.machine = .ok () m ∧ after = { s with machine := m } := by
  unfold execute at h
  cases hrun : Eval.executeProgram fuel ss s.machine with
  | ok _ m =>
    rw [hrun] at h
    cases h
    exact ⟨m, rfl, rfl⟩
  | error halt m =>
    rw [hrun] at h
    cases halt with
    | error e =>
      cases h
      simp [report, Diagnostic.isStatic] at hquiet
    | fault f => cases h
    | exhausted => cases h

/-- An execution is exhausted if the machine is. -/
theorem execute_of_exhausted {m : Machine}
    (h : Eval.executeProgram fuel ss s.machine = .error .exhausted m) :
    execute fuel ss s = .error .exhausted { s with machine := m } := by
  unfold execute
  rw [h]

/-- Sessions that were the same and whose machines end alike end alike. -/
theorem execute_endsAlike (hpending : s'.pending = s.pending)
    (herror : s'.hadError = s.hadError) (hruntime : s'.hadRuntimeError = s.hadRuntimeError)
    (h : SameEnd offset (Eval.executeProgram fuel ss s.machine)
      (Eval.executeProgram fuel' ss' s'.machine))
    (hends : ∀ after, execute fuel ss s ≠ .error .exhausted after) :
    EndsAlike offset (execute fuel ss s) (execute fuel' ss' s') := by
  have hsame : ∀ m m' : Machine, m'.sink = m.sink →
      SameButLines offset { s with machine := m } { s' with machine := m' } := by
    intro m m' hsink
    refine .of_flags hsink herror hruntime ?_
    rw [hpending]
    exact List.forall₂_same.2 fun _ _ => .inl rfl
  rcases h.inversion with ⟨m, hm⟩ | ⟨_, m, _, m', hm, hm', hsink⟩ |
    ⟨halt, m, halt', m', hm, hm', hhalt, hsink⟩
  · exact absurd (execute_of_exhausted hm) (hends _)
  · unfold execute
    rw [hm, hm']
    exact .finished (hsame m m' hsink)
  · cases halt with
    | exhausted => exact absurd (execute_of_exhausted hm) (hends _)
    | fault f =>
      have hf : ∃ f', halt' = .fault f' ∧ (f' = f ∨ f' = f.shift offset) := by
        rcases hhalt with rfl | rfl
        · exact ⟨f, rfl, .inl rfl⟩
        · exact ⟨_, rfl, .inr rfl⟩
      obtain ⟨f', rfl, hf⟩ := hf
      unfold execute
      rw [hm, hm']
      exact .faulted hf (hsame m m' hsink)
    | error e =>
      have he : ∃ e', halt' = .error e' ∧ (Diagnostic.runtime e' = .runtime e ∨
          Diagnostic.runtime e' = (Diagnostic.runtime e).shift offset) := by
        rcases hhalt with rfl | rfl
        · exact ⟨e, rfl, .inl rfl⟩
        · exact ⟨_, rfl, .inr rfl⟩
      obtain ⟨e', rfl, he⟩ := he
      unfold execute
      rw [hm, hm']
      exact .finished ((hsame m m' hsink).report he)

end Session

/-! ### Two sources -/

section Sources

variable {first second : String} {n : Nat}

/-- The distances that are found in two sources with a line break between them are
those that are found in each. -/
theorem distances_ofSource_append (hread : (Program.ofSource first n).diagnostics = [])
    (hread' : (Program.ofSource second (Program.ofSource first n).nextId).diagnostics = []) :
    (resolveProgram (Program.ofSource (first ++ "\n" ++ second) n).statements).distances =
      (resolveProgram (Program.ofSource first n).statements).distances ++
        (resolveProgram (Program.ofSource second
          (Program.ofSource first n).nextId).statements).distances := by
  rw [Program.ofSource_append hread hread', resolveProgram_append, Findings.distances_append]
  congr 1
  rw [resolveProgram, Stmt.resolveList_shift]
  exact List.map_id _

/-- Two sources without static errors have none with a line break between them. -/
theorem clean_append (hread : (Program.ofSource first n).diagnostics = [])
    (hresolve : (resolveProgram (Program.ofSource first n).statements).errors = [])
    (hread' : (Program.ofSource second (Program.ofSource first n).nextId).diagnostics = [])
    (hresolve' : (resolveProgram (Program.ofSource second
      (Program.ofSource first n).nextId).statements).errors = []) :
    (Program.ofSource (first ++ "\n" ++ second) n).diagnostics = [] ∧
      (resolveProgram (Program.ofSource (first ++ "\n" ++ second) n).statements).errors = [] := by
  rw [Program.ofSource_append hread hread']
  refine ⟨rfl, ?_⟩
  rw [resolveProgram_append, Findings.errors_append, hresolve, resolveProgram,
    Stmt.resolveList_shift]
  change List.map _ (resolveProgram _).errors = []
  rw [hresolve']
  rfl

end Sources

/-- A source that is run after another prints and reports what the two do when they
are run as one, with a line break in between: the output, the flags and the exit
code are the same, and the diagnostics are the same but for their lines. -/
theorem run_second_endsAlike_run_both (sink : Sink) (clock : Nat → Float)
    (first second : String) {fuel fuel' both : Nat} {middle : Session}
    (hread : (Program.ofSource first 0).diagnostics = [])
    (hresolve : (resolveProgram (Program.ofSource first 0).statements).errors = [])
    (hread' : (Program.ofSource second 0).diagnostics = [])
    (hresolve' : (resolveProgram (Program.ofSource second 0).statements).errors = [])
    (hfirst : Session.run fuel first (.initial sink clock) = .ok () middle)
    (hquiet : middle.hadRuntimeError = false)
    (hends : ∀ after, Session.run fuel' second middle ≠ .error .exhausted after)
    (hends' : ∀ after, Session.run both (first ++ "\n" ++ second) (.initial sink clock) ≠
      .error .exhausted after) :
    EndsAlike (lineBreaks first.toList + 1) (Session.run fuel' second middle)
      (Session.run both (first ++ "\n" ++ second) (.initial sink clock)) := by
  -- The first source changes nothing but the machine and the next identity.
  rw [Session.run_of_clean fuel first (.initial sink clock) rfl hread hresolve] at hfirst
  obtain ⟨m, hm, rfl⟩ := Session.execute_of_quiet hfirst hquiet
  have hsecond := Program.clean_renumber hread' hresolve' (Program.ofSource first 0).nextId
  have hboth := clean_append hread hresolve hsecond.1 hsecond.2
  rw [Session.run_of_clean fuel' second
    { (Session.initial sink clock).resolved first with machine := m } rfl hsecond.1
    hsecond.2] at hends ⊢
  rw [Session.run_of_clean both (first ++ "\n" ++ second) (.initial sink clock) rfl hboth.1
    hboth.2] at hends' ⊢
  refine Session.execute_endsAlike rfl rfl rfl ?_ hends
  -- Both runs are compared with one that has the greatest of the bounds.
  let more := max both (max fuel fuel')
  have hfuel : fuel ≤ more ∧ fuel' ≤ more ∧ both ≤ more := by omega
  let program := Program.ofSource (first ++ "\n" ++ second) 0
  let found := (resolveProgram program.statements).distances
  have happend : SameEnd (lineBreaks first.toList + 1)
      (Eval.executeProgram fuel' (Program.ofSource second
        (Program.ofSource first 0).nextId).statements (m.recordDistances (resolveProgram
          (Program.ofSource second (Program.ofSource first 0).nextId).statements).distances))
      (Eval.executeProgram more program.statements
        ((Machine.initial sink clock).recordDistances found)) := by
    have hfound := distances_ofSource_append hread hsecond.1
    have hprogram := congrArg Program.statements (Program.ofSource_append hread hsecond.1)
    change found = _ at hfound
    change program.statements = _ at hprogram
    rw [hfound, hprogram]
    exact sameEnd_append (Program.le_nextId second _) (Program.within hsecond.1)
      (Program.bound_le hread) (Program.shift_zero hread) (Program.bound_le hsecond.1) hfuel.1
      hfuel.2.1 hm
  refine happend.trans_symm (sameEnd_more (Program.shift_zero hboth.1) hfuel.2.2) ?_
  intro after hexhausted
  exact hends' _ (Session.execute_of_exhausted hexhausted)

/-- A closure of the first source is called by the second, which then ends with an
error. -/
theorem run_second_endsAlike_run_both_closure :
    let first := "var f; \x7b var a = \"kept\"; fun g() \x7b
      return a; \x7d f = g; \x7d // not called yet"
    let second := "print f();
      print a;"
    ∃ middle, Session.run 20 first (.initial .unbounded fun _ => 0) = .ok () middle ∧
      EndsAlike (lineBreaks first.toList + 1) (Session.run 20 second middle)
        (Session.run 30 (first ++ "\n" ++ second) (.initial .unbounded fun _ => 0)) := by
  intro first second
  let initial := Session.initial .unbounded fun _ => 0
  obtain ⟨hread, hresolve, hread', hresolve', hfirst, hsecond, hboth⟩ :
      (Program.ofSource first 0).diagnostics = [] ∧
      (resolveProgram (Program.ofSource first 0).statements).errors = [] ∧
      (Program.ofSource second 0).diagnostics = [] ∧
      (resolveProgram (Program.ofSource second 0).statements).errors = [] ∧
      (Session.finished? (Session.run 20 first initial)).map (·.hadRuntimeError) = some false ∧
      ((Session.finished? (Session.run 20 first initial)).bind fun middle =>
        (Session.finished? (Session.run 20 second middle)).map (·.pending)) =
          some [.runtime ⟨2, .undefinedVariable "a"⟩] ∧
      (Session.finished? (Session.run 30 (first ++ "\n" ++ second) initial)).map (·.pending) =
        some [.runtime ⟨4, .undefinedVariable "a"⟩] := by
    decide +kernel
  obtain ⟨middle, hmiddle, hquiet⟩ := Option.map_eq_some_iff.1 hfirst
  rw [hmiddle, Option.bind_some] at hsecond
  have hends := Session.ne_exhausted_of_finished?
    (Option.isSome_map.symm.trans (congrArg Option.isSome hsecond))
  have hends' := Session.ne_exhausted_of_finished?
    (Option.isSome_map.symm.trans (congrArg Option.isSome hboth))
  have hran := Session.eq_ok_of_finished? hmiddle
  exact ⟨middle, hran, run_second_endsAlike_run_both .unbounded (fun _ => 0) first second hread
    hresolve hread' hresolve' hran hquiet hends hends'⟩

end Lox

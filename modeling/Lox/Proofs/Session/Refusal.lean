import Lox.Proofs.Session.Reachable
import Lox.Proofs.Session.Renaming

/-!
# Lines that are refused

A line of a dialogue that has a static error is reported and otherwise passed over:
it prints nothing and changes nothing that a program can observe. It does use up
identities, and it may leave distances behind for them, so all lines that follow
are read with other identities than without it. The dialogue is nevertheless the
same: what is printed, what is reported for every other line, how it ends, and the
flags and exit code that it leaves.
-/

namespace Lox

open Grammar

/-! ### Static errors -/

namespace Program

/-- The static errors of a source: what is wrong with its text, or else with its
scopes. -/
def staticErrors (source : String) : List Diagnostic :=
  let program := ofSource source 0
  if program.diagnostics.isEmpty then (resolveProgram program.statements).diagnostics
  else program.diagnostics

/-- They do not depend on what was read before. -/
theorem staticErrors_eq (source : String) (n : Nat) :
    staticErrors source =
      if (ofSource source n).diagnostics.isEmpty then
        (resolveProgram (ofSource source n).statements).diagnostics
      else (ofSource source n).diagnostics := by
  have hcounts : Counts (· + n) 0 := fun k _ => Nat.add_right_comm k 1 n
  have hsource := (ofSource_counts hcounts source).1
  have hfindings : resolveProgram (Stmt.shiftList (· + n) 0 (ofSource source 0).statements) =
      (resolveProgram (ofSource source 0).statements).shift (· + n) 0 :=
    Stmt.resolveList_shift _ 0 .top _
  rw [Nat.zero_add] at hsource
  rw [hsource]
  dsimp only
  rw [hfindings, Findings.diagnostics_shift]
  rfl

/-- A static error is reported as one. -/
theorem isStatic_of_mem_staticErrors {source : String} {d : Diagnostic}
    (hd : d ∈ staticErrors source) : d.isStatic = true := by
  unfold staticErrors at hd
  dsimp only at hd
  split at hd
  · obtain ⟨e, -, rfl⟩ := List.mem_map.1 hd
    rfl
  · exact isStatic_of_mem hd

end Program

namespace Session

/-! ### What a refused line does -/

/-- What a source with static errors does to a session: it reports them and uses up
identities, and it may record distances of these. All else stays, and with it the
globals, the objects, the environment, the calls and the output. -/
structure Refuses (source : String) (s after : Session) : Prop where
  /-- Its static errors are reported. -/
  pending : after.pending = s.pending ++ Program.staticErrors source
  /-- They are remembered. -/
  hadError : after.hadError = true
  /-- No runtime error comes to it. -/
  hadRuntimeError : after.hadRuntimeError = s.hadRuntimeError
  /-- Identities may be used up. -/
  nextId : s.nextId ≤ after.nextId
  /-- The machine is the same but for distances. -/
  machine : after.machine = { s.machine with distances := after.machine.distances }
  /-- Distances are recorded for identities of the source only. -/
  distances : ∀ id, id < s.nextId ∨ after.nextId ≤ id →
    after.machine.distances[id]? = s.machine.distances[id]?

variable {s after : Session} {source : String} {fuel : Nat}

/-- A source with static errors is read and perhaps resolved, but not executed. -/
theorem run_of_staticErrors (fuel : Nat) (herror : s.hadError = false)
    (hbad : Program.staticErrors source ≠ []) :
    ∃ found, Within s.nextId (Program.ofSource source s.nextId).nextId found ∧
      run fuel source s = .ok () (reportAll
        { s with
          nextId := (Program.ofSource source s.nextId).nextId
          machine := s.machine.recordDistances found } (Program.staticErrors source)) := by
  rw [Program.staticErrors_eq source s.nextId] at hbad ⊢
  by_cases hread : (Program.ofSource source s.nextId).diagnostics = []
  · rw [hread, List.isEmpty_nil, if_pos rfl] at hbad ⊢
    have hresolve :
        (resolveProgram (Program.ofSource source s.nextId).statements).errors ≠ [] := by
      intro h
      simp [Findings.diagnostics, h] at hbad
    exact ⟨_, Program.within hread, run_of_scopeError fuel source s herror hread hresolve⟩
  · have hfull : ¬ (Program.ofSource source s.nextId).diagnostics.isEmpty = true := by
      rwa [List.isEmpty_iff]
    rw [if_neg hfull]
    exact ⟨[], .nil _ _, run_of_error fuel source s (.inr hread)⟩

/-- A source with static errors is refused as a whole. -/
theorem refuses_run (fuel : Nat) (herror : s.hadError = false)
    (hbad : Program.staticErrors source ≠ []) :
    ∃ after, run fuel source s = .ok () after ∧ s.Refuses source after := by
  obtain ⟨found, hfound, hrun⟩ := run_of_staticErrors fuel herror hbad
  have hstatic : (Program.staticErrors source).any (·.isStatic) = true := by
    obtain ⟨d, hd⟩ := List.exists_mem_of_ne_nil _ hbad
    exact List.any_eq_true.2 ⟨d, hd, Program.isStatic_of_mem_staticErrors hd⟩
  have hquiet : (Program.staticErrors source).any (!·.isStatic) = false := by
    rw [List.any_eq_false]
    intro d hd
    rw [Program.isStatic_of_mem_staticErrors hd]
    exact Bool.false_ne_true
  rw [reportAll_eq, hstatic, hquiet, Bool.or_true, Bool.or_false] at hrun
  exact ⟨_, hrun, rfl, rfl, rfl, Program.le_nextId source s.nextId, rfl,
    fun id hid => Machine.recordDistances_of_outside hfound hid⟩

/-! ### Sessions that can come about -/

/-- Execution hands out no identities. -/
theorem nextId_of_execute {ss : List Stmt} (h : execute fuel ss s = .ok () after) :
    after.nextId = s.nextId := by
  unfold execute at h
  split at h <;> cases h <;> rfl

/-- Nothing is recorded for identities to come. -/
theorem Reachable.fresh (h : s.Reachable) :
    ∀ id, s.nextId ≤ id → s.machine.distances[id]? = none := by
  induction h with
  | initial sink clock => exact fun _ _ => rfl
  | takeDiagnostics _ ih => exact ih
  | takeOutput _ ih => exact ih
  | forgetErrors _ ih => exact ih
  | @run s after fuel source _ hrun ih =>
    intro id hid
    have hle := Program.le_nextId source s.nextId
    have hresolved : (Program.ofSource source s.nextId).diagnostics = [] →
        (s.resolved source).nextId ≤ id →
        (s.resolved source).machine.distances[id]? = none := by
      intro hread hid
      have hfound := Program.within hread
      rw [resolved, Machine.recordDistances_of_outside hfound (.inr hid)]
      exact ih id (Nat.le_trans hle hid)
    rcases run_cases fuel source s with
      ⟨other, hother, hmachine, hnext⟩ |
      ⟨hread, ⟨other, hother, hmachine, hnext⟩ | ⟨-, hexecute⟩⟩
    · rw [hother] at hrun
      cases hrun
      rw [hmachine]
      exact ih id (by omega)
    · rw [hother] at hrun
      cases hrun
      rw [hmachine]
      exact hresolved hread (by omega)
    · rw [hexecute] at hrun
      have hkept := keeps_executeProgram fuel
        (Program.ofSource source s.nextId).statements (s.resolved source).machine
      have hnext := nextId_of_execute hrun
      rw [machine_of_execute hrun, hkept.distances]
      exact hresolved hread (by omega)

/-- A session is the same as itself, and so all its functions have identities that
were handed out. -/
theorem Reachable.renamed (h : s.Reachable) : s.Renamed id "" s := by
  induction h with
  | initial sink clock =>
    exact ⟨rfl, rfl, rfl, rfl, fun _ _ => rfl, fun _ => rfl, Pairing.stores_initial sink clock, rfl,
      rfl, (Sink.behind_empty sink).symm, rfl, rfl, rfl⟩
  | @run s after fuel source _ hrun ih =>
    have hboth := ih.run Function.injective_id (Nat.le_refl fuel) source
    rw [hrun] at hboth
    cases hboth with
    | finished h => exact h
  | takeDiagnostics _ ih => exact ih.takeDiagnostics.2
  | takeOutput _ ih => exact ih.takeOutput.2
  | forgetErrors _ ih => exact ih.forgetErrors

/-! ### The identities that a refused line uses up -/

/-- Identities from `n` on make room for `k` others. -/
def skip (n k id : Nat) : Nat := if id < n then id else id + k

/-- Identities from before stay. -/
theorem skip_of_lt {n id : Nat} (h : id < n) (k : Nat) : skip n k id = id := if_pos h

/-- Later identities make room. -/
theorem skip_of_le {n id : Nat} (h : n ≤ id) (k : Nat) : skip n k id = id + k :=
  if_neg (Nat.not_lt.2 h)

/-- Identities that differ still differ when room was made. -/
theorem skip_injective (n k : Nat) : Function.Injective (skip n k) := by
  intro a b h
  unfold skip at h
  split at h <;> split at h <;> omega

/-- Later identities are counted one by one, with room or without. -/
theorem counts_skip (n k : Nat) : Counts (skip n k) n := by
  intro id hid
  rw [skip_of_le hid, skip_of_le (Nat.le_succ_of_le hid)]
  omega

/-- The session after a line was answered. -/
def answered (s : Session) : Session := s.takeDiagnostics.2.takeOutput.2.forgetErrors

/-- A session that has refused a line is the same as before it, but for the identities
of the lines to come. Text that was not yet shown before the line was shown with it. -/
theorem Refuses.renamed (h : s.Refuses source after) (hs : s.Reachable)
    (herror : s.hadError = false) (hpending : s.pending = []) :
    s.Renamed (skip s.nextId (after.nextId - s.nextId)) s.machine.sink.accepted after.answered := by
  have hle := h.nextId
  have hdistances : ∀ id, after.machine.distances[skip s.nextId (after.nextId - s.nextId) id]? =
      s.machine.distances[id]? := by
    intro id
    by_cases hid : id < s.nextId
    · rw [skip_of_lt hid]
      exact h.distances id (.inl hid)
    · rw [not_lt] at hid
      rw [skip_of_le hid, h.distances _ (.inr (by omega)), hs.fresh id hid]
      exact hs.fresh _ (by omega)
  have hnext : after.nextId = skip s.nextId (after.nextId - s.nextId) s.nextId := by
    rw [skip_of_le (Nat.le_refl _)]
    omega
  refine ⟨hpending.symm, herror.symm, h.hadRuntimeError, hnext, counts_skip _ _, hdistances, ?_⟩
  -- Identities handed out before the line keep their names.
  let P := Pairing.byRename id "" s.nextId hs.renamed.distances
  let Q := Pairing.byRename _ s.machine.sink.accepted s.nextId hdistances
  have hrename : ∀ i, i < P.bound → P.rename i = Q.rename i :=
    fun i hi => (skip_of_lt hi _).symm
  have hbound : P.bound ≤ Q.bound := Nat.le_refl s.nextId
  have hstores : Q.Stores s.machine.store s.machine.store :=
    hs.renamed.machine.store.mono hbound rfl hrename
  have hsink : s.machine.sink =
      ({ s.machine.sink with accepted := "" } : Sink).behind s.machine.sink.accepted := by
    unfold Sink.behind
    rw [String.append_empty]
  have hmachine : after.answered.machine =
      { s.machine with
        distances := after.machine.distances
        sink := { s.machine.sink with accepted := "" } } := by
    have hanswered : after.answered.machine =
        { after.machine with sink := { after.machine.sink with accepted := "" } } := rfl
    rw [hanswered, h.machine]
  change Q.Alike s.machine after.answered.machine
  rw [hmachine]
  exact ⟨hstores, rfl, rfl, hsink, rfl, rfl, rfl⟩

/-! ### Dialogues -/

/-- A run that comes to an end is answered with its output and its diagnostics. -/
theorem answer_of_run (hrun : run fuel source s = .ok () after) :
    answer fuel source s = .ok ⟨after.machine.sink.accepted, after.pending⟩ after.answered := by
  unfold answer
  rw [bind_of_ok hrun]
  rfl

/-- A dialogue goes on after its first lines where they left it, unless it was aborted
by one of them. -/
theorem converse_append (s : Session) (fuel : Nat) {before : List String}
    (hbefore : ∀ line ∈ before, line ≠ "") (rest : List Line) :
    (∃ abort, (s.converse fuel (before.map some)).ending = .aborted abort ∧
      (s.converse fuel (before.map some)).turns.length < before.length ∧
      s.converse fuel (before.map some ++ rest) = s.converse fuel (before.map some)) ∨
    (s.converse fuel (before.map some)).ending = .finished ∧
      (s.converse fuel (before.map some)).turns.length = before.length ∧
      s.converse fuel (before.map some ++ rest) =
        { (s.converse fuel (before.map some)).session.converse fuel rest with
          turns := (s.converse fuel (before.map some)).turns ++
            ((s.converse fuel (before.map some)).session.converse fuel rest).turns } := by
  induction before generalizing s with
  | nil => exact .inr ⟨rfl, rfl, rfl⟩
  | cons line before ih =>
    rw [List.forall_mem_cons] at hbefore
    have hfilled : ¬ line.isEmpty = true := by
      rw [String.isEmpty_iff]
      exact hbefore.1
    simp only [List.map_cons, List.cons_append, Session.converse, if_neg hfilled]
    cases answer fuel line s with
    | error abort after => exact .inl ⟨abort, rfl, Nat.succ_pos _, rfl⟩
    | ok turn after =>
      dsimp only
      rcases ih after hbefore.2 with ⟨abort, hending, hlength, heq⟩ | ⟨hending, hlength, heq⟩
      · rw [heq]
        exact .inl ⟨abort, hending, Nat.succ_lt_succ hlength, rfl⟩
      · rw [heq]
        exact .inr ⟨hending, congrArg (· + 1) hlength, rfl⟩

/-- Between two lines no static error is remembered and no diagnostic waits. -/
theorem settled_converse (herror : s.hadError = false) (hpending : s.pending = [])
    (lines : List Line) (hending : (s.converse fuel lines).ending = .finished) :
    (s.converse fuel lines).session.hadError = false ∧
      (s.converse fuel lines).session.pending = [] := by
  induction lines generalizing s with
  | nil => exact ⟨herror, hpending⟩
  | cons line rest ih =>
    cases line with
    | none => cases hending
    | some line =>
      rw [Session.converse] at hending ⊢
      split
      · exact ⟨herror, hpending⟩
      · rename_i hempty
        rw [if_neg hempty] at hending
        cases hanswer : answer fuel line s with
        | error abort after =>
          rw [hanswer] at hending
          cases hending
        | ok turn after =>
          rw [hanswer] at hending
          obtain ⟨_, middle, -, htake⟩ := bind_eq_ok hanswer
          cases htake
          exact ih rfl rfl hending

end Session

/-- A dialogue that is another one without its line number `i`, as far as can be
seen. -/
structure Dialogue.Omits (i : Nat) (whole without : Dialogue) : Prop where
  /-- The same is printed. -/
  printed : whole.printed = without.printed
  /-- The same is reported for all other lines. -/
  reported : (whole.turns.map (·.reported)).eraseIdx i = without.turns.map (·.reported)
  /-- Both end alike. -/
  ending : whole.ending = without.ending
  /-- A static error is remembered by both or by none. -/
  hadError : whole.session.hadError = without.session.hadError
  /-- A runtime error is remembered by both or by none. -/
  hadRuntimeError : whole.session.hadRuntimeError = without.session.hadRuntimeError
  /-- The exit code is the same. -/
  exitCode : whole.session.exitCode = without.session.exitCode

namespace Dialogue

variable {i : Nat} {whole without whole' without' d d' : Dialogue}

/-- Dialogues that show the same stand for each other. -/
theorem Omits.congr (h : whole'.Omits i without') (hwhole : Alike "" whole whole')
    (hwithout : Alike "" without without') : whole.Omits i without := by
  have hprinted := hwhole.printed
  have hprinted' := hwithout.printed
  rw [String.empty_append] at hprinted hprinted'
  have herror := hwhole.hadError.symm.trans (h.hadError.trans hwithout.hadError)
  have hruntime := hwhole.hadRuntimeError.symm.trans
    (h.hadRuntimeError.trans hwithout.hadRuntimeError)
  refine ⟨?_, ?_, ?_, herror, hruntime, Session.exitCode_congr herror hruntime⟩
  · rw [hprinted, hprinted', h.printed]
  · rw [← hwhole.reported, ← hwithout.reported, h.reported]
  · rw [← hwhole.ending, ← hwithout.ending, h.ending]

/-- A dialogue that was over before the line omits it. -/
theorem Omits.of_length_le (h : d.turns.length ≤ i) : d.Omits i d :=
  ⟨rfl, List.eraseIdx_eq_self.2 (by rwa [List.length_map]), rfl, rfl, rfl, rfl⟩

/-- One turn more, which shows the text from earlier that the dialogue without it
shows later. -/
theorem Omits.insert (turns : List Turn) {turn : Turn} (h : Alike turn.printed d d') :
    Omits turns.length { d' with turns := turns ++ turn :: d'.turns }
      { d with turns := turns ++ d.turns } := by
  have hturn : turns ++ turn :: d'.turns = (turns ++ [turn]) ++ d'.turns :=
    (List.append_assoc turns [turn] d'.turns).symm
  refine ⟨?_, ?_, h.ending, h.hadError, h.hadRuntimeError,
    Session.exitCode_congr h.hadError h.hadRuntimeError⟩
  · rw [hturn, printed_append, printed_append, h.printed, List.map_append, String.join_append,
      String.append_assoc]
    simp
  · dsimp only
    rw [List.map_append, List.map_append, List.map_cons, List.eraseIdx_append_of_length_le]
    · simp [h.reported]
    · simp

end Dialogue

section Lines

variable {session : Session} {before : List String} {bad : String} {after : List Line}
  {fuel fuel' : Nat}

/-- With a greater bound, a dialogue shows what it showed. -/
theorem Session.Reachable.converse_alike (hs : session.Reachable) (hle : fuel ≤ fuel')
    (lines : List Line) (hends : (session.converse fuel lines).ending ≠ .aborted .exhausted) :
    Dialogue.Alike "" (session.converse fuel lines) (session.converse fuel' lines) :=
  hs.renamed.converse Function.injective_id hle lines hends

/-- A dialogue that starts with a refused line goes on as one that starts without it. -/
theorem Session.Reachable.converse_refused (hs : session.Reachable)
    (herror : session.hadError = false) (hpending : session.pending = [])
    (hbad : Program.staticErrors bad ≠ [])
    (hends : (session.converse fuel after).ending ≠ .aborted .exhausted) :
    ∃ (turn : Turn) (later : Dialogue),
      session.converse fuel (some bad :: after) = { later with turns := turn :: later.turns } ∧
        Dialogue.Alike turn.printed (session.converse fuel after) later := by
  have hfilled : ¬ bad.isEmpty = true := by
    rw [String.isEmpty_iff]
    rintro rfl
    exact hbad (by decide +kernel)
  obtain ⟨refused, hrun, hrefuses⟩ := Session.refuses_run fuel herror hbad
  have hrenamed := hrefuses.renamed hs herror hpending
  have hlater := hrenamed.converse (Session.skip_injective _ _) (Nat.le_refl fuel) after hends
  have hsink : refused.machine.sink.accepted = session.machine.sink.accepted := by
    rw [hrefuses.machine]
  rw [Session.converse, if_neg hfilled, Session.answer_of_run hrun, hsink]
  exact ⟨_, _, rfl, hlater⟩

/-- With one bound for both dialogues, the lines before the refused one are answered in
the same way, and the lines after it are read with other identities. -/
theorem converse_omits_of_bound (hs : session.Reachable) (herror : session.hadError = false)
    (hpending : session.pending = []) (hbefore : ∀ line ∈ before, line ≠ "")
    (hbad : Program.staticErrors bad ≠ [])
    (hends : (session.converse fuel (before.map some ++ after)).ending ≠ .aborted .exhausted) :
    (session.converse fuel (before.map some ++ some bad :: after)).Omits before.length
      (session.converse fuel (before.map some ++ after)) := by
  have hwithout := session.converse_append fuel hbefore after
  have hwhole := session.converse_append fuel hbefore (some bad :: after)
  rcases hwithout with ⟨abort, habort, hlength, hwithout⟩ | ⟨hfinished, hlength, hwithout⟩
  · -- The line is not reached.
    rcases hwhole with ⟨_, -, -, hwhole⟩ | ⟨hfinished, -, -⟩
    · rw [hwhole, hwithout]
      exact .of_length_le (Nat.le_of_lt hlength)
    · rw [hfinished] at habort
      cases habort
  · rcases hwhole with ⟨_, habort, -, -⟩ | ⟨-, -, hwhole⟩
    · rw [hfinished] at habort
      cases habort
    · have hreach := hs.converse fuel (before.map some) (by rw [hfinished]; nofun)
      have hsettled := Session.settled_converse herror hpending _ hfinished
      rw [hwithout] at hends
      obtain ⟨turn, later, hturn, hlater⟩ :=
        hreach.converse_refused hsettled.1 hsettled.2 hbad hends
      rw [hwhole, hwithout, hturn, ← hlength]
      exact .insert _ hlater

end Lines

/-- A line with a static error is transparent. In every session that can come about,
with no static error remembered and no diagnostic waiting, and for all lines before and
after it, the dialogue without it prints the same, reports the same for every other
line, ends in the same way and leaves the same flags and exit code. The line itself, if
it is reached, leaves the machine as it was but for distances. -/
theorem converse_omits_refused {session : Session} (hs : session.Reachable)
    (herror : session.hadError = false) (hpending : session.pending = []) {before : List String}
    (hbefore : ∀ line ∈ before, line ≠ "") {bad : String} (hbad : Program.staticErrors bad ≠ [])
    (after : List Line) {fuel fuel' : Nat}
    (hends : (session.converse fuel (before.map some ++ after)).ending ≠ .aborted .exhausted)
    (hends' : (session.converse fuel' (before.map some ++ some bad :: after)).ending ≠
      .aborted .exhausted) :
    (session.converse fuel' (before.map some ++ some bad :: after)).Omits before.length
        (session.converse fuel (before.map some ++ after)) ∧
      ((session.converse fuel' (before.map some)).ending = .finished →
        ∃ refused, Session.run fuel' bad (session.converse fuel' (before.map some)).session =
            .ok () refused ∧
          (session.converse fuel' (before.map some)).session.Refuses bad refused) := by
  -- Both dialogues are compared with those that have the greater of the bounds.
  have hwithout := hs.converse_alike (Nat.le_max_left fuel fuel') _ hends
  have hwhole := hs.converse_alike (Nat.le_max_right fuel fuel') _ hends'
  refine ⟨.congr ?_ hwhole hwithout, fun hfinished => ?_⟩
  · refine converse_omits_of_bound hs herror hpending hbefore hbad ?_
    rw [hwithout.ending]
    exact hends
  · have hsettled := Session.settled_converse herror hpending _ hfinished
    exact Session.refuses_run fuel' hsettled.1 hbad

/-- A closure of an earlier line is called before and after a line that reads a local
variable in its own initializer; that line has recorded a distance before the error was
found, and the last line ends with a runtime error. -/
theorem converse_omits_refused_closure :
    let session := Session.initial .unbounded fun _ => 0
    let before := ["var f; \x7b var a = \"a\"; fun g() \x7b a = a + \"b\"; return a; \x7d f = g; \x7d",
      "print f();"]
    let bad := "\x7b var a = \"c\"; f = a; \x7b var b = b; \x7d \x7d"
    let after := [some "\x7b var b = f(); print b; \x7d", some "print f(a);"]
    let without := session.converse 20 (before.map some ++ after)
    let whole := session.converse 30 (before.map some ++ some bad :: after)
    Program.staticErrors bad = [.scoping ⟨⟨"b", 1⟩, .selfReferentialInitializer⟩] ∧
      whole.printed = "ab\nabb\n" ∧ whole.Omits 2 without := by
  intro session before bad after without whole
  obtain ⟨hbad, hprinted, hfilled, hends, hends'⟩ :
      Program.staticErrors bad = [.scoping ⟨⟨"b", 1⟩, .selfReferentialInitializer⟩] ∧
      whole.printed = "ab\nabb\n" ∧ (∀ line ∈ before, line ≠ "") ∧
      without.ending = .finished ∧ whole.ending = .finished := by
    decide +kernel
  have hreach : session.Reachable := .initial .unbounded fun _ => 0
  have hrefused : Program.staticErrors bad ≠ [] := by
    rw [hbad]
    nofun
  have hnever : without.ending ≠ .aborted .exhausted ∧ whole.ending ≠ .aborted .exhausted := by
    rw [hends, hends']
    exact ⟨nofun, nofun⟩
  have homits := converse_omits_refused hreach rfl rfl hfilled hrefused after hnever.1 hnever.2
  exact ⟨hbad, hprinted, homits.1⟩

end Lox

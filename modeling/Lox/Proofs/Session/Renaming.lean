import Lox.Proofs.Grammar.Renumber
import Lox.Proofs.Session.Increments
import Lox.Session.Dialogue

/-!
# Sessions with other identities

Two sessions that differ in the identities of the trees they have read answer
every line alike: a line has the same static errors in both, its distances are
found under the renamed identities, and it is executed alike. The identities are
renamed in one way from the first line to the last, by an injection that counts one
by one from the next identity on. The first session may have printed some text
before, which it shows with the first answer.
-/

namespace Lox

open Grammar

variable {g : Nat → Nat} {earlier : String}

/-- Distances that are recorded under other identities are found there. -/
theorem Machine.recordDistances_rename (hg : Function.Injective g) {m m' : Machine}
    (h : ∀ id, m'.distances[g id]? = m.distances[id]?) (found : List (Nat × Nat)) (id : Nat) :
    (m'.recordDistances (found.map fun p => (g p.1, p.2))).distances[g id]? =
      (m.recordDistances found).distances[id]? := by
  unfold recordDistances
  dsimp only
  revert h
  generalize m.distances = left
  generalize m'.distances = right
  intro h
  induction found generalizing left right with
  | nil => exact h id
  | cons p rest ih =>
    refine ih _ _ fun other => ?_
    rw [Std.TreeMap.getElem?_insert, Std.TreeMap.getElem?_insert, h other]
    simp only [Nat.compare_eq_eq, hg.eq_iff]

/-- Where identities start decides nothing about scope errors. -/
theorem Findings.diagnostics_shift (findings : Findings) :
    (findings.shift g 0).diagnostics = findings.diagnostics := by
  have herrors : (findings.shift g 0).errors = findings.errors := List.map_id _
  unfold diagnostics
  rw [herrors]

namespace Pairing

/-- Runs of the same lines on machines whose identities are renamed throughout. -/
def byRename (g : Nat → Nat) (earlier : String) (n : Nat) {left right : Distances}
    (h : ∀ id, right[g id]? = left[id]?) : Pairing :=
  ⟨n, 0, g, earlier, left, right, fun id _ => h id⟩

/-- Halts on machines that run the same lines are the same. -/
theorem Halts.eq_of_offset {P : Pairing} (hoffset : P.offset = 0) {h h' : Halt}
    (hh : P.Halts h h') : h' = h := by
  obtain ⟨l, hl, rfl⟩ := hh
  have hzero : l = 0 := by
    rcases hl with hl | hl
    · exact hl
    · exact hl.trans hoffset
  rw [hzero, Halt.shift_zero]

section Later

variable {left right left' right' : Distances} {n n' : Nat} {h : ∀ id, right[g id]? = left[id]?}

/-- Stores correspond whatever was printed, and also when more identities have been
handed out and other distances were recorded. -/
theorem Stores.later {s s' : Store} (hs : (byRename g earlier n h).Stores s s') (hn : n ≤ n')
    (h' : ∀ id, right'[g id]? = left'[id]?) (earlier' : String) :
    (byRename g earlier' n' h').Stores s s' := by
  have hrename : ∀ id, id < n →
      (byRename g earlier n h).rename id = (byRename g earlier' n' h').rename id :=
    fun _ _ => rfl
  exact hs.mono hn rfl hrename

/-- Machines that are alike stay so when both get distances for new identities. -/
theorem Alike.later {m m' : Machine} (hm : (byRename g earlier n h).Alike m m') (hn : n ≤ n')
    (h' : ∀ id, right'[g id]? = left'[id]?) :
    (byRename g earlier n' h').Alike { m with distances := left' }
      { m' with distances := right' } :=
  ⟨hm.store.later hn h' earlier, hm.env, hm.calls, hm.sink, hm.clock, rfl, rfl⟩

end Later

end Pairing

namespace Session

/-- A source that leaves no static error behind has none. -/
theorem diagnostics_of_read {s : Session} {source : String}
    (h : (s.read source).2.hadError = false) :
    (Program.ofSource source s.nextId).diagnostics = [] := by
  simp only [read, reportAll_eq, Program.any_isStatic, Bool.or_eq_false_iff] at h
  simpa using h.2

/-- Two sessions that are the same but for the identities of what they have read, and
for text that the first one printed earlier. -/
structure Renamed (g : Nat → Nat) (earlier : String) (s s' : Session) : Prop where
  /-- The same diagnostics are held. -/
  pending : s'.pending = s.pending
  /-- A static error is remembered by both or by none. -/
  hadError : s'.hadError = s.hadError
  /-- A runtime error is remembered by both or by none. -/
  hadRuntimeError : s'.hadRuntimeError = s.hadRuntimeError
  /-- The next identities correspond. -/
  nextId : s'.nextId = g s.nextId
  /-- Later identities are counted one by one. -/
  counts : Counts g s.nextId
  /-- The distances are the same under the identities that correspond. -/
  distances : ∀ id, s'.machine.distances[g id]? = s.machine.distances[id]?
  /-- The machines are alike. -/
  machine : (Pairing.byRename g earlier s.nextId distances).Alike s.machine s'.machine

namespace Renamed

variable {s s' : Session}

/-- Machines that keep their distances while they run stay machines of such
sessions. -/
theorem withMachine (h : Renamed g earlier s s') {m m' : Machine}
    (hm : (Pairing.byRename g earlier s.nextId h.distances).Alike m m') :
    Renamed g earlier { s with machine := m } { s' with machine := m' } := by
  have hdistances : ∀ id, m'.distances[g id]? = m.distances[id]? := by
    intro id
    rw [hm.left, hm.right]
    exact h.distances id
  exact ⟨h.pending, h.hadError, h.hadRuntimeError, h.nextId, h.counts, hdistances,
    hm.later (Nat.le_refl _) hdistances⟩

/-- Both sessions report a diagnostic alike. -/
theorem report (h : Renamed g earlier s s') (d : Diagnostic) :
    Renamed g earlier (s.report d) (s'.report d) :=
  ⟨congrArg (· ++ [d]) h.pending, congrArg (· || d.isStatic) h.hadError,
    congrArg (· || !d.isStatic) h.hadRuntimeError, h.nextId, h.counts, h.distances, h.machine⟩

/-- Both sessions report several diagnostics alike. -/
theorem reportAll (h : Renamed g earlier s s') (ds : List Diagnostic) :
    Renamed g earlier (s.reportAll ds) (s'.reportAll ds) := by
  induction ds generalizing s s' with
  | nil => exact h
  | cons d rest ih => exact ih (h.report d)

/-- What was reported is the same. -/
theorem takeDiagnostics (h : Renamed g earlier s s') :
    s'.takeDiagnostics.1 = s.takeDiagnostics.1 ∧
      Renamed g earlier s.takeDiagnostics.2 s'.takeDiagnostics.2 :=
  ⟨h.pending, rfl, h.hadError, h.hadRuntimeError, h.nextId, h.counts, h.distances, h.machine⟩

/-- What was printed is the same but for the text from earlier, which is then shown. -/
theorem takeOutput (h : Renamed g earlier s s') :
    s.takeOutput.1 = earlier ++ s'.takeOutput.1 ∧
      Renamed g "" s.takeOutput.2 s'.takeOutput.2 := by
  have hm := h.machine
  have hprinted : s.machine.sink.accepted = earlier ++ s'.machine.sink.accepted :=
    congrArg (·.accepted) hm.sink
  have hsink : { s.machine.sink with accepted := "" } =
      ({ s'.machine.sink with accepted := "" } : Sink).behind "" := by
    rw [Sink.behind_empty, hm.sink]
    rfl
  exact ⟨hprinted, h.pending, h.hadError, h.hadRuntimeError, h.nextId, h.counts, h.distances,
    hm.store.later (Nat.le_refl _) h.distances "", hm.env, hm.calls, hsink, hm.clock, rfl, rfl⟩

/-- Both sessions forget their errors alike. -/
theorem forgetErrors (h : Renamed g earlier s s') :
    Renamed g earlier s.forgetErrors s'.forgetErrors :=
  ⟨h.pending, rfl, h.hadRuntimeError, h.nextId, h.counts, h.distances, h.machine⟩

/-- A source is read as the same program with other identities, and with the same
errors. -/
theorem read (h : Renamed g earlier s s') (source : String) :
    (s'.read source).1 = Stmt.shiftList g 0 (s.read source).1 ∧
      Renamed g earlier (s.read source).2 (s'.read source).2 := by
  have hsource := Program.ofSource_counts h.counts source
  rw [← h.nextId] at hsource
  unfold Session.read
  rw [hsource.1]
  refine ⟨rfl, reportAll ?_ _⟩
  exact ⟨h.pending, h.hadError, h.hadRuntimeError, rfl, hsource.2, h.distances,
    h.machine.later (Program.le_nextId source s.nextId) h.distances⟩

/-- Both sessions record the distances of a program alike, each under its own identities. -/
theorem resolve (hg : Function.Injective g) (h : Renamed g earlier s s') (ss : List Stmt) :
    Renamed g earlier (s.resolve ss) (s'.resolve (Stmt.shiftList g 0 ss)) := by
  have hfindings : resolveProgram (Stmt.shiftList g 0 ss) = (resolveProgram ss).shift g 0 :=
    Stmt.resolveList_shift g 0 .top ss
  have hdistances :=
    Machine.recordDistances_rename hg h.distances (resolveProgram ss).distances
  unfold Session.resolve
  dsimp only
  rw [hfindings, Findings.diagnostics_shift]
  refine reportAll ?_ _
  exact ⟨h.pending, h.hadError, h.hadRuntimeError, h.nextId, h.counts, hdistances,
    h.machine.later (Nat.le_refl _) hdistances⟩

end Renamed

/-- Steps of two sessions that both end, or end with one fault, and leave sessions in
given relations. Nothing is said if the first one is cut short. -/
inductive EndsAs {α : Type} (ok : α → Session → α → Session → Prop)
    (halt : Session → Session → Prop) :
    EStateM.Result Abort Session α → EStateM.Result Abort Session α → Prop where
  /-- The first step was cut short. -/
  | exhausted (s : Session) (r : EStateM.Result Abort Session α) :
      EndsAs ok halt (.error .exhausted s) r
  /-- Both steps end. -/
  | finished {a b : α} {s s' : Session} (h : ok a s b s') : EndsAs ok halt (.ok a s) (.ok b s')
  /-- Both steps are at the same fault. -/
  | faulted {s s' : Session} (f : Fault) (h : halt s s') :
      EndsAs ok halt (.error (.fault f) s) (.error (.fault f) s')

end Session

/-! ### Dialogues -/

/-- What a dialogue prints after some turns. -/
theorem Dialogue.printed_append (turns : List Turn) (d : Dialogue) :
    ({ d with turns := turns ++ d.turns } : Dialogue).printed =
      String.join (turns.map (·.printed)) ++ d.printed := by
  simp only [printed, remainder, List.map_append, String.join_append, String.append_assoc]

/-- Dialogues that show the same and leave the same flags; the first one shows some
text from earlier before it. -/
structure Dialogue.Alike (earlier : String) (d d' : Dialogue) : Prop where
  /-- The first one prints the earlier text before what both print. -/
  printed : d.printed = earlier ++ d'.printed
  /-- The same is reported for every line. -/
  reported : d'.turns.map (·.reported) = d.turns.map (·.reported)
  /-- Both end alike. -/
  ending : d'.ending = d.ending
  /-- A static error is remembered by both or by none. -/
  hadError : d'.session.hadError = d.session.hadError
  /-- A runtime error is remembered by both or by none. -/
  hadRuntimeError : d'.session.hadRuntimeError = d.session.hadRuntimeError

namespace Dialogue.Alike

/-- Dialogues that end before their next answer. -/
theorem ofSession (ending : Ending) {s s' : Session} (h : s.Renamed g earlier s') :
    Alike earlier ⟨[], ending, s⟩ ⟨[], ending, s'⟩ := by
  refine ⟨?_, rfl, rfl, h.hadError, h.hadRuntimeError⟩
  simp only [Dialogue.printed, remainder, List.map_nil, String.join_nil, String.empty_append]
  exact congrArg (·.accepted) h.machine.sink

/-- Dialogues with one more answer in front. -/
theorem cons {turn turn' : Turn} {d d' : Dialogue}
    (hprinted : turn.printed = earlier ++ turn'.printed)
    (hreported : turn'.reported = turn.reported) (h : Alike "" d d') :
    Alike earlier { d with turns := turn :: d.turns } { d' with turns := turn' :: d'.turns } := by
  refine ⟨?_, congrArg₂ (· :: ·) hreported h.reported, h.ending, h.hadError, h.hadRuntimeError⟩
  have hfirst := printed_append [turn] d
  have hfirst' := printed_append [turn'] d'
  rw [List.singleton_append] at hfirst hfirst'
  rw [hfirst, hfirst', h.printed]
  simp [hprinted, String.append_assoc]

end Dialogue.Alike

namespace Session.Renamed

variable {s s' : Session} {fuel fuel' : Nat}

/-- Both sessions execute a program alike, each with its own identities. -/
theorem execute (h : Renamed g earlier s s') (hle : fuel ≤ fuel') {ss : List Stmt}
    (hss : Stmt.boundList ss ≤ s.nextId) :
    EndsAs (fun _ t _ t' => Renamed g earlier t t') (Renamed g earlier)
      (Session.execute fuel ss s) (Session.execute fuel' (Stmt.shiftList g 0 ss) s') := by
  let P := Pairing.byRename g earlier s.nextId h.distances
  have hrun : Parallel P (fun _ _ => True) (Eval.executeProgram fuel ss)
      (Eval.executeProgram fuel' (Stmt.shiftList g 0 ss)) :=
    P.executeProgram hle (.inl rfl) hss
  unfold Session.execute
  rcases (hrun s.machine s'.machine h.machine).inversion with
    ⟨m, hm⟩ | ⟨_, m, _, m', hm, hm', halike, -⟩ | ⟨e, m, e', m', hm, hm', hhalts, halike⟩
  · rw [hm]
    exact .exhausted _ _
  · rw [hm, hm']
    exact .finished (h.withMachine halike)
  · rw [hm, hm', hhalts.eq_of_offset rfl]
    cases e with
    | error e => exact .finished ((h.withMachine halike).report _)
    | fault f => exact .faulted f (h.withMachine halike)
    | exhausted => exact .exhausted _ _

/-- A source is run alike, whether it has static errors or not. -/
theorem run (hg : Function.Injective g) (h : Renamed g earlier s s') (hle : fuel ≤ fuel')
    (source : String) :
    EndsAs (fun _ t _ t' => Renamed g earlier t t') (Renamed g earlier)
      (Session.run fuel source s) (Session.run fuel' source s') := by
  obtain ⟨hstatements, hread⟩ := h.read source
  have hresolve := hread.resolve hg (s.read source).1
  unfold Session.run
  dsimp only
  rw [hstatements, hread.hadError, hresolve.hadError]
  split
  · exact .finished hread
  · rename_i hclean
    split
    · exact .finished hresolve
    · have hbound := Program.bound_le (diagnostics_of_read (Bool.eq_false_iff.2 hclean))
      refine hresolve.execute hle ?_
      simpa only [Session.resolve, Session.read, reportAll_eq] using hbound

/-- A line is answered alike; what the first session had printed earlier comes before
what the line prints. -/
theorem answer (hg : Function.Injective g) (h : Renamed g earlier s s') (hle : fuel ≤ fuel')
    (line : String) :
    EndsAs (fun turn t turn' t' => turn.printed = earlier ++ turn'.printed ∧
        turn'.reported = turn.reported ∧ Renamed g "" t t') (Renamed g earlier)
      (Session.answer fuel line s) (Session.answer fuel' line s') := by
  have hrun := h.run hg hle line
  unfold Session.answer
  rw [bind_apply, bind_apply]
  generalize Session.run fuel line s = r at hrun ⊢
  generalize Session.run fuel' line s' = r' at hrun ⊢
  cases hrun with
  | exhausted s r => exact .exhausted s _
  | faulted f h => exact .faulted f h
  | finished h =>
    have hreported := h.takeDiagnostics
    have hprinted := hreported.2.takeOutput
    exact .finished ⟨hprinted.1, hreported.1, hprinted.2.forgetErrors⟩

/-- Two sessions that differ in identities hold the same dialogue. -/
theorem converse (hg : Function.Injective g) (h : Renamed g earlier s s') (hle : fuel ≤ fuel')
    (lines : List Line) (hends : (s.converse fuel lines).ending ≠ .aborted .exhausted) :
    Dialogue.Alike earlier (s.converse fuel lines) (s'.converse fuel' lines) := by
  induction lines generalizing s s' earlier with
  | nil => exact .ofSession _ h
  | cons line rest ih =>
    cases line with
    | none => exact .ofSession _ h
    | some line =>
      have hanswer := h.answer hg hle line
      rw [Session.converse] at hends ⊢
      rw [Session.converse]
      split
      · exact .ofSession _ h
      · rename_i hempty
        rw [if_neg hempty] at hends
        generalize Session.answer fuel line s = r at hanswer hends ⊢
        generalize Session.answer fuel' line s' = r' at hanswer ⊢
        cases hanswer with
        | exhausted s r => exact absurd rfl hends
        | faulted f h => exact .ofSession _ h
        | finished h => exact .cons h.1 h.2.1 (ih h.2.2 hends)

end Session.Renamed

end Lox

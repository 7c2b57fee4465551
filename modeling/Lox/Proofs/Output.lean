import Lox.Proofs.Evaluation.Visits

/-!
# Runs whose output is refused

A sink that is full refuses what is printed, and the run stops there. Such a run is
compared with the same run on a sink that is never full. As long as nothing is refused
the two do the same, so the run on the full sink is cut off at the first refused print
and differs in nothing before it. The other run goes on from there, and since text is
only ever added to a sink, what the first run printed stays at the front of what the
second one prints.

Steps that do not print do not look at the sink, and they are treated as one kind.
-/

namespace Lox

variable {α β : Type}

/-! ### Sinks that are never full -/

/-- A sink that takes everything from now on. -/
def Sink.unlimited (sink : Sink) : Sink := { sink with isFull := fun _ => false }

/-- A machine whose output is never refused. -/
def Machine.unlimited (m : Machine) : Machine := { m with sink := m.sink.unlimited }

/-- A step that adds to the text in the sink, if it changes it at all. -/
def Grows (p : Eval α) : Prop :=
  ∀ m : Machine, ∃ more, (machineAfter (p m)).sink.accepted = m.sink.accepted ++ more

/-- What is added to the sink by one step after the other is added to it by both. -/
theorem Grows.bind {p : Eval α} {f : α → Eval β} (hp : Grows p) (hf : ∀ a, Grows (f a)) :
    Grows (p >>= f) := by
  intro m
  obtain ⟨more, hmore⟩ := hp m
  rw [bind_apply]
  cases hm : p m with
  | error h m' =>
    rw [hm] at hmore
    exact ⟨more, hmore⟩
  | ok a m' =>
    rw [hm] at hmore
    obtain ⟨later, hlater⟩ := hf a m'
    refine ⟨more ++ later, hlater.trans ?_⟩
    rw [← String.append_assoc]
    exact congrArg (· ++ later) hmore

/-! ### Steps that do not print -/

/-- A step that neither looks at the sink nor changes it. -/
def Quiet (p : Eval α) : Prop :=
  ∀ (m : Machine) (sink : Sink),
    p { m with sink := sink } = onState (fun after => { after with sink := sink }) (p m)

namespace Quiet

variable {p : Eval α} {f : α → Eval β}

/-- A step that only yields something does not print. -/
theorem pure (a : α) : Quiet (Pure.pure a) := fun _ _ => rfl

/-- A halt does not print: the report is made outside of the run. -/
theorem throw (h : Halt) : Quiet (MonadExcept.throw h : Eval α) := fun _ _ => rfl

/-- An error does not print. -/
theorem fail (line : Nat) (cause : RuntimeCause) : Quiet (Eval.fail line cause : Eval α) :=
  fun _ _ => rfl

/-- Steps that do not print may be put one after the other. -/
theorem bind (hp : Quiet p) (hf : ∀ a, Quiet (f a)) : Quiet (p >>= f) := by
  intro m sink
  rw [bind_apply, bind_apply, hp m sink]
  cases p m with
  | ok a after => exact hf a after sink
  | error h after => rfl

/-- A fault in a reading of the store does not print. -/
theorem orFault (r : Except Fault α) : Quiet (Eval.orFault r) := by
  cases r with
  | ok a => exact pure a
  | error fault => exact throw _

/-- An error in an operation does not print. -/
theorem orFail (r : Except RuntimeError α) : Quiet (Eval.orFail r) := by
  cases r with
  | ok a => exact pure a
  | error e => exact throw _

/-- A step that looks at the machine first, but not at its sink. -/
theorem ask {f : Machine → Eval α} (hf : ∀ m, Quiet (f m))
    (hsink : ∀ (m : Machine) (sink : Sink), f { m with sink := sink } = f m) :
    Quiet (get >>= f) := by
  intro m sink
  rw [get_bind_apply, get_bind_apply, hsink]
  exact hf m m sink

/-- The sink is left as it was. -/
theorem sink_eq (hp : Quiet p) (m : Machine) : (machineAfter (p m)).sink = m.sink := by
  have hsame : p m = onState (fun after => { after with sink := m.sink }) (p m) := hp m m.sink
  rw [hsame, machineAfter_onState]

/-- A step that does not print adds nothing to the sink. -/
theorem grows (hp : Quiet p) : Grows p := by
  intro m
  refine ⟨"", ?_⟩
  rw [hp.sink_eq, String.append_empty]

end Quiet

/-- A change of the store that yields something does not print. -/
theorem quiet_onStore (change : Store → α × Store) : Quiet (Eval.onStore change) := fun _ _ => rfl

/-- A change of the store does not print. -/
theorem quiet_modifyStore (change : Store → Store) : Quiet (Eval.modifyStore change) :=
  fun _ _ => rfl

/-- A definition does not print. -/
theorem quiet_define (x : String) (v : Value) : Quiet (Eval.define x v) := fun _ _ => rfl

/-- A new frame does not print. -/
theorem quiet_newFrame (env : Env) (bindings : Bindings) : Quiet (Eval.newFrame env bindings) :=
  quiet_onStore _

/-- The clock does not look at the sink. -/
theorem quiet_readClock : Quiet Eval.readClock := fun _ _ => rfl

/-- A variable is read without a look at the sink. -/
theorem quiet_readRef (ref : Ref) : Quiet (Eval.readRef ref) := by
  refine .ask (fun m => ?_) fun _ _ => rfl
  split
  · exact .orFault _
  · exact .orFail _

/-- A variable is written without a look at the sink. -/
theorem quiet_writeRef (ref : Ref) (v : Value) : Quiet (Eval.writeRef ref v) := by
  refine .ask (fun m => ?_) fun _ _ => rfl
  split
  · exact Quiet.bind (.orFault _) fun found => quiet_modifyStore _
  · split
    · exact quiet_modifyStore _
    · exact .fail _ _

/-- A new function does not print. -/
theorem quiet_newFunction (c : Closure) : Quiet (Eval.newFunction c) :=
  (quiet_onStore _).bind fun _ => .pure _

/-- A method is bound without a look at the sink. -/
theorem quiet_bindMethod (method : Closure) (object : Value) :
    Quiet (Eval.bindMethod method object) :=
  (quiet_newFrame _ _).bind fun _ => .pure _

/-- A property is read without a look at the sink. -/
theorem quiet_getProperty (object : Value) (name : Name) :
    Quiet (Eval.getProperty object name) := by
  cases object with
  | object id cls =>
    refine .ask (fun m => ?_) fun _ _ => rfl
    split
    · exact .pure _
    · split
      · exact (quiet_bindMethod _ _).bind quiet_newFunction
      · exact .fail _ _
  | _ => exact .fail _ _

/-- A method of the superclass is found without a look at the sink. -/
theorem quiet_superMethod (id : Nat) (method : Name) : Quiet (Eval.superMethod id method) := by
  refine .ask (fun m => ?_) fun m _ => ?_
  · split
    · exact .throw _
    · refine Quiet.bind (.orFault _) fun superclass => Quiet.bind (.orFault _) fun object => ?_
      split
      · split
        · exact (quiet_bindMethod _ _).bind quiet_newFunction
        · exact .fail _ _
      · exact .throw _
  · have hinside : ∀ (m : Machine) (sink : Sink) (d : Nat),
        Eval.objectInside { m with sink := sink } d = Eval.objectInside m d := by
      intro m sink d
      cases d <;> rfl
    simp only [hinside]

/-- A prefix operator does not print. -/
theorem quiet_applyUnary (op : UnaryOp) (line : Nat) (v : Value) :
    Quiet (Eval.applyUnary op line v) := by
  unfold Eval.applyUnary
  split
  · exact .pure _
  · exact .pure _
  · exact .fail _ _

/-- An operator on numbers does not print. -/
theorem quiet_numeric (line : Nat) (v w : Value) (apply : Float → Float → Value) :
    Quiet (Eval.numeric line v w apply) := by
  unfold Eval.numeric
  split
  · exact .pure _
  · exact .fail _ _

/-- A sum does not print. -/
theorem quiet_add (line : Nat) (v w : Value) : Quiet (Eval.add line v w) := by
  unfold Eval.add
  split
  · exact .pure _
  · exact .pure _
  · exact .fail _ _

/-- An operator between two operands does not print. -/
theorem quiet_applyBinary (op : BinaryOp) (line : Nat) (v w : Value) :
    Quiet (Eval.applyBinary op line v w) := by
  cases op with
  | add => exact quiet_add line v w
  | equal => exact .pure _
  | notEqual => exact .pure _
  | _ => exact quiet_numeric line v w _

/-- A class is declared without a look at the sink. -/
theorem quiet_declareClass (name : Name) (superclass : Option Ref) (methods : List FunDecl) :
    Quiet (Eval.declareClass name superclass methods) := by
  refine (quiet_define _ _).bind fun _ => Quiet.bind (p := Eval.readSuperclass superclass) ?_
    fun parent => ?_
  · cases superclass with
    | none => exact .pure _
    | some ref =>
      refine (quiet_readRef ref).bind fun v => ?_
      split
      · exact .pure _
      · exact .fail _ _
  · refine .ask (fun m => Quiet.bind (p := Eval.methodEnv m.env parent) ?_ fun env => ?_)
      fun _ _ => rfl
    · cases parent with
      | none => exact .pure _
      | some s => exact quiet_newFrame _ _
    · exact (quiet_onStore _).bind fun id => quiet_define _ _

/-! ### Refused prints -/

/-- What a sink takes of a piece that it refuses is the beginning of it. -/
theorem Sink.exists_rest (sink : Sink) (piece : String) :
    ∃ rest, piece = sink.partOf piece ++ rest := by
  have hprefix : piece.toList.dropLast.take sink.spare <+: piece.toList :=
    (List.take_prefix _ _).trans (List.dropLast_prefix _)
  obtain ⟨rest, hrest⟩ := hprefix
  refine ⟨String.ofList rest, ?_⟩
  rw [partOf, ← String.ofList_append, hrest, String.ofList_toList]

/-- A print that is refused. -/
structure Refusal where
  /-- The line on which it is reported. -/
  line : Nat
  /-- The text in the sink before the print. -/
  printed : String
  /-- The value that was to be printed. -/
  value : Value
  /-- The machine that the refusal leaves. -/
  machine : Machine

namespace Refusal

/-- The text of the whole print. -/
def text (refusal : Refusal) : String := refusal.value.display ++ "\n"

/-- The error that reports it. -/
def error (refusal : Refusal) : RuntimeError :=
  ⟨refusal.line, .output refusal.machine.sink.refusal⟩

end Refusal

namespace Point

/-- The two ways in which a print is refused: at its value, of which the beginning may
still go in, or at the line break after it. -/
inductive Refuses : Point → Refusal → Prop where
  /-- There is no room for the value. -/
  | value {fuel : Nat} {e : Expr} {m m' : Machine} {v : Value}
      (h : Eval.evaluate fuel e m = .ok v m') (hfull : m'.sink.refuses = true) :
      Refuses ⟨fuel + 1, .execute (.print e), m⟩
        ⟨e.line, m'.sink.accepted, v, { m' with sink := m'.sink.refuse v.display }⟩
  /-- There is room for the value, but not for the line break behind it. -/
  | lineBreak {fuel : Nat} {e : Expr} {m m' : Machine} {v : Value}
      (h : Eval.evaluate fuel e m = .ok v m') (hroom : m'.sink.refuses = false)
      (hfull : (m'.sink.take v.display).refuses = true) :
      Refuses ⟨fuel + 1, .execute (.print e), m⟩
        ⟨e.line, m'.sink.accepted, v,
          { m' with sink := (m'.sink.take v.display).refuse "\n" }⟩

/-- A point at which nothing is refused. -/
def Accepted (p : Point) : Prop := ∀ refusal, ¬ p.Refuses refusal

namespace Refuses

variable {p : Point} {refusal refusal' : Refusal}

/-- A print is refused in one way. -/
theorem unique (h : p.Refuses refusal) (h' : p.Refuses refusal') : refusal = refusal' := by
  cases h with
  | value hv hfull =>
    cases h' with
    | value hv' =>
      rw [hv] at hv'
      cases hv'
      rfl
    | lineBreak hv' hroom =>
      rw [hv] at hv'
      cases hv'
      rw [hfull] at hroom
      cases hroom
  | lineBreak hv hroom =>
    cases h' with
    | value hv' hfull =>
      rw [hv] at hv'
      cases hv'
      rw [hfull] at hroom
      cases hroom
    | lineBreak hv' =>
      rw [hv] at hv'
      cases hv'
      rfl

/-- A part of its text was taken by then. -/
theorem exists_part (h : p.Refuses refusal) : ∃ part rest, refusal.text = part ++ rest ∧
    refusal.machine.sink.accepted = refusal.printed ++ part := by
  cases h with
  | @value _ e _ m' v =>
    obtain ⟨rest, hrest⟩ := m'.sink.exists_rest v.display
    refine ⟨m'.sink.partOf v.display, rest ++ "\n", ?_, rfl⟩
    rw [Refusal.text, ← String.append_assoc, ← hrest]
  | @lineBreak _ e _ m' v =>
    -- Nothing of the line break goes in, since it is one character.
    have hnothing : (m'.sink.take v.display).partOf "\n" = "" := by
      simp [Sink.partOf]
    refine ⟨v.display, "\n", rfl, ?_⟩
    rw [Sink.refuse, hnothing, String.append_empty]
    rfl

end Refuses

end Point

/-- How a run on a sink that may be full compares with one on a sink that is not, given
the points that the first run visits. -/
inductive Truncates (visited : List Point) :
    EStateM.Result Halt Machine α → EStateM.Result Halt Machine α → Prop where
  /-- Nothing is said about a run that was cut short by its bound. -/
  | exhausted {m : Machine} {full : EStateM.Result Halt Machine α} :
      Truncates visited (.error .exhausted m) full
  /-- Nothing was refused, and both runs did the same. -/
  | same {result : EStateM.Result Halt Machine α} (hvisited : ∀ p ∈ visited, p.Accepted) :
      Truncates visited result (onState Machine.unlimited result)
  /-- One print was refused. Nothing was begun after it and its value, what was stored
  and printed is as the refusal left it, and the other run goes on behind it. -/
  | refused (earlier : List Point) {q : Point} {refusal : Refusal} {env : Env} {calls : Nat}
      {full : EStateM.Result Halt Machine α}
      (hrefuses : q.Refuses refusal) (hvisited : visited = earlier ++ q.visits)
      (hothers : ∀ p ∈ earlier ++ q.visits.tail, p.Accepted)
      (hmore : ∃ more,
        (machineAfter full).sink.accepted = refusal.printed ++ refusal.text ++ more) :
      Truncates visited
        (.error (.error refusal.error) { refusal.machine with env := env, calls := calls }) full

/-- A step on a sink that may be full and the same step on one that is not, with the
points that the first one visits from each machine. -/
structure Follows (visits : Machine → List Point) (p full : Eval α) : Prop where
  /-- The one run is the other, or it is cut off at a print that is refused. -/
  truncates : ∀ m : Machine, Truncates (visits m) (p m) (full m.unlimited)
  /-- The run that is not refused only adds to the text. -/
  grows : Grows full

/-- Points before others at which nothing is refused. -/
theorem Truncates.append {visited earlier : List Point}
    {result full : EStateM.Result Halt Machine α} (h : Truncates visited result full)
    (hearlier : ∀ p ∈ earlier, p.Accepted) : Truncates (earlier ++ visited) result full := by
  have hboth : ∀ {later : List Point}, (∀ p ∈ later, p.Accepted) →
      ∀ p ∈ earlier ++ later, p.Accepted :=
    fun hlater p hp => (List.mem_append.1 hp).elim (hearlier p) (hlater p)
  cases h with
  | exhausted => exact .exhausted
  | same hvisited => exact .same (hboth hvisited)
  | refused before hrefuses hvisited hothers hmore =>
    refine .refused (earlier ++ before) hrefuses ?_ ?_ hmore
    · rw [hvisited, List.append_assoc]
    · rw [List.append_assoc]
      exact hboth hothers

/-- A change of what is left behind that does not touch sink nor store. -/
theorem Truncates.onState {visited : List Point} {result full : EStateM.Result Halt Machine α}
    (h : Truncates visited result full) {change change' : Machine → Machine}
    (hsame : ∀ m, change' m.unlimited = (change m).unlimited)
    (hplace : ∀ m, ∃ env calls, change m = { m with env := env, calls := calls })
    (hsink : ∀ m, (change' m).sink = m.sink) :
    Truncates visited (Lox.onState change result) (Lox.onState change' full) := by
  cases h with
  | exhausted => exact .exhausted
  | same hvisited =>
    have hboth : Lox.onState change' (Lox.onState Machine.unlimited result) =
        Lox.onState Machine.unlimited (Lox.onState change result) := by
      cases result <;> exact congrArg _ (hsame _)
    rw [hboth]
    exact .same hvisited
  | @refused earlier _ refusal env calls _ hrefuses hvisited hothers hmore =>
    obtain ⟨env', calls', hchange⟩ := hplace
      { refusal.machine with env := env, calls := calls }
    rw [Lox.onState, hchange]
    refine .refused earlier hrefuses hvisited hothers ?_
    rw [machineAfter_onState, hsink]
    exact hmore

/-- A step that yields something does so on both sinks. -/
theorem Truncates.of_ok {visited : List Point} {a : α} {after : Machine}
    {full : EStateM.Result Halt Machine α} (h : Truncates visited (.ok a after) full) :
    full = .ok a after.unlimited ∧ ∀ p ∈ visited, p.Accepted := by
  cases h with
  | same hvisited => exact ⟨rfl, hvisited⟩

/-- What comes after a step that yields nothing is begun on the other sink only. -/
theorem Truncates.bind_of_error {visited : List Point} {p full : Eval α} {f full' : α → Eval β}
    {m m' : Machine} {halt : Halt} (h : Truncates visited (p m) (full m.unlimited))
    (herror : p m = .error halt m') (hgrows : ∀ a, Grows (full' a)) :
    Truncates visited ((p >>= f) m) ((full >>= full') m.unlimited) := by
  rw [herror] at h
  rw [bind_apply p f m, herror]
  generalize hfull : full m.unlimited = other at h
  cases h with
  | exhausted => exact .exhausted
  | same hvisited =>
    rw [bind_apply, hfull]
    exact .same hvisited
  | refused earlier hrefuses hvisited hothers hmore =>
    refine .refused earlier hrefuses hvisited hothers ?_
    obtain ⟨more, hmore⟩ := hmore
    rw [bind_apply, hfull]
    cases other with
    | error e after => exact ⟨more, hmore⟩
    | ok a after =>
      obtain ⟨later, hlater⟩ := hgrows a after
      refine ⟨more ++ later, hlater.trans ?_⟩
      rw [← String.append_assoc]
      exact congrArg (· ++ later) hmore

namespace Follows

variable {visits : Machine → List Point} {next : α → Machine → List Point} {p full : Eval α}
  {f full' : α → Eval β}

/-- The points that a step visits may be given in another way. -/
theorem congr {others : Machine → List Point} (h : Follows visits p full)
    (heq : ∀ m, others m = visits m) : Follows others p full :=
  ⟨fun m => heq m ▸ h.truncates m, h.grows⟩

/-- A step that does not print visits nothing by itself. -/
theorem quiet (hp : Quiet p) : Follows (fun _ => []) p p := by
  refine ⟨fun m => ?_, hp.grows⟩
  have hfull : p m.unlimited = onState Machine.unlimited (p m) := by
    rw [Machine.unlimited, hp m m.sink.unlimited]
    have hsink := hp.sink_eq m
    revert hsink
    cases p m with
    | ok a after =>
      intro hsink
      rw [onState, onState, Machine.unlimited, show after.sink = m.sink from hsink]
    | error h after =>
      intro hsink
      rw [onState, onState, Machine.unlimited, show after.sink = m.sink from hsink]
  rw [hfull]
  exact .same nofun

/-- The second step starts where the first one ended, and visits more. -/
theorem bind (hp : Follows visits p full) (hf : ∀ a, Follows (next a) (f a) (full' a)) :
    Follows (fun m => visits m ++ afterOk (p m) next) (p >>= f) (full >>= full') := by
  refine ⟨fun m => ?_, hp.grows.bind fun a => (hf a).grows⟩
  have hfirst := hp.truncates m
  cases hm : p m with
  | error halt after =>
    rw [afterOk, List.append_nil]
    exact hfirst.bind_of_error hm fun a => (hf a).grows
  | ok a after =>
    rw [hm] at hfirst
    obtain ⟨hfull, hvisited⟩ := hfirst.of_ok
    rw [bind_of_ok hm, bind_of_ok hfull, afterOk]
    exact ((hf a).truncates after).append hvisited

/-- A step that does not print, after one that may. -/
theorem bindQuiet (hp : Follows visits p full) (hf : ∀ a, Quiet (f a)) :
    Follows visits (p >>= f) (full >>= f) := by
  refine (hp.bind fun a => .quiet (hf a)).congr fun m => ?_
  cases p m with
  | ok a after => exact (List.append_nil _).symm
  | error h after => exact (List.append_nil _).symm

/-- A step that does not print, before one that may. -/
theorem quietBind {p : Eval α} {full : α → Eval β} {visits : Machine → List Point}
    (next : α → Machine → List Point) (hp : Quiet p) (hf : ∀ a, Follows (next a) (f a) (full a))
    (heq : ∀ m, visits m = afterOk (p m) next) : Follows visits (p >>= f) (p >>= full) :=
  ((quiet hp).bind hf).congr heq

/-- A step that looks at the machine first, but not at its sink. -/
theorem ask {f full : Machine → Eval α} {visits : Machine → List Point}
    (next : Machine → Machine → List Point) (hf : ∀ m, Follows (next m) (f m) (full m))
    (hsink : ∀ m : Machine, full m.unlimited = full m) (heq : ∀ m, visits m = next m m) :
    Follows visits (get >>= f) (get >>= full) := by
  refine ⟨fun m => ?_, fun m => (hf m).grows m⟩
  rw [get_bind_apply, get_bind_apply, hsink, heq]
  exact (hf m).truncates m

/-- A point at which nothing is refused is visited before the others. -/
theorem enter {others : Machine → List Point} (h : Follows visits p full)
    (point : Machine → Point) (hpoint : ∀ m, (point m).Accepted)
    (heq : ∀ m, others m = point m :: visits m) : Follows others p full := by
  refine ⟨fun m => ?_, h.grows⟩
  rw [heq, ← List.singleton_append]
  exact (h.truncates m).append (List.forall_mem_singleton.2 (hpoint m))

/-- The environment is back after a step in another one. -/
theorem inEnv (hp : Follows visits p full) (env : Env) :
    Follows (fun m => visits { m with env := env }) (Eval.inEnv env p) (Eval.inEnv env full) := by
  constructor
  · intro m
    rw [inEnv_apply, inEnv_apply]
    exact (hp.truncates { m with env := env }).onState (fun _ => rfl) (fun m => ⟨_, m.calls, rfl⟩)
      fun _ => rfl
  · intro m
    rw [inEnv_apply, machineAfter_onState]
    exact hp.grows { m with env := env }

/-- The number of calls is back after a call. -/
theorem asCall (hp : Follows visits p full) :
    Follows (fun m => visits { m with calls := m.calls + 1 }) (Eval.asCall p)
      (Eval.asCall full) := by
  constructor
  · intro m
    rw [asCall_apply, asCall_apply]
    exact (hp.truncates { m with calls := m.calls + 1 }).onState (fun _ => rfl)
      (fun m => ⟨m.env, _, rfl⟩) fun _ => rfl
  · intro m
    rw [asCall_apply, machineAfter_onState]
    exact hp.grows { m with calls := m.calls + 1 }

end Follows

end Lox

import Lox.Proofs.Shift
import Lox.Proofs.Simulation

/-!
# Machines that run shifted trees

Two machines are alike if they differ only in the lines and the identities of the
functions they hold, in distances that none of these functions uses, and in text
that the first one printed earlier. A line of the second machine is that of the
first or, in a function that stands further down, greater by a fixed number. What
the machines report differs in the same way.
-/

namespace Lox

/-! ### What ends a run -/

/-- A fault further down. -/
def Fault.shift (l : Nat) : Fault → Fault
  | .unresolvedSuper line => .unresolvedSuper (line + l)
  | fault => fault

/-- A halt further down. -/
def Halt.shift (l : Nat) : Halt → Halt
  | .error e => .error ⟨e.line + l, e.cause⟩
  | .fault f => .fault (f.shift l)
  | .exhausted => .exhausted

/-- A halt that is moved by no lines is the same. -/
theorem Halt.shift_zero (h : Halt) : h.shift 0 = h := by
  cases h with
  | error error => rfl
  | fault fault => cases fault <;> rfl
  | exhausted => rfl

/-! ### Text printed earlier -/

namespace Sink

/-- A sink that had taken some text before. -/
def behind (earlier : String) (sink : Sink) : Sink :=
  { sink with accepted := earlier ++ sink.accepted }

/-- A sink that had taken nothing before is as it was. -/
theorem behind_empty (sink : Sink) : sink.behind "" = sink := by
  unfold behind
  rw [String.empty_append]

/-- A piece is taken behind the earlier text. -/
theorem take_behind (earlier : String) (sink : Sink) (piece : String) :
    (sink.behind earlier).take piece = (sink.take piece).behind earlier := by
  unfold behind take
  rw [String.append_assoc]

/-- A piece is refused as it is without the earlier text, since how much room there is
stays the same. -/
theorem refuse_behind (earlier : String) (sink : Sink) (piece : String) :
    (sink.behind earlier).refuse piece = (sink.refuse piece).behind earlier := by
  unfold behind refuse partOf
  rw [String.append_assoc]

end Sink

/-- What two runs have in common: the identities below `bound` have the same
distances under their names in the second run, lines may differ by `offset`, and the
first run comes after another that printed `earlier`. -/
structure Pairing where
  /-- A number that is greater than all identities in what is run. -/
  bound : Nat
  /-- By how many lines things may be further down in the second run. -/
  offset : Nat
  /-- The identities in the second run. -/
  rename : Nat → Nat
  /-- The text that was printed before the first run's own. -/
  earlier : String
  /-- The distances of the first run. -/
  left : Distances
  /-- The distances of the second run. -/
  right : Distances
  /-- The distances are the same under the identities that correspond. -/
  agree : ∀ id, id < bound → right[rename id]? = left[id]?

namespace Pairing

variable (P : Pairing)

/-- By how much something may be further down. -/
def IsOffset (l : Nat) : Prop := l = 0 ∨ l = P.offset

/-- Lines that correspond. -/
def Lines (line line' : Nat) : Prop := ∃ l, P.IsOffset l ∧ line' = line + l

/-- Halts that correspond. -/
def Halts (h h' : Halt) : Prop := ∃ l, P.IsOffset l ∧ h' = h.shift l

/-- Closures that correspond. -/
structure Closures (c c' : Closure) : Prop where
  /-- Their environments are the same. -/
  env : c'.env = c.env
  /-- Both are initializers or none is. -/
  isInitializer : c'.isInitializer = c.isInitializer
  /-- The identities in the first one are among those that correspond. -/
  bound : FunDecl.bound c.decl ≤ P.bound
  /-- The declaration of the second one is that of the first, renamed and further down. -/
  decl : ∃ l, P.IsOffset l ∧ c'.decl = FunDecl.shift P.rename l c.decl

/-- Values that correspond. -/
abbrev Values : Value → Value → Prop := Value.Rel P.Closures P.Closures

/-- Stores that correspond. -/
structure Stores (s s' : Store) : Prop where
  /-- The values of variables correspond. -/
  frames : List.Forall₂ (Bindings.Rel P.Values) s.frames.toList s'.frames.toList
  /-- The values of fields correspond. -/
  fields : List.Forall₂ (Bindings.Rel P.Values) s.fields.toList s'.fields.toList
  /-- The next identity is the same. -/
  nextId : s'.nextId = s.nextId

/-- Machines that are alike. -/
structure Alike (m m' : Machine) : Prop where
  /-- The stores correspond. -/
  store : P.Stores m.store m'.store
  /-- The environment in effect is the same. -/
  env : m'.env = m.env
  /-- As many calls are in progress. -/
  calls : m'.calls = m.calls
  /-- The output is the same behind the earlier text. -/
  sink : m.sink = m'.sink.behind P.earlier
  /-- The clock is the same. -/
  clock : m'.clock = m.clock
  /-- The first machine has the distances of the first run. -/
  left : m.distances = P.left
  /-- The second machine has the distances of the second run. -/
  right : m'.distances = P.right

variable {P}

/-- A line corresponds to itself. -/
theorem Lines.refl (line : Nat) : P.Lines line line := ⟨0, .inl rfl, rfl⟩

/-- A line corresponds to the one that is further down by an offset of the pairing. -/
theorem Lines.of {l : Nat} (hl : P.IsOffset l) (line : Nat) : P.Lines line (line + l) :=
  ⟨l, hl, rfl⟩

/-- Errors on lines that correspond, with the same cause, correspond. -/
theorem Halts.error {line line' : Nat} (h : P.Lines line line') (cause : RuntimeCause) :
    P.Halts (.error ⟨line, cause⟩) (.error ⟨line', cause⟩) := by
  obtain ⟨l, hl, rfl⟩ := h
  exact ⟨l, hl, rfl⟩

/-- A halt corresponds to itself. -/
theorem Halts.refl (h : Halt) : P.Halts h h :=
  ⟨0, .inl rfl, h.shift_zero.symm⟩

/-- Closures that correspond have the same name and take as many arguments, so they print
alike. -/
theorem Closures.alike {c c' : Closure} (h : P.Closures c c') : c.Alike c' := by
  obtain ⟨⟨name, params, body⟩, env, isInitializer⟩ := c
  obtain ⟨decl', env', isInitializer'⟩ := c'
  obtain ⟨l, -, hdecl⟩ := h.decl
  cases hdecl
  refine ⟨rfl, ?_, h.isInitializer.symm⟩
  exact (List.length_map _).symm

/-- Machines that had printed the same have the same output. -/
theorem Alike.sink_eq (hearlier : P.earlier = "") {m m' : Machine} (h : P.Alike m m') :
    m'.sink = m.sink := by
  rw [h.sink, hearlier, Sink.behind_empty]

/-! ### Stores -/

namespace Stores

variable {s s' : Store} {v v' : Value}

/-- Frames at the same index have values that correspond under the same names. -/
theorem frame (h : P.Stores s s') (i : Nat) :
    Bindings.Rel P.Values (s.frame i) (s'.frame i) :=
  Bindings.Rel.getD h.frames i

/-- A variable that is given values that correspond leaves stores that correspond. -/
theorem bindIn (h : P.Stores s s') (i : Nat) (x : String) (hv : P.Values v v') :
    P.Stores (s.bindIn i x v) (s'.bindIn i x v') :=
  ⟨Bindings.Rel.modify h.frames i x hv, h.fields, h.nextId⟩

/-- A field that is given values that correspond leaves stores that correspond. -/
theorem setField (h : P.Stores s s') (i : Nat) (x : String) (hv : P.Values v v') :
    P.Stores (s.setField i x v) (s'.setField i x v') :=
  ⟨h.frames, Bindings.Rel.modify h.fields i x hv, h.nextId⟩

/-- A new frame has the same index on both sides. -/
theorem newFrame (h : P.Stores s s') (env : Env) {b b' : Bindings}
    (hb : Bindings.Rel P.Values b b') :
    (s'.newFrame env b').1 = (s.newFrame env b).1 ∧
      P.Stores (s.newFrame env b).2 (s'.newFrame env b').2 := by
  have hsize : s'.frames.size = s.frames.size := (Bindings.Rel.size_eq h.frames).symm
  exact ⟨congrArg (· :: env) hsize, Bindings.Rel.push h.frames hb, h.fields, h.nextId⟩

/-- A new object has the same index on both sides. -/
theorem newObject (h : P.Stores s s') :
    s'.newObject.1 = s.newObject.1 ∧ P.Stores s.newObject.2 s'.newObject.2 :=
  ⟨(Bindings.Rel.size_eq h.fields).symm, h.frames, Bindings.Rel.push h.fields .nil, h.nextId⟩

/-- A new function is given the same identity on both sides. -/
theorem freshId (h : P.Stores s s') :
    s'.freshId.1 = s.freshId.1 ∧ P.Stores s.freshId.2 s'.freshId.2 :=
  ⟨h.nextId, h.frames, h.fields, congrArg (· + 1) h.nextId⟩

/-- A name that is defined with values that correspond leaves stores that correspond. -/
theorem define (h : P.Stores s s') (env : Env) (x : String) (hv : P.Values v v') :
    P.Stores (s.define env x v) (s'.define env x v') := by
  cases env with
  | nil => exact h
  | cons i rest => exact h.bindIn i x hv

/-- A frame some steps out has a name on both sides or on none. -/
theorem frameAt (h : P.Stores s s') (env : Env) (d : Nat) (x : String) :
    (∃ i v v', s.frameAt env d x = .ok (i, v) ∧ s'.frameAt env d x = .ok (i, v') ∧
        P.Values v v') ∨
      ∃ fault, s.frameAt env d x = .error fault ∧ s'.frameAt env d x = .error fault := by
  unfold Store.frameAt
  cases env.drop d with
  | nil => exact .inr ⟨_, rfl, rfl⟩
  | cons i rest =>
    dsimp only
    rcases ((h.frame i).get? x).inversion with ⟨hs, hs'⟩ | ⟨v, v', hs, hs', hv⟩
    · rw [hs, hs']
      exact .inr ⟨_, rfl, rfl⟩
    · rw [hs, hs']
      exact .inl ⟨i, v, v', rfl, rfl, hv⟩

/-- A variable at a distance has values that correspond, or the same fault on both sides. -/
theorem getAt (h : P.Stores s s') (env : Env) (d : Nat) (x : String) :
    (∃ v v', s.getAt env d x = .ok v ∧ s'.getAt env d x = .ok v' ∧ P.Values v v') ∨
      ∃ fault, s.getAt env d x = .error fault ∧ s'.getAt env d x = .error fault := by
  unfold Store.getAt
  rcases h.frameAt env d x with ⟨i, v, v', hs, hs', hv⟩ | ⟨fault, hs, hs'⟩
  · rw [hs, hs']
    exact .inl ⟨v, v', rfl, rfl, hv⟩
  · rw [hs, hs']
    exact .inr ⟨fault, rfl, rfl⟩

/-- A global variable has values that correspond, or is undefined on both sides. -/
theorem get?_globalEnv (h : P.Stores s s') (x : String) :
    OptionRel P.Values (s.get? globalEnv x) (s'.get? globalEnv x) := by
  rw [Store.get?_globalEnv, Store.get?_globalEnv]
  exact (h.frame 0).get? x

/-- A name is held by the same frame on both sides. -/
theorem holder? (h : P.Stores s s') (env : Env) (x : String) :
    s'.holder? env x = s.holder? env x := by
  unfold Store.holder?
  congr 1
  funext i
  rcases ((h.frame i).get? x).inversion with ⟨hs, hs'⟩ | ⟨v, v', hs, hs', -⟩
  · rw [hs, hs']
  · rw [hs, hs']
    rfl

end Stores

/-! ### Pairings that allow more -/

section More

variable {Q : Pairing}

/-- With no offset at all, a line is moved by none in any other pairing. -/
theorem IsOffset.of_zero (hoffset : P.offset = 0) {l : Nat} (hl : P.IsOffset l) :
    Q.IsOffset l := by
  rcases hl with hl | hl
  · exact .inl hl
  · exact .inl (hl.trans hoffset)

/-- Closures that stand where they stood correspond in every greater pairing that
renames the identities seen so far in the same way. -/
theorem Closures.mono (hbound : P.bound ≤ Q.bound) (hoffset : P.offset = 0)
    (hrename : ∀ id, id < P.bound → P.rename id = Q.rename id) {c c' : Closure}
    (h : P.Closures c c') : Q.Closures c c' := by
  obtain ⟨l, hl, hdecl⟩ := h.decl
  refine ⟨h.env, h.isInitializer, Nat.le_trans h.bound hbound, l, hl.of_zero hoffset, ?_⟩
  rw [hdecl]
  exact FunDecl.shift_congr l hrename c.decl h.bound

/-- Stores whose closures stand where they stood correspond in every greater pairing as well. -/
theorem Stores.mono (hbound : P.bound ≤ Q.bound) (hoffset : P.offset = 0)
    (hrename : ∀ id, id < P.bound → P.rename id = Q.rename id) {s s' : Store}
    (h : P.Stores s s') : Q.Stores s s' := by
  have hclosures : ∀ c c', P.Closures c c' → Q.Closures c c' :=
    fun _ _ hc => hc.mono hbound hoffset hrename
  have hbindings : ∀ b b', Bindings.Rel P.Values b b' → Bindings.Rel Q.Values b b' :=
    fun _ _ hb => hb.mono fun _ _ hv => hv.mono hclosures hclosures
  exact ⟨h.frames.imp hbindings, h.fields.imp hbindings, h.nextId⟩

end More

/-- The machine that nothing was run on has no closures. -/
theorem stores_initial (sink : Sink) (clock : Nat → Float) :
    P.Stores (Machine.initial sink clock).store (Machine.initial sink clock).store :=
  ⟨.cons (.cons ⟨rfl, .native 0 .clock⟩ .nil) .nil, .nil, rfl⟩

end Pairing

end Lox

import Lox.Proofs.Lexical.Related

/-!
# Steps of related machines

A step of the machine with frames and distances and a step of the machine with
cells simulate each other if, started on related machines, they end on related
machines: with values that correspond, or with the same error of the program,
never with a fault of the first. Here are the steps that do not run a body:
names, declarations, objects, the binding of methods.
-/

namespace Lox

open Layout

/-- Two steps that match when started on related machines in the environment
`env`. The predicate `G` says how the layout may have grown at the end. -/
def Sim {α β : Type} (table : Table) (w : Layout) (env : Env) (G : Layout → Prop)
    (A : Layout → α → β → Prop) (p : Eval α) (q : Lexical β) : Prop :=
  ∀ m l, m.env = env → Related table w m l →
    Matches
      (fun a m' b l' => ∃ w', G w' ∧ Related table w' m' l' ∧ m'.env = env ∧ A w' a b)
      (fun h m' h' l' => (∃ e, h = .error e ∧ h' = .error e) ∧
        ∃ w', G w' ∧ Related table w' m' l' ∧ m'.env = env)
      (p m) (q l)

namespace Sim

variable {α β α' β' : Type} {table : Table} {w : Layout} {env : Env} {G G' : Layout → Prop}
  {A : Layout → α → β → Prop} {B : Layout → α' → β' → Prop} {p : Eval α} {q : Lexical β}

/-- Steps that change nothing and yield what corresponds match. -/
theorem pure {a : α} {b : β} (hG : G w) (h : A w a b) : Sim table w env G A (pure a) (pure b) :=
  fun _ _ henv hrel => ⟨w, hG, hrel, henv, h⟩

/-- Steps match one after the other; the second one is known to start in a layout that has
grown. -/
theorem bind {f : α → Eval α'} {g : β → Lexical β'} (h : Sim table w env G A p q)
    (hf : ∀ w' a b, G w' → A w' a b → Sim table w' env G B (f a) (g b)) :
    Sim table w env G B (p >>= f) (q >>= g) := by
  intro m l henv hrel
  refine (h m l henv hrel).bind ?_
  intro a m' b l' hok
  obtain ⟨w', hG, hrel', henv', hA⟩ := hok
  exact hf w' a b hG hA m' l' henv' hrel'

/-- Less may be said about how the layout has grown and about what is yielded. -/
theorem weaken {A' : Layout → α → β → Prop} (h : Sim table w env G A p q)
    (hG : ∀ w', G w' → G' w') (hA : ∀ w' a b, G w' → A w' a b → A' w' a b) :
    Sim table w env G' A' p q := by
  intro m l henv hrel
  refine (h m l henv hrel).mono ?_ ?_
  · intro a m' b l' hok
    obtain ⟨w', hw', hrel', henv', hab⟩ := hok
    exact ⟨w', hG w' hw', hrel', henv', hA w' a b hw' hab⟩
  · intro h m' h' l' hhalt
    obtain ⟨he, w', hw', hrel', henv'⟩ := hhalt
    exact ⟨he, w', hG w' hw', hrel', henv'⟩

/-- The first of two steps may promise more about the layout than both do. -/
theorem seq {f : α → Eval α'} {g : β → Lexical β'} (h : Sim table w env G A p q)
    (hG : ∀ w', G w' → G' w')
    (hf : ∀ w' a b, G w' → A w' a b → Sim table w' env G' B (f a) (g b)) :
    Sim table w env G' B (p >>= f) (q >>= g) := by
  have hfirst : Sim table w env G' (fun w' a b => G w' ∧ A w' a b) p q :=
    h.weaken hG fun _ _ _ hw' hA => ⟨hw', hA⟩
  exact hfirst.bind fun w' a b _ hA => hf w' a b hA.1 hA.2

/-- The first of two steps keeps the layout as it is. -/
theorem keep {f : α → Eval α'} {g : β → Lexical β'} (h : Sim table w env (Eq w) A p q)
    (hG : G w) (hf : ∀ a b, A w a b → Sim table w env G B (f a) (g b)) :
    Sim table w env G B (p >>= f) (q >>= g) := by
  refine h.seq (fun w' hw => hw ▸ hG) ?_
  intro w' a b hw hA
  cases hw
  exact hf a b hA

/-- A step that looks at its machine first. -/
theorem ask {f : Machine → Eval α} (h : ∀ m, m.env = env → Sim table w env G A (f m) q) :
    Sim table w env G A (get >>= f) q :=
  fun m l henv hrel => h m henv m l henv hrel

/-- A later growth of the layout is a growth from the start. -/
theorem after {k : Nat} {w' : Layout} (h : Sim table w' env (Grows k w') A p q)
    (hw : Grows k w w') : Sim table w' env (Grows k w) A p q :=
  h.weaken (fun _ hw' => hw.trans hw') fun _ _ _ _ hA => hA

/-- Steps that change nothing match on related machines, when they match at all. -/
theorem steady (h : Steady (· = ·) (A w) p q) (hG : G w) : Sim table w env G A p q := by
  intro m l henv hrel
  rcases h m l with ⟨a, b, hp, hq, hab⟩ | ⟨line, line', cause, rfl, hp, hq⟩
  · rw [hp, hq]
    exact ⟨w, hG, hrel, henv, hab⟩
  · rw [hp, hq]
    exact ⟨⟨⟨line, cause⟩, rfl, rfl⟩, w, hG, hrel, henv⟩

/-- The same error of the program matches. -/
theorem fail (hG : G w) (line : Nat) (cause : RuntimeCause) :
    Sim table w env G A (Eval.fail line cause) (Eval.fail line cause) :=
  fun _ _ henv hrel => ⟨⟨⟨line, cause⟩, rfl, rfl⟩, w, hG, hrel, henv⟩

/-- A run out of fuel matches everything: nothing is asked of the other machine then. -/
theorem exhausted : Sim table w env G A (throw .exhausted) q :=
  fun m l _ _ => Matches.exhausted m (q l)

/-- A step in another environment. -/
theorem inEnv {env' : Env} (h : Sim table w env' G A p q) :
    Sim table w env G A (Eval.inEnv env' p) q := by
  intro m l henv hrel
  have hinner : Related table w { m with env := env' } l := { hrel with }
  rw [inEnv_apply, ← onState_id (q l)]
  refine (h _ l rfl hinner).onState _ _ ?_ ?_
  · intro a m' b l' hok
    obtain ⟨w', hG, hrel', -, hA⟩ := hok
    exact ⟨w', hG, { hrel' with }, henv, hA⟩
  · intro h m' h' l' hhalt
    obtain ⟨he, w', hG, hrel', -⟩ := hhalt
    exact ⟨he, w', hG, { hrel' with }, henv⟩

/-- A step as one more call. -/
theorem asCall (h : Sim table w env G A p q) :
    Sim table w env G A (Eval.asCall p) (Lexical.asCall q) := by
  intro m l henv hrel
  have hinner : Related table w { m with calls := m.calls + 1 } { l with calls := l.calls + 1 } :=
    { hrel with calls := congrArg (· + 1) hrel.calls }
  have hright : Lexical.asCall q l = onState (fun after => { after with calls := after.calls - 1 })
      (q { l with calls := l.calls + 1 }) := by
    unfold Lexical.asCall
    cases q { l with calls := l.calls + 1 } <;> rfl
  rw [asCall_apply, hright]
  have hmatch := h { m with calls := m.calls + 1 } { l with calls := l.calls + 1 } henv hinner
  refine hmatch.onState _ _ ?_ ?_
  · intro a m' b l' hok
    obtain ⟨w', hG, hrel', henv', hA⟩ := hok
    exact ⟨w', hG, { hrel' with calls := congrArg (· - 1) hrel'.calls }, henv', hA⟩
  · intro h m' h' l' hhalt
    obtain ⟨he, w', hG, hrel', henv'⟩ := hhalt
    exact ⟨he, w', hG, { hrel' with calls := congrArg (· - 1) hrel'.calls }, henv'⟩

end Sim

/-! ### Names -/

section Names

variable {table : Table} {K : Known} {w : Layout} {Γ : Context} {env : Env} {locals : Locals}
  {G : Layout → Prop}

/-- A name that is at its distance is found in the frame there. -/
theorem frameAt_eq {store : Store} {d f : Nat} {x : String} {v : Value} (hf : env[d]? = some f)
    (hv : (store.frame f).get? x = some v) : store.frameAt env d x = .ok (f, v) := by
  have hdrop : env.drop d = f :: env.drop (d + 1) := by
    obtain ⟨hlt, hget⟩ := List.getElem?_eq_some_iff.1 hf
    rw [List.drop_eq_getElem_cons hlt, hget]
  rw [Store.frameAt, hdrop]
  simp only [hv]

/-- A variable that is at its distance is read there. -/
theorem getAt_eq {store : Store} {d f : Nat} {x : String} {v : Value} (hf : env[d]? = some f)
    (hv : (store.frame f).get? x = some v) : store.getAt env d x = .ok v := by
  rw [Store.getAt, frameAt_eq hf hv]
  rfl

/-! What single steps do, case by case. -/

section Cases

variable {m : Machine} {l : LexicalMachine} {ref : Ref} {name : Name} {v : Value}
  {v' : Value Locals} {d f c : Nat}

/-- A reference with a distance is read at it. -/
theorem readRef_of_distance (hd : m.distances[ref.id]? = some d)
    (hv : m.store.getAt m.env d ref.name.text = .ok v) : Eval.readRef ref m = .ok v m := by
  rw [Eval.readRef, get_bind_apply, hd]
  dsimp only
  rw [hv]
  rfl

/-- A reference without a distance is read as a global. -/
theorem readRef_of_global (hd : m.distances[ref.id]? = none)
    (hv : m.store.get? globalEnv ref.name.text = some v) : Eval.readRef ref m = .ok v m := by
  rw [Eval.readRef, get_bind_apply, hd]
  dsimp only
  rw [Store.read, hv]
  rfl

/-- A reference without a distance to a name that no global has is in error. -/
theorem readRef_of_undefined (hd : m.distances[ref.id]? = none)
    (hv : m.store.get? globalEnv ref.name.text = none) :
    Eval.readRef ref m =
      .error (.error ⟨ref.name.line, .undefinedVariable ref.name.text⟩) m := by
  rw [Eval.readRef, get_bind_apply, hd]
  dsimp only
  rw [Store.read, hv]
  rfl

/-- A reference with a distance is written at it. -/
theorem writeRef_of_distance (hd : m.distances[ref.id]? = some d) {u : Value}
    (hf : m.store.frameAt m.env d ref.name.text = .ok (f, u)) :
    Eval.writeRef ref v m = .ok () { m with store := m.store.bindIn f ref.name.text v } := by
  rw [Eval.writeRef, get_bind_apply, hd]
  dsimp only
  rw [hf]
  rfl

/-- A reference without a distance is written as a global. -/
theorem writeRef_of_global (hd : m.distances[ref.id]? = none)
    (hf : m.store.holder? globalEnv ref.name.text = some f) :
    Eval.writeRef ref v m = .ok () { m with store := m.store.bindIn f ref.name.text v } := by
  rw [Eval.writeRef, get_bind_apply, hd]
  dsimp only
  rw [hf]
  rfl

/-- A reference without a distance to a name that no global has is not written. -/
theorem writeRef_of_undefined (hd : m.distances[ref.id]? = none)
    (hf : m.store.holder? globalEnv ref.name.text = none) :
    Eval.writeRef ref v m =
      .error (.error ⟨ref.name.line, .undefinedVariable ref.name.text⟩) m := by
  rw [Eval.writeRef, get_bind_apply, hd]
  dsimp only
  rw [hf]
  rfl

/-- A name in the map is read from its cell. -/
theorem readName_of_cell (hc : locals.cell? name.text = some c) (hv : l.cells[c]? = some v') :
    Lexical.readName locals name l = .ok v' l := by
  have hget : l.cells.getD c .nil = v' := by
    rw [Array.getD_eq_getD_getElem?, hv]
    rfl
  rw [Lexical.readName, get_bind_apply, hc, ← hget]
  rfl

/-- A name that the map has not is read as a global. -/
theorem readName_of_global (hc : locals.cell? name.text = none)
    (hv : l.globals.get? name.text = some v') : Lexical.readName locals name l = .ok v' l := by
  rw [Lexical.readName, get_bind_apply, hc]
  dsimp only
  rw [hv]
  rfl

/-- A name that neither the map nor the globals have is in error. -/
theorem readName_of_undefined (hc : locals.cell? name.text = none)
    (hv : l.globals.get? name.text = none) :
    Lexical.readName locals name l =
      .error (.error ⟨name.line, .undefinedVariable name.text⟩) l := by
  rw [Lexical.readName, get_bind_apply, hc]
  dsimp only
  rw [hv]
  rfl

/-- A name in the map is written to its cell. -/
theorem writeName_of_cell (hc : locals.cell? name.text = some c) :
    Lexical.writeName locals name v' l =
      .ok () { l with cells := l.cells.setIfInBounds c v' } := by
  rw [Lexical.writeName, hc]
  rfl

/-- A name that the map has not is written as a global. -/
theorem writeName_of_global (hc : locals.cell? name.text = none)
    (hv : (l.globals.get? name.text).isSome) :
    Lexical.writeName locals name v' l =
      .ok () { l with globals := l.globals.insert name.text v' } := by
  rw [Lexical.writeName, hc]
  dsimp only
  rw [get_bind_apply, if_pos hv]
  rfl

/-- A name that neither the map nor the globals have is not written. -/
theorem writeName_of_undefined (hc : locals.cell? name.text = none)
    (hv : l.globals.get? name.text = none) :
    Lexical.writeName locals name v' l =
      .error (.error ⟨name.line, .undefinedVariable name.text⟩) l := by
  rw [Lexical.writeName, hc]
  dsimp only
  rw [get_bind_apply, hv]
  rfl

/-- A name in the map is defined in its cell. -/
theorem define_of_cell {x : String} (hc : locals.cell? x = some c) :
    Lexical.define locals x v' l = .ok () { l with cells := l.cells.setIfInBounds c v' } := by
  rw [Lexical.define, hc]
  rfl

/-- The only frame of the global environment has a name or not. -/
theorem holder?_globalEnv (store : Store) (x : String) :
    store.holder? globalEnv x = if ((store.frame 0).get? x).isSome then some 0 else none := by
  simp only [Store.holder?, globalEnv, List.find?_cons, List.find?_nil]
  split <;> simp_all

end Cases

/-- The value of a name that a place sees is in its frame and in its cell. -/
theorem Covers.value (hcovers : Covers w Γ env locals) {m : Machine} {l : LexicalMachine}
    (hrel : Related table w m l) {x : String} {d : Nat} (hd : Γ.distance? x = some d) :
    ∃ v v', m.store.getAt env d x = .ok v ∧
      (∀ line, Lexical.readName locals ⟨x, line⟩ l = .ok v' l) ∧ ValueRel table w v v' := by
  obtain ⟨f, c, hf, hc, hl⟩ := hcovers.found hd
  obtain ⟨v, v', hv, hv', hvv⟩ := hrel.locals hc
  exact ⟨v, v', getAt_eq hf hv, fun line => readName_of_cell hl hv', hvv⟩

/-- A variable is read alike: its distance leads to the frame whose cell the map has. -/
theorem sim_readRef (hG : G w) (hcovers : Covers w Γ env locals) (hK : K.Within table)
    {ref : Ref} (hk : K ref.id (Γ.distance? ref.name.text)) :
    Sim table w env G (ValueRel table) (Eval.readRef ref) (Lexical.readName locals ref.name) := by
  intro m l henv hrel
  have hdistance := hrel.distance? hK hk
  cases hd : Γ.distance? ref.name.text with
  | some d =>
    obtain ⟨v, v', hv, hv', hvv⟩ := hcovers.value hrel hd
    rw [hd] at hdistance
    rw [← henv] at hv
    rw [readRef_of_distance hdistance hv, hv' ref.name.line]
    exact ⟨w, hG, hrel, henv, hvv⟩
  | none =>
    rw [hd] at hdistance
    have hlocal := hcovers.absent hd
    rcases (hrel.globals.get? ref.name.text).inversion with ⟨hm, hl⟩ | ⟨v, v', hm, hl, hvv⟩
    · rw [← Store.get?_globalEnv] at hm
      rw [readRef_of_undefined hdistance hm, readName_of_undefined hlocal hl]
      exact ⟨⟨_, rfl, rfl⟩, w, hG, hrel, henv⟩
    · rw [← Store.get?_globalEnv] at hm
      rw [readRef_of_global hdistance hm, readName_of_global hlocal hl]
      exact ⟨w, hG, hrel, henv, hvv⟩

/-- A variable is written alike: its distance leads to the frame whose cell the map has. -/
theorem sim_writeRef (hG : G w) (hcovers : Covers w Γ env locals) (hK : K.Within table)
    {ref : Ref} (hk : K ref.id (Γ.distance? ref.name.text)) (hplain : IsPlain ref.name.text)
    {v : Value} {v' : Value Locals} (hvv : ValueRel table w v v') :
    Sim table w env G (fun _ _ _ => True) (Eval.writeRef ref v)
      (Lexical.writeName locals ref.name v') := by
  intro m l henv hrel
  have hdistance := hrel.distance? hK hk
  cases hd : Γ.distance? ref.name.text with
  | some d =>
    obtain ⟨f, c, hf, hc, hl⟩ := hcovers.found hd
    obtain ⟨u, u', hu, -, -⟩ := hrel.locals hc
    rw [hd] at hdistance
    rw [← henv] at hf
    rw [writeRef_of_distance hdistance (frameAt_eq hf hu), writeName_of_cell hl]
    exact ⟨w, hG, hrel.assign hc hplain.2 hvv, henv, trivial⟩
  | none =>
    rw [hd] at hdistance
    have hlocal := hcovers.absent hd
    have hholder := holder?_globalEnv m.store ref.name.text
    rcases (hrel.globals.get? ref.name.text).inversion with ⟨hm, hl⟩ | ⟨u, u', hm, hl, -⟩
    · rw [hm] at hholder
      rw [writeRef_of_undefined hdistance hholder, writeName_of_undefined hlocal hl]
      exact ⟨⟨_, rfl, rfl⟩, w, hG, hrel, henv⟩
    · rw [hm] at hholder
      rw [writeRef_of_global hdistance hholder, writeName_of_global hlocal (by rw [hl]; rfl)]
      exact ⟨w, hG, hrel.defineGlobal hvv, henv, trivial⟩

end Names

/-! ### Declarations -/

section Declarations

variable {table : Table} {w : Layout} {Γ : Context} {env : Env} {locals : Locals} {x : String}

/-- The map after a declaration outside of the top level. -/
theorem Stands.define {f : Nat} {rest : Env} (h : Stands w Γ env locals) (hx : Γ.isTaken x = false)
    (hs : Γ.scopes ≠ []) (henv : env = f :: rest) (hf : 0 < f ∧ f < w.frames) :
    w.cell f x = none ∧ Stands (w.add f x hf) (Γ.define x) env (locals.extend x w.cells) := by
  subst henv
  obtain ⟨g, rest', names, henv, hlocals, -, hexact⟩ := h.nested hs
  cases henv
  have hfree : w.cell f x = none := by
    cases hc : w.cell f x with
    | none => rfl
    | some c =>
      rw [hexact hc] at hx
      cases hx
  obtain ⟨scopes, b, e⟩ := Γ
  cases scopes with
  | nil => exact absurd rfl hs
  | cons scope scopes =>
    refine ⟨hfree, h.toCovers.define hf hfree, nofun, fun _ => ?_⟩
    refine ⟨f, rest, _, rfl, rfl, hf, fun {y c} hc => ?_⟩
    change (scope.define x).has y = true
    rw [Scope.has_define]
    by_cases hy : y = x
    · rw [hy, beq_self_eq_true, Bool.true_or]
    · rw [cell_add_of_ne w hf fun h => hy h.2] at hc
      rw [show scope.has y = true from hexact hc, Bool.or_true]

/-- A definition goes to the innermost frame. -/
theorem define_eq {m : Machine} {f : Nat} {rest : Env} (henv : m.env = f :: rest) {v : Value} :
    Eval.define x v m = .ok () { m with store := m.store.bindIn f x v } := by
  change EStateM.Result.ok () { m with store := m.store.define m.env x v } = _
  rw [henv]
  rfl

/-- A name that is introduced in a scope is given a new cell, with `nil` in it. -/
theorem introduce_nested {names : List (String × Nat)} (l : LexicalMachine) :
    Lexical.introduce (some names) x l =
      .ok (Locals.extend (some names) x l.cells.size) { l with cells := l.cells.push .nil } := rfl

/-- The map has the cell that was put into it last. -/
theorem cell?_extend_self (locals : Locals) (x : String) (c : Nat) :
    (locals.extend x c).cell? x = some c := by
  simp [Locals.cell?, Locals.extend]

/-- A cell that was just added may be written at once. -/
theorem setIfInBounds_push (cells : Array (Value Locals)) (u v : Value Locals) :
    (cells.push u).setIfInBounds cells.size v = cells.push v := by
  apply Array.ext'
  simp

/-- A declaration with a value that is there before the name. -/
theorem sim_declare (hst : Stands w Γ env locals) (hadmits : Γ.Admits x) {v : Value}
    {v' : Value Locals} (hv : ValueRel table w v v') :
    Sim table w env (Grows env.innermost w) (fun w' _ after => Stands w' (Γ.define x) env after)
      (Eval.define x v) (Lexical.declare locals x v') := by
  refine fun m l henv hrel => ?_
  by_cases hs : Γ.scopes = []
  · obtain ⟨rfl, rfl⟩ := hst.top hs
    have hΓ : Γ.define x = Γ := by
      rw [Context.define, Context.onInnermost, hs]
    rw [define_eq henv, hΓ]
    exact ⟨w, .refl _ _, hrel.defineGlobal hv, henv, hst⟩
  · obtain ⟨f, rest, names, henv', hlocals, hf, -⟩ := hst.nested hs
    obtain ⟨hfree, hst'⟩ := hst.define hadmits.free hs henv' hf
    subst henv' hlocals
    have hright : Lexical.declare (some names) x v' l =
        .ok (Locals.extend (some names) x w.cells) { l with cells := l.cells.push v' } := by
      rw [Lexical.declare, bind_apply, introduce_nested, hrel.cells]
      simp only [bind_apply, define_of_cell (cell?_extend_self _ _ _)]
      rw [← hrel.cells, setIfInBounds_push]
      rfl
    have hgrows := Grows.add w hf hfree
    rw [define_eq henv, hright]
    exact ⟨_, hgrows, hrel.declare hf hfree hadmits.plain.2 (hv.grows hgrows), henv, hst'⟩

/-- A name that was just declared gets another value. -/
theorem sim_redefine (hst : Stands w (Γ.define x) env locals) (hplain : IsPlain x) {v : Value}
    {v' : Value Locals} (hv : ValueRel table w v v') {G : Layout → Prop} (hG : G w) :
    Sim table w env G (fun _ _ _ => True) (Eval.define x v) (Lexical.define locals x v') := by
  refine fun m l henv hrel => ?_
  obtain ⟨scopes, b, e⟩ := Γ
  cases scopes with
  | nil =>
    obtain ⟨rfl, rfl⟩ := hst.top rfl
    rw [define_eq henv]
    exact ⟨w, hG, hrel.defineGlobal hv, henv, trivial⟩
  | cons scope scopes =>
    have hzero : Context.distance? (Context.define ⟨scope :: scopes, b, e⟩ x) x = some 0 := by
      change Context.distance? ⟨scope.define x :: scopes, b, e⟩ x = some 0
      rw [Context.distance?_cons, Scope.has_define, beq_self_eq_true, Bool.true_or]
      rfl
    obtain ⟨f, c, hf, hc, hl⟩ := hst.found hzero
    obtain ⟨rest, rfl⟩ : ∃ rest, env = f :: rest := by
      cases env with
      | nil => cases hf
      | cons g rest =>
        cases hf
        exact ⟨rest, rfl⟩
    rw [define_eq henv, define_of_cell hl]
    exact ⟨w, hG, hrel.assign hc hplain.2 hv, henv, trivial⟩

end Declarations

/-! ### Output, the clock and objects -/

section Objects

variable {table : Table} {w : Layout} {env : Env} {G : Layout → Prop}

/-- A change of the sink is the same on both machines. -/
theorem sim_modifySink (hG : G w) (change : Sink → Sink) :
    Sim table w env G (fun _ _ _ => True) (Eval.modifySink change)
      (Lexical.modifySink change) :=
  fun _ _ henv hrel =>
    ⟨w, hG, { hrel with sink := congrArg change hrel.sink }, henv, trivial⟩

/-- A piece is printed on both machines, or refused on both. -/
theorem sim_write (hG : G w) (line : Nat) (piece : String) :
    Sim table w env G (fun _ _ _ => True) (Eval.write line piece) (Lexical.write line piece) := by
  refine fun m l henv hrel => ?_
  have hleft : Eval.write line piece m =
      (if m.sink.refuses then do
          Eval.modifySink (·.refuse piece)
          Eval.fail line (.output m.sink.refusal)
        else Eval.modifySink (·.take piece)) m := rfl
  have hright : Lexical.write line piece l =
      (if l.sink.refuses then do
          Lexical.modifySink (·.refuse piece)
          Eval.fail line (.output l.sink.refusal)
        else Lexical.modifySink (·.take piece)) l := rfl
  rw [hleft, hright, ← hrel.sink]
  split
  · exact (sim_modifySink hG _).bind (fun _ _ _ hG' _ => .fail hG' _ _) m l henv hrel
  · exact sim_modifySink hG _ m l henv hrel

/-- Both machines read the same time. -/
theorem sim_readClock (hG : G w) :
    Sim table w env G (fun _ a b => a = b) Eval.readClock Lexical.readClock := by
  refine fun m l henv hrel => ?_
  have hclock : Clock.reading m.clock m.clock.taken = l.clock.reading l.clock.taken := by
    rw [hrel.clock]
  have htaken := congrArg (fun c => { c with taken := c.taken + 1 }) hrel.clock
  exact ⟨w, hG, { hrel with clock := htaken }, henv, hclock⟩

/-- Functions are given the same identities on both machines. -/
theorem sim_freshId (hG : G w) :
    Sim table w env G (fun _ a b => a = b) (Eval.onStore (·.freshId)) Lexical.freshId := by
  refine fun m l henv hrel => ?_
  exact ⟨w, hG, { hrel with nextId := congrArg (· + 1) hrel.nextId }, henv, hrel.nextId⟩

/-- New objects have the same index on both machines. -/
theorem sim_newObject (hG : G w) :
    Sim table w env G (fun _ a b => a = b) (Eval.onStore (·.newObject)) Lexical.newObject := by
  refine fun m l henv hrel => ?_
  exact ⟨w, hG, hrel.newObject, henv, Bindings.Rel.size_eq hrel.fields⟩

/-- Fields are set alike. -/
theorem sim_setField (hG : G w) (id : Nat) (x : String) {v : Value} {v' : Value Locals}
    (hv : ValueRel table w v v') :
    Sim table w env G (fun _ _ _ => True) (Eval.modifyStore (·.setField id x v))
      (Lexical.setField id x v') :=
  fun _ _ henv hrel => ⟨w, hG, hrel.setField id x hv, henv, trivial⟩

end Objects

/-! ### Closures -/

section Closures

variable {table : Table} {w : Layout} {env : Env} {G : Layout → Prop}

/-- A new frame with one name corresponds to a new cell. -/
theorem bind_related {Γ : Context} {m : Machine} {l : LexicalMachine} (hrel : Related table w m l)
    {cenv : Env} {locals : Locals} (hcovers : Covers w Γ cenv locals) {x : String} {v : Value}
    {v' : Value Locals} (hv : ValueRel table w v v') (hsuper : x = "super" → ∃ s, v = .cls s) :
    ∃ w', Grows 0 w w' ∧
      Related table w' { m with store := (m.store.newFrame cenv [(x, v)]).2 }
        { l with cells := l.cells.push v' } ∧
      Covers w' (Γ.enter [(x, true)]) (m.store.newFrame cenv [(x, v)]).1
        (locals.extend x l.cells.size) := by
  have hf : 0 < w.frames ∧ w.frames < w.push.frames := ⟨hrel.positive, Nat.lt_succ_self _⟩
  have hfree : w.push.cell w.frames x = none := by
    cases hc : w.push.cell w.frames x with
    | none => rfl
    | some c => exact absurd (w.bounds hc).2.1 (Nat.lt_irrefl _)
  have hget : ((m.store.newFrame cenv [(x, v)]).2.frame w.frames).get? x = some v := by
    rw [← hrel.frames, Store.frame_newFrame_self, Bindings.get?, if_pos (beq_self_eq_true x)]
  have hcell := (hrel.newFrame cenv [(x, v)]).newCell hf hfree hget hsuper
    (hv.grows (Grows.push w))
  refine ⟨_, (Grows.push w).inside (Grows.add _ hf hfree) (Nat.le_refl _), hcell, ?_⟩
  have hdefine := ((hcovers.grows (Grows.push w)).enter w.frames).define hf hfree
  rw [hrel.cells]
  change Covers _ _ (m.store.frames.size :: cenv) _
  rw [hrel.frames]
  exact hdefine

/-- A method is bound alike: `this` is a cell of a new frame. -/
theorem sim_bindMethod {c : Closure} {d : Closure Locals} (hm : MethodRel table w c d) {v : Value}
    {v' : Value Locals} (hv : ValueRel table w v v') (hG : ∀ w', Grows 0 w w' → G w') :
    Sim table w env G (fun w' f f' => f.arity = c.arity ∧ FunctionRel table w' f f')
      (Eval.bindMethod c v) (Lexical.bindMethod d v') := by
  refine fun m l henv hrel => ?_
  obtain ⟨K, Γ, b, hK, hcovers, hbody⟩ := hm.resolved
  have hthis : "this" = "super" → ∃ s, v = .cls s := fun h => absurd h (by decide)
  obtain ⟨w', hgrows, hrel', hcovers'⟩ := bind_related hrel hcovers hv hthis
  refine ⟨w', hG w' hgrows, hrel', henv, rfl, hm.decl, hm.isInitializer, K, _, b, hK, hcovers',
    hbody, fun _ => ?_⟩
  rw [Context.distance?_enter]
  rfl

/-- New functions are made alike. -/
theorem sim_newFunction {c : Closure} {d : Closure Locals} (hf : FunctionRel table w c d)
    (hG : G w) :
    Sim table w env G (ValueRel table) (Eval.newFunction c) (Lexical.newFunction d) := by
  refine Sim.keep (sim_freshId rfl) hG ?_
  intro a b hab
  cases hab
  exact .pure hG (.function hf)

/-- A method that was looked up, bound to an object. -/
theorem sim_boundMethod {c : Option Closure} {d : Option (Closure Locals)} {v : Value}
    {v' : Value Locals} (hv : ValueRel table w v v') (line : Nat) (cause : RuntimeCause) :
    OptionRel (MethodRel table w) c d → Sim table w env (Grows 0 w) (ValueRel table)
      (match c with
        | some found => do Eval.newFunction (← Eval.bindMethod found v)
        | none => Eval.fail line cause)
      (match d with
        | some found => do Lexical.newFunction (← Lexical.bindMethod found v')
        | none => Eval.fail line cause) := by
  intro hc
  cases hc with
  | none => exact .fail (.refl _ _) line cause
  | some hm =>
    refine (sim_bindMethod hm hv fun _ hw' => hw').bind ?_
    intro w' c' d' hw' hf
    exact sim_newFunction hf.2 hw'

/-- A property is found in the fields, or else among the methods, on both machines. -/
theorem sim_getProperty {v : Value} {v' : Value Locals} (hv : ValueRel table w v v')
    (name : Name) :
    Sim table w env (Grows 0 w) (ValueRel table) (Eval.getProperty v name)
      (Lexical.getProperty v' name) := by
  cases hv with
  | @object id c d hcls =>
    refine fun m l henv hrel => ?_
    have hfield : OptionRel (ValueRel table w) (m.store.field? id name.text)
        (Bindings.get? (l.fields.getD id []) name.text) :=
      (Bindings.Rel.getD hrel.fields id).get? name.text
    rw [Eval.getProperty, Lexical.getProperty, get_bind_apply, get_bind_apply]
    rcases hfield.inversion with ⟨hm, hl⟩ | ⟨u, u', hm, hl, huu⟩
    · rw [hm, hl]
      have hmethod := hcls.findMethod? (fun _ _ => MethodRel.alike) name.text
      exact sim_boundMethod (.object hcls) name.line _ hmethod m l henv hrel
    · rw [hm, hl]
      exact ⟨w, .refl _ _, hrel, henv, huu⟩
  | _ => exact .fail (.refl _ _) _ _

/-- A method of the superclass is found alike: `super` is one scope outside of `this`, in
the frames as in the map. -/
theorem sim_superMethod {K : Known} {Γ : Context} {locals : Locals} {id line : Nat} {method : Name}
    (hcovers : Covers w Γ env locals) (hK : K.Within table)
    (he : (Expr.super id line method).Resolved K Γ) :
    Sim table w env (Grows 0 w) (ValueRel table) (Eval.superMethod id method)
      (Lexical.superMethod locals line method) := by
  obtain ⟨d, hk, hsuper, hthis⟩ := he
  refine fun m l henv hrel => ?_
  have hdistance := hrel.distance? hK hk
  obtain ⟨v, v', hv, hv', hvv⟩ := hcovers.value hrel hsuper
  obtain ⟨o, o', ho, ho', hoo⟩ := hcovers.value hrel hthis
  obtain ⟨s, rfl⟩ : ∃ s, v = .cls s := by
    obtain ⟨f, c, hf, hc, -⟩ := hcovers.found hsuper
    obtain ⟨s, hs⟩ := hrel.supers hc
    rw [getAt_eq hf hs] at hv
    cases hv
    exact ⟨s, rfl⟩
  cases hvv with
  | @cls _ t hst =>
    rw [← henv] at hv ho
    have hclass : Eval.orFault (m.store.getAt m.env (d + 1) "super") m = .ok (.cls s) m := by
      rw [hv]
      rfl
    have hobject : Eval.orFault (Eval.objectInside m (d + 1)) m = .ok o m := by
      rw [Eval.objectInside, ho]
      rfl
    have hclass' : Lexical.readName locals (superName line) l = .ok (.cls t) l := hv' line
    have hobject' : Lexical.readName locals (thisName line) l = .ok o' l := ho' line
    have hmethod := hst.findMethod? (fun _ _ => MethodRel.alike) method.text
    rw [Eval.superMethod, get_bind_apply, hdistance]
    dsimp only
    rw [bind_of_ok hclass, bind_of_ok hobject, Lexical.superMethod, bind_of_ok hclass',
      bind_of_ok hobject']
    exact sim_boundMethod hoo method.line _ hmethod m l henv hrel

end Closures

/-! ### Functions and classes -/

section Classes

variable {table : Table} {K : Known} {w : Layout} {Γ : Context} {env : Env} {locals : Locals}
  {G : Layout → Prop}

/-- A function is declared with a closure that sees the function itself. -/
theorem sim_declareFunction (hst : Stands w Γ env locals) (hK : K.Within table)
    {f : FunDecl} (hadmits : Γ.Admits f.name.text)
    (hbody : FunDecl.Resolved K (Γ.define f.name.text) .function f) :
    Sim table w env (Grows env.innermost w)
      (fun w' _ after => Stands w' (Γ.define f.name.text) env after)
      (Eval.newFunction ⟨f, env, false⟩ >>= Eval.define f.name.text)
      (do
        let after ← Lexical.introduce locals f.name.text
        let function ← Lexical.newFunction ⟨f, after, false⟩
        Lexical.define after f.name.text function
        return after) := by
  refine fun m l henv hrel => ?_
  have hfresh : Related table w { m with store := m.store.freshId.2 }
      { l with nextId := l.nextId + 1 } := { hrel with nextId := congrArg (· + 1) hrel.nextId }
  have hleft : ∀ {g rest}, env = g :: rest →
      (Eval.newFunction ⟨f, env, false⟩ >>= Eval.define f.name.text) m =
        .ok () { m with
          store := m.store.freshId.2.bindIn g f.name.text
            (.function m.store.nextId ⟨f, env, false⟩) } := by
    intro g rest hg
    exact define_eq (x := f.name.text) (m := { m with store := m.store.freshId.2 })
      (henv.trans hg)
  by_cases hs : Γ.scopes = []
  · obtain ⟨rfl, rfl⟩ := hst.top hs
    have hΓ : Γ.define f.name.text = Γ := by
      rw [Context.define, Context.onInnermost, hs]
    have hf : FunctionRel table w ⟨f, globalEnv, false⟩ ⟨f, none, false⟩ :=
      ⟨rfl, rfl, K, Γ, .function, hK, hst.toCovers, hΓ ▸ hbody,
        fun h => absurd h Bool.false_ne_true⟩
    rw [hleft rfl, hΓ, hrel.nextId]
    exact ⟨w, .refl _ _, hfresh.defineGlobal (.function hf), henv, hst⟩
  · obtain ⟨g, rest, names, henv', hlocals, hg, -⟩ := hst.nested hs
    obtain ⟨hfree, hst'⟩ := hst.define hadmits.free hs henv' hg
    subst henv' hlocals
    have hf : FunctionRel table (w.add g f.name.text hg) ⟨f, g :: rest, false⟩
        ⟨f, Locals.extend (some names) f.name.text w.cells, false⟩ :=
      ⟨rfl, rfl, K, _, .function, hK, hst'.toCovers, hbody,
        fun h => absurd h Bool.false_ne_true⟩
    have hright : (do
        let after ← Lexical.introduce (some names) f.name.text
        let function ← Lexical.newFunction ⟨f, after, false⟩
        Lexical.define after f.name.text function
        return after : Lexical Locals) l =
        .ok (Locals.extend (some names) f.name.text w.cells)
          { l with
            cells := l.cells.push (.function l.nextId
              ⟨f, Locals.extend (some names) f.name.text w.cells, false⟩)
            nextId := l.nextId + 1 } := by
      rw [← hrel.cells]
      simp only [bind_apply, introduce_nested, Lexical.newFunction, Lexical.freshId,
        modifyGet_apply, Pure.pure, EStateM.pure,
        define_of_cell (cell?_extend_self _ _ _), setIfInBounds_push]
    rw [hleft rfl, hright, hrel.nextId]
    exact ⟨_, Grows.add w hg hfree, hfresh.declare hg hfree hadmits.plain.2 (.function hf), henv,
      hst'⟩

/-- A superclass is a class on both machines, or both make the same error. -/
theorem sim_readSuperclass (hG : G w) (hcovers : Covers w Γ env locals)
    (hK : K.Within table) {superclass : Option Ref} (hs : Γ.ResolvedParent K superclass) :
    Sim table w env G (fun w' s t => s.isSome = superclass.isSome ∧
        OptionRel (Class.Rel (MethodRel table w')) s t)
      (Eval.readSuperclass superclass) (Lexical.readSuperclass locals superclass) := by
  cases superclass with
  | none => exact .pure hG ⟨rfl, .none⟩
  | some ref =>
    refine (sim_readRef hG hcovers hK hs).bind ?_
    intro w' v v' hw' hv
    cases hv with
    | cls h => exact .pure hw' ⟨rfl, .some h⟩
    | _ => exact .fail hw' _ _

/-- The place of the methods of a class, but for the scope with `this`. -/
theorem sim_methodEnv (hcovers : Covers w Γ env locals) {s : Option Class}
    {t : Option (Class Locals)} (hst : OptionRel (Class.Rel (MethodRel table w)) s t) :
    Sim table w env (Grows 0 w)
      (fun w' => Covers w' (if s.isSome then Γ.enter [("super", true)] else Γ))
      (Eval.methodEnv env s) (Lexical.methodLocals locals t) := by
  cases hst with
  | none => exact .pure (.refl _ _) hcovers
  | @some a b hab =>
    refine fun m l henv hrel => ?_
    obtain ⟨w', hgrows, hrel', hcovers'⟩ :=
      bind_related hrel hcovers (x := "super") (.cls hab) fun _ => ⟨a, rfl⟩
    exact ⟨w', hgrows, hrel', henv, hcovers'⟩

/-- Each method is resolved as a method of its own name. -/
theorem FunDecl.ResolvedList.mem {methods : List FunDecl} (h : FunDecl.ResolvedList K Γ methods)
    {f : FunDecl} (hf : f ∈ methods) :
    FunDecl.Resolved K Γ (Body.ofMethod f.name.text) f := by
  induction methods with
  | nil => cases hf
  | cons g rest ih =>
    cases hf with
    | head => exact h.1
    | tail _ hf => exact ih h.2 hf

/-- The methods of a class are closed over frames and a map that correspond. -/
theorem closeMethods_rel (hK : K.Within table) (hcovers : Covers w Γ env locals)
    {methods : List FunDecl} (hm : FunDecl.ResolvedList K (Γ.enter [("this", true)]) methods) :
    List.Forall₂ (MethodRel table w) (Eval.closeMethods env methods)
      (Lexical.closeMethods locals methods) := by
  rw [Eval.closeMethods, Lexical.closeMethods, List.forall₂_reverse_iff,
    List.forall₂_map_left_iff, List.forall₂_map_right_iff, List.forall₂_same]
  intro f hf
  exact ⟨rfl, rfl, K, Γ, _, hK, hcovers, hm.mem hf⟩

/-- A class is declared alike: its name is `nil` while the superclass is read, and it is
given the class at the end. -/
theorem sim_declareClass (hst : Stands w Γ env locals) (hK : K.Within table) {name : Name}
    {superclass : Option Ref} {methods : List FunDecl}
    (hs : (Stmt.classDecl name superclass methods).Resolved K Γ) :
    Sim table w env (Grows env.innermost w)
      (fun w' _ after => Stands w' (Γ.define name.text) env after)
      (Eval.declareClass name superclass methods)
      (Lexical.declareClass locals name superclass methods) := by
  obtain ⟨hadmits, hparent, hmethods⟩ := hs
  refine (sim_declare hst hadmits .nil).bind ?_
  intro w₁ _ inside hw₁ hst₁
  refine Sim.keep (sim_readSuperclass rfl hst₁.toCovers hK hparent) hw₁ ?_
  intro s t hst₂
  refine Sim.ask fun m henv => ?_
  rw [henv]
  refine (sim_methodEnv hst₁.toCovers hst₂.2).seq (fun _ hw => hw₁.trans (hw.weaken _)) ?_
  intro w₃ cenv clocals hw₃ hcovers
  have hG₃ : Grows env.innermost w w₃ := hw₁.trans (hw₃.weaken _)
  refine Sim.keep (sim_freshId rfl) hG₃ ?_
  intro i j hij
  cases hij
  rw [hst₂.1] at hcovers
  have hplace := closeMethods_rel (Γ := { (if superclass.isSome then
    (Γ.define name.text).enter [("super", true)] else Γ.define name.text) with
    enclosing := if superclass.isSome then .derived else .base }) hK (hcovers.congr rfl) hmethods
  have hcls : ValueRel table w₃ (.cls ⟨i, name.text, s, Eval.closeMethods cenv methods⟩)
      (.cls ⟨i, name.text, t, Lexical.closeMethods clocals methods⟩) := by
    refine .cls ?_
    cases hst₂.2 with
    | none => exact .base hplace
    | some h => exact .derived (h.grows hw₃) hplace
  refine Sim.keep (sim_redefine (hst₁.grows hw₃) hadmits.plain hcls rfl) hG₃ ?_
  intro _ _ _
  exact .pure hG₃ (hst₁.grows hw₃)

end Classes

end Lox

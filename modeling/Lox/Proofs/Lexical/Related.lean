import Lox.Proofs.Lexical.Layout
import Lox.Proofs.Store

/-!
# Related machines

The relation between a machine with frames and a machine with cells, and what
each change of both machines does to it. The relation holds a closure of the
first machine to correspond to one of the second if the two have one body, the
body is resolved at some place, and the frames and the map of the closures are
those of that place.
-/

namespace Lox

open Layout

/-- The place of a statement that is about to run. On the top level there are
only globals; elsewhere the innermost frame has the names of the innermost scope
and no others. -/
structure Stands (w : Layout) (Γ : Context) (env : Env) (locals : Locals) : Prop
    extends Covers w Γ env locals where
  /-- Without scopes, only the global frame is in effect and there is no map. -/
  top : Γ.scopes = [] → env = globalEnv ∧ locals = none
  /-- Else the innermost frame is a local one, and it has no names but those of the
  innermost scope. -/
  nested : Γ.scopes ≠ [] → ∃ f rest names, env = f :: rest ∧ locals = some names ∧
    (0 < f ∧ f < w.frames) ∧ ∀ {x c}, w.cell f x = some c → Γ.isTaken x = true

/-- The frame that declarations go to. -/
def Env.innermost (env : Env) : Nat := env.headD 0

/-- The place of a statement is still its place when other frames have grown. -/
theorem Stands.grows {w w' : Layout} {Γ : Context} {env : Env} {locals : Locals}
    (h : Stands w Γ env locals) (hw : Grows 0 w w') : Stands w' Γ env locals := by
  refine ⟨h.toCovers.grows hw, h.top, fun hs => ?_⟩
  obtain ⟨f, rest, names, henv, hlocals, hf, hexact⟩ := h.nested hs
  refine ⟨f, rest, names, henv, hlocals, ⟨hf.1, Nat.lt_of_lt_of_le hf.2 hw.frames⟩, fun hc => ?_⟩
  rw [hw.only _ hf.2 (by omega)] at hc
  exact hexact hc

/-- The distances that are recorded for the identities below a bound. -/
structure Table where
  /-- A number that is greater than all identities handed out. -/
  bound : Nat
  /-- The distances of the identities. -/
  distances : Distances

/-- What is known about references is what a table has. -/
def Known.Within (K : Known) (table : Table) : Prop :=
  ∀ id d, K id d → id < table.bound ∧ table.distances[id]? = d

section Values

variable (table : Table) (w : Layout)

/-- Functions that correspond. -/
structure FunctionRel (c : Closure) (d : Closure Locals) : Prop where
  /-- Both have the same declaration. -/
  decl : c.decl = d.decl
  /-- Both are initializers or none is. -/
  isInitializer : c.isInitializer = d.isInitializer
  /-- The declaration was resolved at a place that the frames and the map belong to, where
  an initializer has its object. -/
  resolved : ∃ K Γ b, K.Within table ∧ Covers w Γ c.env d.env ∧
    FunDecl.Resolved K Γ b c.decl ∧ (c.isInitializer = true → Γ.distance? "this" = some 0)

/-- Methods that correspond; they are resolved where `this` is bound. -/
structure MethodRel (c : Closure) (d : Closure Locals) : Prop where
  /-- Both have the same declaration. -/
  decl : c.decl = d.decl
  /-- Both are initializers or none is. -/
  isInitializer : c.isInitializer = d.isInitializer
  /-- The declaration was resolved inside of a scope with `this`, around which the frames
  and the map are. -/
  resolved : ∃ K Γ b, K.Within table ∧ Covers w Γ c.env d.env ∧
    FunDecl.Resolved K (Γ.enter [("this", true)]) b c.decl

/-- Values that correspond. -/
abbrev ValueRel : Value → Value Locals → Prop :=
  Value.Rel (FunctionRel table w) (MethodRel table w)

end Values

section Mono

variable {table : Table} {k : Nat} {w w' : Layout} {c : Closure} {d : Closure Locals}

/-- Functions that correspond have the same name and take as many arguments. -/
theorem FunctionRel.alike (h : FunctionRel table w c d) : c.Alike d :=
  ⟨by rw [Closure.name, Closure.name, h.decl], by rw [Closure.arity, Closure.arity, h.decl],
    h.isInitializer⟩

/-- Methods that correspond have the same name and take as many arguments. -/
theorem MethodRel.alike (h : MethodRel table w c d) : c.Alike d :=
  ⟨by rw [Closure.name, Closure.name, h.decl], by rw [Closure.arity, Closure.arity, h.decl],
    h.isInitializer⟩

/-- Functions that correspond do so in every greater layout: their environments stay covered. -/
theorem FunctionRel.grows (hw : Grows k w w') (h : FunctionRel table w c d) :
    FunctionRel table w' c d := by
  obtain ⟨K, Γ, b, hK, hcovers, hbody, hthis⟩ := h.resolved
  exact ⟨h.decl, h.isInitializer, K, Γ, b, hK, hcovers.grows hw, hbody, hthis⟩

/-- Methods that correspond do so in every greater layout. -/
theorem MethodRel.grows (hw : Grows k w w') (h : MethodRel table w c d) :
    MethodRel table w' c d := by
  obtain ⟨K, Γ, b, hK, hcovers, hbody⟩ := h.resolved
  exact ⟨h.decl, h.isInitializer, K, Γ, b, hK, hcovers.grows hw, hbody⟩

/-- Values that correspond do so in every greater layout. -/
theorem ValueRel.grows (hw : Grows k w w') {v : Value} {v' : Value Locals}
    (h : ValueRel table w v v') : ValueRel table w' v v' :=
  h.mono (fun _ _ => FunctionRel.grows hw) fun _ _ => MethodRel.grows hw

/-- Classes that correspond do so in every greater layout. -/
theorem Class.Rel.grows (hw : Grows k w w') {s : Class} {t : Class Locals}
    (h : Class.Rel (MethodRel table w) s t) : Class.Rel (MethodRel table w') s t :=
  h.mono fun _ _ => MethodRel.grows hw

end Mono

/-- Machines whose names correspond by a layout and that are otherwise alike. -/
structure Related (table : Table) (w : Layout) (m : Machine) (l : LexicalMachine) : Prop where
  /-- The layout has all frames. -/
  frames : m.store.frames.size = w.frames
  /-- The layout has all cells. -/
  cells : l.cells.size = w.cells
  /-- There is a global frame. -/
  positive : 0 < w.frames
  /-- The values of globals correspond. -/
  globals : Bindings.Rel (ValueRel table w) (m.store.frame 0) l.globals
  /-- The values of a name in a frame and in its cell correspond. -/
  locals : ∀ {f x c}, w.cell f x = some c → ∃ v v', (m.store.frame f).get? x = some v ∧
    l.cells[c]? = some v' ∧ ValueRel table w v v'
  /-- The value of `super` is a class. -/
  supers : ∀ {f c}, w.cell f "super" = some c → ∃ s, (m.store.frame f).get? "super" = some (.cls s)
  /-- The values of fields correspond. -/
  fields : List.Forall₂ (Bindings.Rel (ValueRel table w)) m.store.fields.toList l.fields.toList
  /-- The next identity is the same. -/
  nextId : m.store.nextId = l.nextId
  /-- As many calls are in progress. -/
  calls : m.calls = l.calls
  /-- The output is the same. -/
  sink : m.sink = l.sink
  /-- The clock is the same. -/
  clock : m.clock = l.clock
  /-- The distances are those of the table. -/
  distances : m.distances = table.distances

namespace Related

variable {table : Table} {k : Nat} {w w' : Layout} {m : Machine} {l : LexicalMachine}

/-- What is known about a reference is recorded. -/
theorem distance? (h : Related table w m l) {K : Known} (hK : K.Within table) {id : Nat}
    {d : Option Nat} (hk : K id d) : m.distances[id]? = d := by
  rw [h.distances]
  exact (hK id d hk).2

/-- A name of a frame with a new cell gets a first value. -/
theorem declare (h : Related table w m l) {f : Nat} {x : String} {v : Value} {v' : Value Locals}
    (hf : 0 < f ∧ f < w.frames) (hx : w.cell f x = none) (hplain : x ≠ "super")
    (hv : ValueRel table (w.add f x hf) v v') :
    Related table (w.add f x hf) { m with store := m.store.bindIn f x v }
      { l with cells := l.cells.push v' } := by
  have hgrows := Grows.add w hf hx
  have hsize : f < m.store.frames.size := by rw [h.frames]; exact hf.2
  refine ⟨?_, ?_, h.positive, ?_, ?_, ?_, ?_, h.nextId, h.calls, h.sink, h.clock, h.distances⟩
  · exact Store.size_bindIn.trans h.frames
  · rw [Array.size_push, h.cells]
    rfl
  · rw [Store.frame_bindIn_of_ne (by omega)]
    exact h.globals.mono fun _ _ => ValueRel.grows hgrows
  · intro g y c hc
    rw [Store.get?_bindIn hsize]
    by_cases hgy : g = f ∧ y = x
    · rw [hgy.1, hgy.2, cell_add_self] at hc
      cases hc
      exact ⟨v, v', if_pos hgy, by rw [← h.cells]; simp, hv⟩
    · rw [cell_add_of_ne w hf hgy] at hc
      obtain ⟨u, u', hu, hu', huv⟩ := h.locals hc
      have hlt : c < l.cells.size := by rw [h.cells]; exact (w.bounds hc).2.2
      refine ⟨u, u', by rw [if_neg hgy]; exact hu, ?_, huv.grows hgrows⟩
      rw [Array.getElem?_push_lt hlt, ← hu', Array.getElem?_eq_getElem hlt]
  · intro g c hc
    have hne : ¬(g = f ∧ "super" = x) := fun hgy => hplain hgy.2.symm
    rw [cell_add_of_ne w hf hne] at hc
    rw [Store.get?_bindIn hsize, if_neg hne]
    exact h.supers hc
  · exact h.fields.imp fun _ _ hb => hb.mono fun _ _ => ValueRel.grows hgrows

/-- A name of a frame with a cell gets another value. -/
theorem assign (h : Related table w m l) {f c : Nat} {x : String} {v : Value} {v' : Value Locals}
    (hc : w.cell f x = some c) (hplain : x ≠ "super") (hv : ValueRel table w v v') :
    Related table w { m with store := m.store.bindIn f x v }
      { l with cells := l.cells.setIfInBounds c v' } := by
  have hf := w.bounds hc
  have hsize : f < m.store.frames.size := by rw [h.frames]; exact hf.2.1
  refine ⟨?_, ?_, h.positive, ?_, ?_, ?_, h.fields, h.nextId, h.calls, h.sink, h.clock,
    h.distances⟩
  · exact Store.size_bindIn.trans h.frames
  · rw [Array.size_setIfInBounds]
    exact h.cells
  · rw [Store.frame_bindIn_of_ne (by omega)]
    exact h.globals
  · intro g y e he
    rw [Store.get?_bindIn hsize, Array.getElem?_setIfInBounds]
    by_cases hgy : g = f ∧ y = x
    · rw [hgy.1, hgy.2, hc] at he
      cases he
      have hlt : c < l.cells.size := by rw [h.cells]; exact hf.2.2
      exact ⟨v, v', if_pos hgy, by rw [if_pos rfl, if_pos hlt], hv⟩
    · obtain ⟨u, u', hu, hu', huv⟩ := h.locals he
      have hne : c ≠ e := by
        intro hce
        rw [hce] at hc
        exact hgy (w.injective he hc)
      exact ⟨u, u', by rw [if_neg hgy]; exact hu, by rw [if_neg hne]; exact hu', huv⟩
  · intro g e he
    have hne : ¬(g = f ∧ "super" = x) := fun hgy => hplain hgy.2.symm
    rw [Store.get?_bindIn hsize, if_neg hne]
    exact h.supers he

/-- A global name gets a value. -/
theorem defineGlobal (h : Related table w m l) {x : String} {v : Value} {v' : Value Locals}
    (hv : ValueRel table w v v') :
    Related table w { m with store := m.store.bindIn 0 x v }
      { l with globals := l.globals.insert x v' } := by
  have hsize : 0 < m.store.frames.size := by rw [h.frames]; exact h.positive
  refine ⟨?_, h.cells, h.positive, ?_, ?_, ?_, h.fields, h.nextId, h.calls, h.sink, h.clock,
    h.distances⟩
  · exact Store.size_bindIn.trans h.frames
  · rw [Store.frame_bindIn_self hsize]
    exact h.globals.insert hv x
  · intro g y c hc
    rw [Store.frame_bindIn_of_ne (Nat.ne_of_gt (w.bounds hc).1)]
    exact h.locals hc
  · intro g c hc
    rw [Store.frame_bindIn_of_ne (Nat.ne_of_gt (w.bounds hc).1)]
    exact h.supers hc

/-- A new frame, whatever it binds. -/
theorem newFrame (h : Related table w m l) (env : Env) (bindings : Bindings) :
    Related table w.push { m with store := (m.store.newFrame env bindings).2 } l := by
  have hgrows := Grows.push w
  have hlt : ∀ {f x c}, w.cell f x = some c → f < m.store.frames.size := by
    intro f x c hc
    rw [h.frames]
    exact (w.bounds hc).2.1
  refine ⟨?_, h.cells, Nat.succ_pos _, ?_, ?_, ?_, ?_, h.nextId, h.calls, h.sink, h.clock,
    h.distances⟩
  · rw [Store.newFrame, Array.size_push, h.frames]
    rfl
  · rw [Store.frame_newFrame_of_lt (by rw [h.frames]; exact h.positive)]
    exact h.globals.mono fun _ _ => ValueRel.grows hgrows
  · intro f x c hc
    rw [Store.frame_newFrame_of_lt (hlt hc)]
    obtain ⟨v, v', hv, hv', hvv⟩ := h.locals hc
    exact ⟨v, v', hv, hv', hvv.grows hgrows⟩
  · intro f c hc
    rw [Store.frame_newFrame_of_lt (hlt hc)]
    exact h.supers hc
  · exact h.fields.imp fun _ _ hb => hb.mono fun _ _ => ValueRel.grows hgrows

/-- A cell for a name that its frame binds already. -/
theorem newCell (h : Related table w m l) {f : Nat} {x : String} {v : Value} {v' : Value Locals}
    (hf : 0 < f ∧ f < w.frames) (hx : w.cell f x = none)
    (hget : (m.store.frame f).get? x = some v) (hsuper : x = "super" → ∃ s, v = .cls s)
    (hv : ValueRel table w v v') :
    Related table (w.add f x hf) m { l with cells := l.cells.push v' } := by
  have hgrows := Grows.add w hf hx
  refine ⟨h.frames, ?_, h.positive, ?_, ?_, ?_, ?_, h.nextId, h.calls, h.sink, h.clock,
    h.distances⟩
  · rw [Array.size_push, h.cells]
    rfl
  · exact h.globals.mono fun _ _ => ValueRel.grows hgrows
  · intro g y c hc
    by_cases hgy : g = f ∧ y = x
    · obtain ⟨rfl, rfl⟩ := hgy
      rw [cell_add_self] at hc
      cases hc
      exact ⟨v, v', hget, by rw [← h.cells]; simp, hv.grows hgrows⟩
    · rw [cell_add_of_ne w hf hgy] at hc
      obtain ⟨u, u', hu, hu', huv⟩ := h.locals hc
      have hlt : c < l.cells.size := by rw [h.cells]; exact (w.bounds hc).2.2
      refine ⟨u, u', hu, ?_, huv.grows hgrows⟩
      rw [Array.getElem?_push_lt hlt, ← hu', Array.getElem?_eq_getElem hlt]
  · intro g c hc
    by_cases hgy : g = f ∧ "super" = x
    · obtain ⟨rfl, rfl⟩ := hgy
      obtain ⟨s, rfl⟩ := hsuper rfl
      exact ⟨s, hget⟩
    · rw [cell_add_of_ne w hf hgy] at hc
      exact h.supers hc
  · exact h.fields.imp fun _ _ hb => hb.mono fun _ _ => ValueRel.grows hgrows

/-- A field that is given values that correspond leaves the machines related. -/
theorem setField (h : Related table w m l) (id : Nat) (x : String) {v : Value} {v' : Value Locals}
    (hv : ValueRel table w v v') :
    Related table w { m with store := m.store.setField id x v }
      { l with fields := l.fields.modify id (Bindings.insert · x v') } :=
  { h with fields := Bindings.Rel.modify h.fields id x hv }

/-- A new object has the same index on both machines. -/
theorem newObject (h : Related table w m l) :
    Related table w { m with store := m.store.newObject.2 }
      { l with fields := l.fields.push [] } :=
  { h with fields := Bindings.Rel.push h.fields .nil }

end Related

end Lox

import Lox.Proofs.Lexical
import Lox.Proofs.Scope
import Lox.Proofs.Simulation

/-!
# Cells and frames

How the names of frames correspond to cells. A layout says which cell stands for
a name of a frame. Two machines are related by a layout if the values in its
cells agree with those in its frames, the global frame with the table of
globals, and all that has nothing to do with names is the same.

Layouts only grow. While an expression runs, no frame that is already there gets
a new name; while a statement runs, only the innermost frame does. So what a
closure sees of its frames stays as it was where the closure was made.
-/

namespace Lox

/-- Which cell stands for a name of a frame. The global frame has no cells. -/
structure Layout where
  /-- The number of frames. -/
  frames : Nat
  /-- The number of cells. -/
  cells : Nat
  /-- The cell of a name in a frame. -/
  cell : Nat → String → Option Nat
  /-- Only frames and cells that are there take part. -/
  bounds : ∀ {f : Nat} {x : String} {c : Nat}, cell f x = some c → 0 < f ∧ f < frames ∧ c < cells
  /-- A cell stands for one name. -/
  injective : ∀ {f g : Nat} {x y : String} {c : Nat},
    cell f x = some c → cell g y = some c → f = g ∧ x = y

namespace Layout

/-- A layout of the global frame alone. -/
def initial : Layout where
  frames := 1
  cells := 0
  cell := fun _ _ => none
  bounds := nofun
  injective := nofun

/-- One more frame, without names. -/
def push (w : Layout) : Layout where
  frames := w.frames + 1
  cells := w.cells
  cell := w.cell
  bounds := fun h => ⟨(w.bounds h).1, Nat.lt_succ_of_lt (w.bounds h).2.1, (w.bounds h).2.2⟩
  injective := w.injective

/-- One more name in a frame, with a new cell. -/
def add (w : Layout) (f : Nat) (x : String) (hf : 0 < f ∧ f < w.frames) : Layout where
  frames := w.frames
  cells := w.cells + 1
  cell := fun g y => if g = f ∧ y = x then some w.cells else w.cell g y
  bounds := by
    intro g y c h
    split at h
    · rename_i hgy
      cases h
      rw [hgy.1]
      exact ⟨hf.1, hf.2, Nat.lt_succ_self _⟩
    · exact ⟨(w.bounds h).1, (w.bounds h).2.1, Nat.lt_succ_of_lt (w.bounds h).2.2⟩
  injective := by
    intro g g' y y' c h h'
    split at h <;> split at h'
    · rename_i hgy hgy'
      exact ⟨hgy.1.trans hgy'.1.symm, hgy.2.trans hgy'.2.symm⟩
    · cases h
      exact absurd (w.bounds h').2.2 (Nat.lt_irrefl _)
    · cases h'
      exact absurd (w.bounds h).2.2 (Nat.lt_irrefl _)
    · exact w.injective h h'

/-- The cell of an added name is the next one. -/
theorem cell_add_self (w : Layout) {f : Nat} {x : String} (hf : 0 < f ∧ f < w.frames) :
    (w.add f x hf).cell f x = some w.cells :=
  if_pos ⟨rfl, rfl⟩

/-- Other names keep their cells. -/
theorem cell_add_of_ne (w : Layout) {f g : Nat} {x y : String} (hf : 0 < f ∧ f < w.frames)
    (h : ¬(g = f ∧ y = x)) : (w.add f x hf).cell g y = w.cell g y :=
  if_neg h

/-- A global name has no cell. -/
theorem cell_zero (w : Layout) (x : String) : w.cell 0 x = none := by
  cases h : w.cell 0 x with
  | none => rfl
  | some c => exact absurd (w.bounds h).1 (Nat.lt_irrefl 0)

/-- One layout comes after another, and of the frames of the first only frame
`k` may have new names. -/
structure Grows (k : Nat) (w w' : Layout) : Prop where
  /-- No frame is lost. -/
  frames : w.frames ≤ w'.frames
  /-- No cell is lost. -/
  cells : w.cells ≤ w'.cells
  /-- A name keeps its cell. -/
  kept : ∀ {f : Nat} {x : String} {c : Nat}, w.cell f x = some c → w'.cell f x = some c
  /-- No other frame that was there has got a name. -/
  only : ∀ {f : Nat} (x : String), f < w.frames → f ≠ k → w'.cell f x = w.cell f x

namespace Grows

variable {k : Nat} {w w' w'' : Layout}

/-- A layout that stays as it is has grown by nothing. -/
theorem refl (k : Nat) (w : Layout) : Grows k w w :=
  ⟨Nat.le_refl _, Nat.le_refl _, id, fun _ _ _ => rfl⟩

/-- Layouts grow one after the other. -/
theorem trans (h : Grows k w w') (h' : Grows k w' w'') : Grows k w w'' := by
  refine ⟨Nat.le_trans h.frames h'.frames, Nat.le_trans h.cells h'.cells, fun hc => ?_,
    fun x hf hk => ?_⟩
  · exact h'.kept (h.kept hc)
  · rw [h'.only x (Nat.lt_of_lt_of_le hf h.frames) hk, h.only x hf hk]

/-- What changes no frame changes at most one. -/
theorem weaken (h : Grows 0 w w') (k : Nat) : Grows k w w' := by
  refine ⟨h.frames, h.cells, h.kept, fun {f} x hf _ => ?_⟩
  by_cases hzero : f = 0
  · rw [hzero, cell_zero, cell_zero]
  · exact h.only x hf hzero

/-- A new frame has no names, so no frame that was there has one more. -/
theorem push (w : Layout) : Grows 0 w w.push :=
  ⟨Nat.le_succ _, Nat.le_refl _, id, fun _ _ _ => rfl⟩

/-- An added name is new in one frame only. -/
theorem add (w : Layout) {f : Nat} {x : String} (hf : 0 < f ∧ f < w.frames)
    (hx : w.cell f x = none) : Grows f w (w.add f x hf) := by
  refine ⟨Nat.le_refl _, Nat.le_succ _, fun {g y c} hc => ?_, fun {g} y _ hg => ?_⟩
  · rw [cell_add_of_ne w hf]
    · exact hc
    · intro h
      rw [h.1, h.2, hx] at hc
      cases hc
  · exact cell_add_of_ne w hf fun h => hg h.1

/-- What changes a frame that was not there yet changes no frame. -/
theorem inside (h : Grows 0 w w') (h' : Grows k w' w'') (hk : w.frames ≤ k) : Grows 0 w w'' := by
  refine ⟨Nat.le_trans h.frames h'.frames, Nat.le_trans h.cells h'.cells, fun hc => ?_,
    fun x hf hzero => ?_⟩
  · exact h'.kept (h.kept hc)
  · rw [h'.only x (Nat.lt_of_lt_of_le hf h.frames) (by omega), h.only x hf hzero]

end Grows

end Layout

open Layout

/-- The names that a place sees are in the frames of an environment at their
distances, and the map has their cells. Other names are not in the map. -/
structure Covers (w : Layout) (Γ : Context) (env : Env) (locals : Locals) : Prop where
  /-- A name with a distance has one cell in the frame at that distance and in the map. -/
  found : ∀ {x : String} {d : Nat}, Γ.distance? x = some d →
    ∃ f c, env[d]? = some f ∧ w.cell f x = some c ∧ locals.cell? x = some c
  /-- A name without a distance is not in the map. -/
  absent : ∀ {x : String}, Γ.distance? x = none → locals.cell? x = none

namespace Covers

variable {k : Nat} {w w' : Layout} {Γ Γ' : Context} {env : Env} {locals : Locals}

/-- A map that has the cells of an environment has them in every greater layout. -/
theorem grows (h : Covers w Γ env locals) (hw : Grows k w w') : Covers w' Γ env locals := by
  refine ⟨fun hd => ?_, h.absent⟩
  obtain ⟨f, c, hf, hc, hl⟩ := h.found hd
  exact ⟨f, c, hf, hw.kept hc, hl⟩

/-- Only the scopes of a place matter to its map. -/
theorem congr (h : Covers w Γ env locals) (hs : Γ'.scopes = Γ.scopes) :
    Covers w Γ' env locals := by
  have hd : ∀ x, Γ'.distance? x = Γ.distance? x := fun x => by
    rw [Context.distance?, Context.distance?, hs]
  exact ⟨fun hx => h.found (hd _ ▸ hx), fun hx => h.absent (hd _ ▸ hx)⟩

/-- On the top level no name has a distance, and an empty map is right. -/
theorem top (w : Layout) (env : Env) : Covers w .top env none :=
  ⟨nofun, fun _ => rfl⟩

/-- A place that is not on the top level sees the same names. -/
theorem nested (h : Covers w Γ env locals) : Covers w Γ env (some (locals.getD [])) := by
  have hcell : ∀ x, Locals.cell? (some (locals.getD [])) x = locals.cell? x := by
    intro x
    cases locals <;> rfl
  refine ⟨fun {x d} hd => ?_, fun {x} hd => ?_⟩
  · rw [hcell]
    exact h.found hd
  · rw [hcell]
    exact h.absent hd

/-- A new frame without names. -/
theorem enter (h : Covers w Γ env locals) (f : Nat) : Covers w (Γ.enter []) (f :: env) locals := by
  have hdistance : ∀ x, (Γ.enter []).distance? x = (Γ.distance? x).map (· + 1) :=
    fun x => Context.distance?_enter Γ [] x
  refine ⟨fun {x d} hd => ?_, fun {x} hd => ?_⟩
  · rw [hdistance, Option.map_eq_some_iff] at hd
    obtain ⟨d, hd, rfl⟩ := hd
    exact h.found hd
  · rw [hdistance, Option.map_eq_none_iff] at hd
    exact h.absent hd

/-- One more name in the innermost frame. -/
theorem define {scope : Scope} {scopes : List Scope} {b : Body} {e : Enclosing} {f : Nat}
    {x : String} {rest : Env} (h : Covers w ⟨scope :: scopes, b, e⟩ (f :: rest) locals)
    (hf : 0 < f ∧ f < w.frames) (hx : w.cell f x = none) :
    Covers (w.add f x hf) ⟨scope.define x :: scopes, b, e⟩ (f :: rest)
      (locals.extend x w.cells) := by
  have hgrows := h.grows (Grows.add w hf hx)
  have hcell : ∀ y, Locals.cell? (locals.extend x w.cells) y =
      if y = x then some w.cells else locals.cell? y := by
    intro y
    simp only [Locals.cell?, Locals.extend, Option.bind_some, List.lookup_cons]
    by_cases hy : y = x
    · simp [hy]
    · rw [beq_eq_false_iff_ne.2 hy, if_neg hy]
      cases locals <;> rfl
  have hdistance : ∀ y, Context.distance? ⟨scope.define x :: scopes, b, e⟩ y =
      if y = x then some 0 else Context.distance? ⟨scope :: scopes, b, e⟩ y := by
    intro y
    rw [Context.distance?_cons, Context.distance?_cons, Scope.has_define]
    by_cases hy : y = x
    · simp [hy]
    · rw [beq_eq_false_iff_ne.2 (Ne.symm hy), Bool.false_or, if_neg hy]
  constructor
  · intro y d hd
    rw [hdistance] at hd
    rw [hcell]
    by_cases hy : y = x
    · rw [if_pos hy] at hd
      cases hd
      exact ⟨f, w.cells, rfl, by rw [hy]; exact cell_add_self w hf, if_pos hy⟩
    · rw [if_neg hy] at hd ⊢
      exact hgrows.found hd
  · intro y hd
    rw [hdistance] at hd
    rw [hcell]
    by_cases hy : y = x
    · rw [if_pos hy] at hd
      cases hd
    · rw [if_neg hy] at hd ⊢
      exact hgrows.absent hd

end Covers

end Lox

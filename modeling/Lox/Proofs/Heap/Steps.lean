import Mathlib.Logic.Function.Basic
import Lox.Proofs.Heap

/-!
# Steps on well-formed machines

A step is safe from a world on if, started on a machine at any later world, it
leaves a machine at some still later world, however it ends, and if what it
yields is as stated there. First what each change of a store does to a world,
then the steps that are not recursive.
-/

namespace Lox

variable {α β : Type}

/-! ### Changes of a store -/

namespace World

variable {w : World}

/-- The world with another store. -/
def withStore (w : World) (store : Store) : World := ⟨w.links, store⟩

/-- The world after a change that leaves the frames alone. -/
theorem before_withStore {store : Store} (hframes : store.frames = w.store.frames)
    (hfields : w.store.fields.size ≤ store.fields.size) (hid : w.store.nextId ≤ store.nextId) :
    w.Before (w.withStore store) := by
  refine ⟨fun _ _ => rfl, Nat.le_of_eq (congrArg Array.size hframes.symm), hfields, hid,
    fun i _ x _ => ?_⟩
  unfold withStore Store.frame
  rw [hframes]

/-- A world stays well-formed with a store of the same frames, if all fields that were set
are set to sound values. -/
theorem WellFormed.withStore (h : w.WellFormed) {store : Store} (hw : w.Before (w.withStore store))
    (hframes : store.frames = w.store.frames)
    (hfields : ∀ object x v, store.field? object x = some v →
      w.store.field? object x = some v ∨ v.Sound (w.withStore store)) :
    (w.withStore store).WellFormed where
  globals := by
    change 0 < store.frames.size
    rw [hframes]
    exact h.globals
  older := fun i hpos hi => by
    change i < store.frames.size at hi
    rw [hframes] at hi
    exact h.older i hpos hi
  frames := fun i => by
    have hframe : store.frame i = w.store.frame i := by
      unfold Store.frame
      rw [hframes]
    change Bindings.Sound _ (store.frame i)
    rw [hframe]
    exact (h.frames i).later hw
  fields := fun object x v hv => by
    rcases hfields object x v hv with hold | hnew
    · exact (h.fields object x v hold).later hw
    · exact hnew

/-- A plain name of a frame gets a value. -/
theorem WellFormed.bindIn (h : w.WellFormed) {i : Nat} {x : String} {v : Value}
    (hi : i < w.store.frames.size) (hx : IsPlain x) (hv : v.Sound w) :
    w.Before (w.withStore (w.store.bindIn i x v)) ∧
      (w.withStore (w.store.bindIn i x v)).WellFormed := by
  have hsize : (w.store.bindIn i x v).frames.size = w.store.frames.size := Store.size_bindIn
  have hget : ∀ j y, y ≠ x → ((w.store.bindIn i x v).frame j).get? y = (w.store.frame j).get? y :=
    fun j y hy => by rw [Store.get?_bindIn hi, if_neg fun hji => hy hji.2]
  have hbefore : w.Before (w.withStore (w.store.bindIn i x v)) := by
    refine ⟨fun _ _ => rfl, Nat.le_of_eq hsize.symm, Nat.le_refl _, Nat.le_refl _, ?_⟩
    intro j _ y hy
    exact hget j y fun hyx => hy (hyx ▸ hx)
  refine ⟨hbefore, ?_, ?_, ?_, ?_⟩
  · exact Nat.lt_of_lt_of_eq h.globals hsize.symm
  · exact fun j hpos hj => h.older j hpos (Nat.lt_of_lt_of_eq hj hsize)
  · intro j
    refine Bindings.Sound.mk (fun y u hu => ?_) (fun u hu => ?_) fun u hu => ?_
    · change ((w.store.bindIn i x v).frame j).get? y = some u at hu
      rw [Store.get?_bindIn hi] at hu
      split at hu
      · cases hu
        exact hv.later hbefore
      · exact ((h.frames j).value y u hu).later hbefore
    · exact (h.frames j).this u ((hget j _ hx.1.symm).symm.trans hu)
    · exact (h.frames j).super u ((hget j _ hx.2.symm).symm.trans hu)
  · exact fun object y u hu => (h.fields object y u hu).later hbefore

/-- The world with one more frame, inside an environment. -/
def push (w : World) (env : Env) (bindings : Bindings) : World :=
  ⟨Function.update w.links w.store.frames.size (env.headD 0), (w.store.newFrame env bindings).2⟩

/-- A pushed frame is one more. -/
theorem size_push (w : World) (env : Env) (bindings : Bindings) :
    (w.push env bindings).store.frames.size = w.store.frames.size + 1 :=
  Array.size_push _

/-- A pushed frame has its bindings. -/
theorem frame_push_self (w : World) (env : Env) (bindings : Bindings) :
    (w.push env bindings).store.frame w.store.frames.size = bindings := by
  change (w.store.newFrame env bindings).2.frame w.store.frames.size = bindings
  exact Store.frame_newFrame_self

/-- A pushed frame is linked to the environment that it was made in. -/
theorem links_push_self (w : World) (env : Env) (bindings : Bindings) :
    (w.push env bindings).links w.store.frames.size = env.headD 0 :=
  Function.update_self ..

/-- Frames that were there keep their links. -/
theorem links_push_of_ne (w : World) (env : Env) (bindings : Bindings) {i : Nat}
    (h : i ≠ w.store.frames.size) : (w.push env bindings).links i = w.links i :=
  Function.update_of_ne h _ _

/-- Pushing a frame leads to a later world. -/
theorem before_push (w : World) (env : Env) (bindings : Bindings) :
    w.Before (w.push env bindings) where
  links := fun i hi => links_push_of_ne w env bindings (Nat.ne_of_lt hi)
  frames := by
    rw [size_push]
    exact Nat.le_succ _
  fields := Nat.le_refl _
  nextId := Nat.le_refl _
  keywords := fun i hi x _ => by
    change ((w.store.newFrame env bindings).2.frame i).get? x = _
    rw [Store.frame_newFrame_of_lt hi]

/-- A new frame is inside the environment it was made in. -/
theorem follows_push {env : Env} (henv : env.Follows w) (bindings : Bindings) :
    Env.Follows (w.store.frames.size :: env) (w.push env bindings) := by
  have hold := henv.later (before_push w env bindings)
  cases env with
  | nil => cases henv.globals
  | cons i rest =>
    refine ⟨hold.linked.cons_cons ⟨links_push_self w _ _, henv.frames i (.head _)⟩, ?_, ?_⟩
    · rw [List.getLast?_cons_cons]
      exact henv.globals
    · refine List.forall_mem_cons.2 ⟨?_, hold.frames⟩
      rw [size_push]
      exact Nat.lt_succ_self _

/-- A world stays well-formed with one more frame of sound bindings. -/
theorem WellFormed.push (h : w.WellFormed) {env : Env} (henv : env.Follows w) {bindings : Bindings}
    (hb : bindings.Sound w) : (w.push env bindings).WellFormed where
  globals := Nat.lt_of_lt_of_le h.globals (before_push w env bindings).frames
  older := fun i hpos hi => by
    rw [size_push] at hi
    by_cases hnew : i = w.store.frames.size
    · rw [hnew, links_push_self]
      cases env with
      | nil => exact h.globals
      | cons j rest => exact henv.frames j (.head _)
    · rw [links_push_of_ne w env bindings hnew]
      exact h.older i hpos (by omega)
  frames := fun i => by
    by_cases hnew : i = w.store.frames.size
    · rw [hnew, frame_push_self]
      exact hb.later (before_push w env bindings)
    · change Bindings.Sound _ ((w.store.newFrame env bindings).2.frame i)
      rw [Store.frame_newFrame_of_ne hnew]
      exact (h.frames i).later (before_push w env bindings)
  fields := fun object x v hv => (h.fields object x v hv).later (before_push w env bindings)

end World

/-! ### Safe steps -/

/-- The end of a step leaves a machine at a world, and what it yields is as
stated. -/
def EndsAt (w : World) (A : World → α → Prop) (r : EStateM.Result Halt Machine α) : Prop :=
  (machineAfter r).At w ∧ ∀ a m, r = .ok a m → A w a

/-- What is left behind changes, but not what is yielded. -/
theorem EndsAt.onState {w : World} {A : World → α → Prop} {r : EStateM.Result Halt Machine α}
    (h : EndsAt w A r) {f : Machine → Machine} (hf : (f (machineAfter r)).At w) :
    EndsAt w A (Lox.onState f r) := by
  cases r with
  | error e m => exact ⟨hf, nofun⟩
  | ok a m =>
    refine ⟨hf, fun b m' hb => ?_⟩
    cases hb
    exact h.2 a m rfl

/-- From every later world on, a step ends at a world that is still later. -/
def Safe (w : World) (A : World → α → Prop) (p : Eval α) : Prop :=
  ∀ m w', w.Before w' → m.At w' → ∃ w'', w'.Before w'' ∧ EndsAt w'' A (p m)

/-- Values that are sound. -/
abbrev Values : World → Value → Prop := fun w v => v.Sound w

/-- Nothing is said about what a step yields. -/
abbrev Anything : World → α → Prop := fun _ _ => True

namespace Safe

variable {w : World} {A : World → α → Prop} {B : World → β → Prop} {p : Eval α}
  {f : α → Eval β}

/-- Yielding something is safe. -/
theorem pure {a : α} (h : ∀ w', w.Before w' → A w' a) : Safe w A (Pure.pure a) := by
  intro m w' hw hm
  refine ⟨w', .refl w', hm, fun b m' hb => ?_⟩
  cases hb
  exact h w' hw

/-- Yielding a sound value is safe. -/
theorem value {v : Value} (h : v.Sound w) : Safe w Values (Pure.pure v) :=
  pure fun _ hw => h.later hw

/-- Halting is safe. -/
theorem throw (h : Halt) : Safe w A (MonadExcept.throw h) :=
  fun _ w' _ hm => ⟨w', .refl w', hm, nofun⟩

/-- Failing is safe. -/
theorem fail (line : Nat) (cause : RuntimeCause) : Safe w A (Eval.fail line cause) := throw _

/-- What is safe from a world on is safe from every later one on. -/
theorem later (h : Safe w A p) {w' : World} (hw : w.Before w') : Safe w' A p :=
  fun m w'' hw' hm => h m w'' (hw.trans hw') hm

/-- A second step starts at some later world, with what the first one yielded there. -/
theorem bind (hp : Safe w A p) (hf : ∀ w' a, w.Before w' → A w' a → Safe w' B (f a)) :
    Safe w B (p >>= f) := by
  intro m w' hw hm
  obtain ⟨w₁, hw₁, hm₁, hok⟩ := hp m w' hw hm
  rw [bind_apply]
  cases hpm : p m with
  | error h m' =>
    rw [hpm] at hm₁
    exact ⟨w₁, hw₁, hm₁, nofun⟩
  | ok a m' =>
    rw [hpm] at hm₁
    obtain ⟨w₂, hw₂, hm₂, hb⟩ := hf w₁ a (hw.trans hw₁) (hok a m' hpm) m' w₁ (.refl w₁) hm₁
    exact ⟨w₂, hw₁.trans hw₂, hm₂, hb⟩

/-- A step that looks at the machine first. -/
theorem ask {f : Machine → Eval α}
    (hf : ∀ m w', w.Before w' → m.At w' → Safe w' A (f m)) : Safe w A (get >>= f) :=
  fun m w' hw hm => hf m w' hw hm m w' (.refl w') hm

/-- Looking at the result of an operation that may be at fault is safe. -/
theorem orFault {r : Except Fault α} (h : ∀ a, r = .ok a → ∀ w', w.Before w' → A w' a) :
    Safe w A (Eval.orFault r) := by
  cases r with
  | ok a => exact pure (h a rfl)
  | error fault => exact throw _

/-- A step in an environment of the world. -/
theorem inEnv (hp : Safe w A p) {env : Env} (henv : env.Follows w) :
    Safe w A (Eval.inEnv env p) := by
  intro m w' hw hm
  have hinner : Machine.At { m with env := env } w' := ⟨hm.store, hm.wellFormed, henv.later hw⟩
  obtain ⟨w₁, hw₁, hend⟩ := hp _ w' hw hinner
  rw [inEnv_apply]
  exact ⟨w₁, hw₁, hend.onState ⟨hend.1.store, hend.1.wellFormed, hm.env.later hw₁⟩⟩

/-- A step is as safe inside a call, which only counts. -/
theorem asCall (hp : Safe w A p) : Safe w A (Eval.asCall p) := by
  intro m w' hw hm
  have hinner : Machine.At { m with calls := m.calls + 1 } w' := ⟨hm.store, hm.wellFormed, hm.env⟩
  obtain ⟨w₁, hw₁, hend⟩ := hp _ w' hw hinner
  rw [asCall_apply]
  exact ⟨w₁, hw₁, hend.onState ⟨hend.1.store, hend.1.wellFormed, hend.1.env⟩⟩

/-- A change of the store that yields a result. -/
theorem onStore {change : Store → α × Store}
    (h : ∀ w', w.Before w' → w'.WellFormed → ∃ w'', w''.store = (change w'.store).2 ∧
      w'.Before w'' ∧ w''.WellFormed ∧ A w'' (change w'.store).1) :
    Safe w A (Eval.onStore change) := by
  intro m w' hw hm
  obtain ⟨w'', hstore, hbefore, hwell, ha⟩ := h w' hw hm.wellFormed
  rw [hm.store] at hstore ha
  refine ⟨w'', hbefore, ⟨hstore, hwell, hm.env.later hbefore⟩, fun a m' hok => ?_⟩
  cases hok
  exact ha

end Safe

/-! ### Names, properties and methods -/

section Steps

variable {w : World} {v : Value}

/-- Binding a plain name to a sound value is safe. -/
theorem safe_bindIn {i : Nat} {x : String} (hi : i < w.store.frames.size) (hx : IsPlain x)
    (hv : v.Sound w) : Safe w Anything (Eval.modifyStore (·.bindIn i x v)) := by
  intro m w' hw hm
  obtain ⟨hbefore, hwell⟩ :=
    hm.wellFormed.bindIn (Nat.lt_of_lt_of_le hi hw.frames) hx (hv.later hw)
  refine ⟨_, hbefore, ⟨?_, hwell, hm.env.later hbefore⟩, fun _ _ _ => trivial⟩
  change w'.store.bindIn i x v = m.store.bindIn i x v
  rw [hm.store]

/-- So is declaring one. -/
theorem safe_define {x : String} (hx : IsPlain x) (hv : v.Sound w) :
    Safe w Anything (Eval.define x v) := by
  intro m w' hw hm
  cases henv : m.env with
  | nil =>
    have hend := hm.env.globals
    rw [henv] at hend
    cases hend
  | cons i rest =>
    have hi : i < w'.store.frames.size := hm.env.frames i (by rw [henv]; exact .head _)
    have hstore : m.store.define m.env x v = m.store.bindIn i x v := by
      rw [henv]
      rfl
    have hdefine : Eval.define x v m = Eval.modifyStore (·.bindIn i x v) m := by
      change EStateM.Result.ok () { m with store := m.store.define m.env x v } = _
      rw [hstore]
      rfl
    rw [hdefine]
    exact safe_bindIn hi hx (hv.later hw) m w' (.refl w') hm

/-- Setting a field to a sound value is safe. -/
theorem safe_setField (object : Nat) (x : String) (hv : v.Sound w) :
    Safe w Anything (Eval.modifyStore (·.setField object x v)) := by
  intro m w' hw hm
  have hbefore : w'.Before (w'.withStore (w'.store.setField object x v)) :=
    World.before_withStore rfl (Nat.le_of_eq Array.size_modify.symm) (Nat.le_refl _)
  have hwell := hm.wellFormed.withStore hbefore rfl fun other y u hu => by
    rcases Store.field?_of_setField hu with rfl | hold
    · exact .inr ((hv.later hw).later hbefore)
    · exact .inl hold
  refine ⟨_, hbefore, ⟨?_, hwell, hm.env.later hbefore⟩, fun _ _ _ => trivial⟩
  change w'.store.setField object x v = m.store.setField object x v
  rw [hm.store]

/-- A frame is added inside an environment. -/
theorem safe_newFrame {env : Env} (henv : env.Follows w) {bindings : Bindings}
    (hb : bindings.Sound w) :
    Safe w (fun w' env' => Env.Follows env' w' ∧
      ∃ i, env' = i :: env ∧ w'.store.frame i = bindings) (Eval.newFrame env bindings) := by
  refine .onStore fun w' hw hwell => ⟨w'.push env bindings, rfl, World.before_push .., ?_, ?_⟩
  · exact hwell.push (henv.later hw) (hb.later hw)
  · exact ⟨World.follows_push (henv.later hw) bindings, _, rfl, World.frame_push_self ..⟩

/-- An identity that is handed out is new. -/
theorem safe_freshId : Safe w (fun w' id => id < w'.store.nextId ∧ w.store.nextId ≤ id)
    (Eval.onStore (·.freshId)) := by
  refine .onStore fun w' hw hwell => ?_
  have hbefore : w'.Before (w'.withStore w'.store.freshId.2) :=
    World.before_withStore rfl (Nat.le_refl _) (Nat.le_succ _)
  exact ⟨_, rfl, hbefore, hwell.withStore hbefore rfl fun _ _ _ hv => .inl hv,
    Nat.lt_succ_self _, hw.nextId⟩

/-- An object that is made has a number below that of the next one. -/
theorem safe_newObject : Safe w (fun w' id => id < w'.store.fields.size)
    (Eval.onStore (·.newObject)) := by
  refine .onStore fun w' hw hwell => ?_
  have hsize : w'.store.newObject.2.fields.size = w'.store.fields.size + 1 := Array.size_push _
  have hbefore : w'.Before (w'.withStore w'.store.newObject.2) :=
    World.before_withStore rfl (by rw [hsize]; exact Nat.le_succ _) (Nat.le_refl _)
  exact ⟨_, rfl, hbefore, hwell.withStore hbefore rfl fun _ _ _ hv =>
    .inl (Store.field?_of_newObject hv), Nat.lt_of_lt_of_eq (Nat.lt_succ_self _) hsize.symm⟩

/-- The sink is no part of what has to be well-formed. -/
theorem safe_modifySink (change : Sink → Sink) : Safe w Anything (Eval.modifySink change) :=
  fun _ w' _ hm => ⟨w', .refl w', ⟨hm.store, hm.wellFormed, hm.env⟩, fun _ _ _ => trivial⟩

/-- Printing is safe, also where it is refused. -/
theorem safe_write (line : Nat) (piece : String) : Safe w Anything (Eval.write line piece) := by
  refine .ask fun m w' _ hm => ?_
  dsimp only
  split
  · exact (safe_modifySink _).bind fun _ _ _ _ => .fail _ _
  · exact safe_modifySink _

end Steps

end Lox

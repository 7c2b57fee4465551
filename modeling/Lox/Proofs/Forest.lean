import Mathlib.Data.Nat.Find
import Lox.Proofs.Store

/-!
# Forests of environments

All environments that can come about when environments are made, inside no other or
inside one that is there, and names are bound and assigned to in them. They share one
store, and each has a frame of its own, so an environment is known by the number of its
innermost frame.

The main statement compares the two ways to find a name in such a forest. Searching from
the inside out finds what is in the frame at the least distance at which the name is, and
assigning by search makes the change that assigning at that distance makes. The change is
seen by the environments that come to the same frame before any other with the name, and
by no others.
-/

namespace Lox

/-! ### The least distance of a name -/

namespace Store

variable {store : Store} {env : Env} {x y : String} {d i : Nat} {v : Value}

/-- The frame a number of steps out has a name. -/
def HoldsAt (store : Store) (env : Env) (d : Nat) (x : String) : Prop :=
  ∃ i rest, env.drop d = i :: rest ∧ store.Binds i x

/-- The least distance at which a name is. -/
structure Nearest (store : Store) (env : Env) (d : Nat) (x : String) : Prop where
  /-- The name is there. -/
  holds : store.HoldsAt env d x
  /-- It is at no smaller distance. -/
  least : ∀ d' < d, ¬store.HoldsAt env d' x

open Classical in
/-- A name that is somewhere is somewhere first. -/
theorem HoldsAt.exists_nearest (h : store.HoldsAt env d x) : ∃ d, store.Nearest env d x :=
  have hsome : ∃ d, store.HoldsAt env d x := ⟨d, h⟩
  ⟨Nat.find hsome, Nat.find_spec hsome, fun _ => Nat.find_min hsome⟩

/-- There is one least distance at most. -/
theorem Nearest.unique {d' : Nat} (h : store.Nearest env d x) (h' : store.Nearest env d' x) :
    d = d' := by
  have hle : ¬d' < d := fun hlt => h.least d' hlt h'.holds
  have hge : ¬d < d' := fun hlt => h'.least d hlt h.holds
  omega

/-- A name is at distance zero if the innermost frame has it. -/
theorem holdsAt_cons_zero : store.HoldsAt (i :: env) 0 x ↔ store.Binds i x := by
  simp [HoldsAt]

/-- A step out makes the distance smaller by one. -/
theorem holdsAt_cons_succ : store.HoldsAt (i :: env) (d + 1) x ↔ store.HoldsAt env d x := by
  simp [HoldsAt]

/-- From a step further out, a least distance is still the least. -/
theorem Nearest.tail (h : store.Nearest (i :: env) (d + 1) x) : store.Nearest env d x := by
  refine ⟨holdsAt_cons_succ.1 h.holds, fun d' hlt hd' => ?_⟩
  exact h.least (d' + 1) (by omega) (holdsAt_cons_succ.2 hd')

/-- The frame at the least distance is the one that a search comes to. -/
theorem Nearest.search (h : store.Nearest env d x) {rest : Env} (hd : env.drop d = i :: rest) :
    store.holder? env x = some i ∧ store.get? env x = (store.frame i).get? x := by
  induction env generalizing d with
  | nil => simp at hd
  | cons j env ih =>
    cases d with
    | zero =>
      obtain ⟨rfl, -⟩ : j = i ∧ env = rest := by simpa using hd
      have hbinds : ((store.frame j).get? x).isSome = true := holdsAt_cons_zero.1 h.holds
      obtain ⟨v, hv⟩ := Option.isSome_iff_exists.1 hbinds
      simp [holder?, get?, hv]
    | succ d =>
      have hnone : (store.frame j).get? x = none := by
        have hzero := h.least 0 (by omega)
        rw [holdsAt_cons_zero] at hzero
        simpa [Binds] using hzero
      obtain ⟨hholder, hget⟩ := ih h.tail (by simpa using hd)
      constructor
      · simpa [holder?, hnone] using hholder
      · simpa [get?, hnone] using hget

/-- Where no frame has a name, a search comes to nothing. -/
theorem search_eq_none (h : ∀ d, ¬store.HoldsAt env d x) :
    store.holder? env x = none ∧ store.get? env x = none := by
  induction env with
  | nil => exact ⟨rfl, rfl⟩
  | cons j rest ih =>
    have hnone : (store.frame j).get? x = none := by
      have hzero := h 0
      rw [holdsAt_cons_zero] at hzero
      simpa [Binds] using hzero
    obtain ⟨hholder, hget⟩ := ih fun d hd => h (d + 1) (holdsAt_cons_succ.2 hd)
    constructor
    · simpa [holder?, hnone] using hholder
    · simpa [get?, hnone] using hget

/-! ### Reading and assigning -/

/-- Where a name is, looking at that distance finds it. -/
theorem HoldsAt.frameAt (h : store.HoldsAt env d x) :
    ∃ i v, (∃ rest, env.drop d = i :: rest) ∧ (store.frame i).get? x = some v ∧
      store.frameAt env d x = .ok (i, v) := by
  obtain ⟨i, rest, hd, hbinds⟩ := h
  obtain ⟨v, hv⟩ := Option.isSome_iff_exists.1 hbinds
  exact ⟨i, v, ⟨rest, hd⟩, hv, frameAt_eq_ok.2 ⟨rest, hd, hv⟩⟩

/-- There is a fault exactly where no frame with the name is. -/
theorem frameAt_fault_iff : (∃ fault, store.frameAt env d x = .error fault) ↔
    ¬store.HoldsAt env d x := by
  constructor
  · rintro ⟨fault, hfault⟩ h
    obtain ⟨i, v, -, -, hok⟩ := h.frameAt
    rw [hfault] at hok
    cases hok
  · intro h
    cases hframe : store.frameAt env d x with
    | error fault => exact ⟨fault, rfl⟩
    | ok found =>
      obtain ⟨rest, hd, hv⟩ := frameAt_eq_ok.1 hframe
      exact absurd ⟨found.1, rest, hd, .of_get? hv⟩ h

/-- Reading at a distance is at fault exactly where the name is not. -/
theorem getAt_fault_iff : (∃ fault, store.getAt env d x = .error fault) ↔
    ¬store.HoldsAt env d x := by
  rw [← frameAt_fault_iff]
  unfold getAt
  cases store.frameAt env d x <;> simp [Functor.map, Except.map]

/-- So is assigning at a distance. -/
theorem assignAt_fault_iff : (∃ fault, store.assignAt env d x v = .error fault) ↔
    ¬store.HoldsAt env d x := by
  rw [← frameAt_fault_iff]
  unfold assignAt
  cases store.frameAt env d x <;> simp [Functor.map, Except.map]

/-- Assigning at a distance binds the name in the frame there. -/
theorem assignAt_eq_ok {after : Store} (h : store.assignAt env d x v = .ok after) :
    ∃ i rest, env.drop d = i :: rest ∧ store.Binds i x ∧ after = store.bindIn i x v := by
  unfold assignAt at h
  cases hframe : store.frameAt env d x with
  | error fault =>
    rw [hframe] at h
    cases h
  | ok found =>
    rw [hframe] at h
    cases h
    obtain ⟨rest, hd, hv⟩ := frameAt_eq_ok.1 hframe
    exact ⟨found.1, rest, hd, .of_get? hv, rfl⟩

/-- A search reads what the frame at the least distance has. -/
theorem Nearest.read {name : Name} (h : store.Nearest env d name.text) {rest : Env}
    (hd : env.drop d = i :: rest) (hv : (store.frame i).get? name.text = some v) :
    store.read env name = .ok v := by
  rw [Store.read, (h.search hd).2, hv]

/-- Reading by search yields what is at the least distance. -/
theorem Nearest.read_eq_getAt {name : Name} (h : store.Nearest env d name.text) :
    ∃ v, store.read env name = .ok v ∧ store.getAt env d name.text = .ok v := by
  obtain ⟨i, v, ⟨rest, hd⟩, hv, -⟩ := h.holds.frameAt
  exact ⟨v, h.read hd hv, getAt_eq_ok.2 ⟨i, rest, hd, hv⟩⟩

/-- Assigning by search is assigning at the least distance. -/
theorem Nearest.write_eq_assignAt {name : Name} (h : store.Nearest env d name.text) (v : Value) :
    ∃ after, store.write env name v = .ok after ∧
      store.assignAt env d name.text v = .ok after := by
  obtain ⟨i, u, ⟨rest, hd⟩, -, hframe⟩ := h.holds.frameAt
  have hassign : store.assign? env name.text v = some (store.bindIn i name.text v) := by
    rw [assign?, (h.search hd).1]
    rfl
  refine ⟨store.bindIn i name.text v, by rw [Store.write, hassign], ?_⟩
  rw [assignAt, hframe]
  rfl

/-- Reading a name that is nowhere is an error, on the line of the name. -/
theorem read_of_not_holdsAt {name : Name} (h : ∀ d, ¬store.HoldsAt env d name.text) :
    store.read env name = .error ⟨name.line, .undefinedVariable name.text⟩ := by
  rw [Store.read, (search_eq_none h).2]

/-- So is assigning to it. -/
theorem write_of_not_holdsAt {name : Name} (h : ∀ d, ¬store.HoldsAt env d name.text) (v : Value) :
    store.write env name v = .error ⟨name.line, .undefinedVariable name.text⟩ := by
  rw [Store.write, assign?, (search_eq_none h).1]
  rfl

/-- Reading by search succeeds exactly if some frame has the name. -/
theorem read_succeeds_iff {name : Name} :
    (∃ v, store.read env name = .ok v) ↔ ∃ d, store.HoldsAt env d name.text := by
  constructor
  · rintro ⟨v, hv⟩
    by_contra hnone
    rw [read_of_not_holdsAt fun d hd => hnone ⟨d, hd⟩] at hv
    cases hv
  · rintro ⟨d, hd⟩
    obtain ⟨d, hnearest⟩ := hd.exists_nearest
    obtain ⟨v, hv, -⟩ := hnearest.read_eq_getAt
    exact ⟨v, hv⟩

/-- A name that is bound already stays where it is, and no name is added. -/
theorem binds_bindIn_iff {j : Nat} (h : store.Binds i x) :
    (store.bindIn i x v).Binds j y ↔ store.Binds j y := by
  have hget : ((store.bindIn i x v).frame j).get? y =
      if j = i ∧ y = x then some v else (store.frame j).get? y := get?_bindIn h.lt_size
  unfold Binds at h ⊢
  rw [hget]
  by_cases hjy : j = i ∧ y = x
  · rw [if_pos hjy, hjy.1, hjy.2, h]
    simp
  · rw [if_neg hjy]

/-- Binding a name anew does not move any name. -/
theorem holdsAt_bindIn_iff (h : store.Binds i x) :
    (store.bindIn i x v).HoldsAt env d y ↔ store.HoldsAt env d y := by
  unfold HoldsAt
  simp only [binds_bindIn_iff h]

/-- So the least distances stay what they are. -/
theorem Nearest.bindIn (h : store.Nearest env d y) (hi : store.Binds i x) :
    (store.bindIn i x v).Nearest env d y :=
  ⟨(holdsAt_bindIn_iff hi).2 h.holds,
    fun d' hlt hd' => h.least d' hlt ((holdsAt_bindIn_iff hi).1 hd')⟩

/-- An environment comes to another one without a nearer frame that has the name. -/
def Sees (store : Store) (env ancestor : Env) (x : String) : Prop :=
  ∃ d, env.drop d = ancestor ∧ ∀ d' < d, ¬store.HoldsAt env d' x

end Store

/-! ### Forests -/

/-- Environments in the order of their creation, over the store that they share. -/
structure Forest where
  /-- The store of all environments. -/
  store : Store
  /-- The environments by their numbers. -/
  envs : Array Env

namespace Forest

/-- What can be done to a forest; environments are given by their numbers. -/
inductive Change where
  /-- An environment inside no other. -/
  | new
  /-- An environment inside another one. -/
  | child (parent : Nat)
  /-- A name is bound in an environment. -/
  | define (k : Nat) (text : String) (value : Value)
  /-- A name is assigned to by search. -/
  | assign (k : Nat) (name : Name) (value : Value)
  /-- A name is assigned to at a distance. -/
  | assignAt (k distance : Nat) (text : String) (value : Value)

/-- A forest without environments. -/
def empty : Forest := ⟨.empty, #[]⟩

/-- The environment with a number; a number that none has stands for no frames. -/
def env (forest : Forest) (k : Nat) : Env := forest.envs.getD k []

/-- A new environment inside another one, or inside none. -/
def grow (forest : Forest) (enclosing : Env) : Forest :=
  let (env, store) := forest.store.newFrame enclosing []
  ⟨store, forest.envs.push env⟩

/-- The forest after an operation on its store; one that fails changes nothing. -/
def withStore {ε : Type} (forest : Forest) : Except ε Store → Forest
  | .ok store => { forest with store := store }
  | .error _ => forest

/-- The forest after a change. -/
def apply (forest : Forest) : Change → Forest
  | .new => forest.grow []
  | .child parent =>
    match forest.envs[parent]? with
    | some env => forest.grow env
    | none => forest
  | .define k text value =>
    { forest with store := forest.store.define (forest.env k) text value }
  | .assign k name value => forest.withStore (forest.store.write (forest.env k) name value)
  | .assignAt k distance text value =>
    forest.withStore (forest.store.assignAt (forest.env k) distance text value)

/-- The forest that some changes build from nothing. -/
def built (changes : List Change) : Forest := changes.foldl apply empty

/-- Every environment has a frame of its own, with its number, and is otherwise empty or
an older environment. -/
structure Grown (forest : Forest) : Prop where
  /-- There are as many environments as frames. -/
  size : forest.envs.size = forest.store.frames.size
  /-- An environment starts with its own frame, and goes on as an older one or not at all. -/
  shape : ∀ (k : Nat) (env : Env), forest.envs[k]? = some env → ∃ rest, env = k :: rest ∧
    (rest = [] ∨ ∃ p < k, forest.envs[p]? = some rest)

/-- An environment of a forest is known by its number. -/
theorem env_of_getElem? {forest : Forest} {k : Nat} {env : Env}
    (h : forest.envs[k]? = some env) : forest.env k = env := by
  simp [Forest.env, Array.getD_eq_getD_getElem?, h]

namespace Grown

variable {forest : Forest} {k j d d' i : Nat} {env env' rest rest' : Env}

/-- What is some steps out is an environment of the forest. -/
theorem getElem?_of_drop (h : forest.Grown) (hk : forest.envs[k]? = some env)
    (hd : env.drop d = i :: rest) : forest.envs[i]? = some (i :: rest) := by
  induction d generalizing k env with
  | zero =>
    obtain ⟨tail, rfl, -⟩ := h.shape k env hk
    obtain ⟨rfl, rfl⟩ : k = i ∧ tail = rest := by simpa using hd
    exact hk
  | succ d ih =>
    obtain ⟨tail, rfl, rfl | ⟨p, -, hp⟩⟩ := h.shape k env hk
    · simp at hd
    · exact ih hp (by simpa using hd)

/-- Two environments with a frame in common have all frames around it in common. -/
theorem drop_unique (h : forest.Grown) (hk : forest.envs[k]? = some env)
    (hj : forest.envs[j]? = some env') (hd : env.drop d = i :: rest)
    (hd' : env'.drop d' = i :: rest') : env'.drop d' = env.drop d := by
  have hfirst := h.getElem?_of_drop hk hd
  have hsecond := h.getElem?_of_drop hj hd'
  rw [hfirst] at hsecond
  rw [hd, hd', Option.some.inj hsecond]

/-- One more environment keeps the shape of a forest. -/
theorem grow (h : forest.Grown) {enclosing : Env}
    (hin : enclosing = [] ∨ ∃ p : Nat, forest.envs[p]? = some enclosing) :
    (forest.grow enclosing).Grown := by
  have hsize : (forest.grow enclosing).envs.size = forest.envs.size + 1 := Array.size_push _
  have hold : ∀ p : Nat, p < forest.envs.size →
      (forest.grow enclosing).envs[p]? = forest.envs[p]? := by
    intro p hp
    simp [Forest.grow, Array.getElem?_push, Nat.ne_of_lt hp]
  have hlt : ∀ {p : Nat} {env : Env}, forest.envs[p]? = some env → p < forest.envs.size := by
    intro p env hp
    exact (Array.getElem?_eq_some_iff.1 hp).1
  refine ⟨?_, fun k env hk => ?_⟩
  · have hframes : (forest.grow enclosing).store.frames.size = forest.store.frames.size + 1 :=
      Array.size_push _
    rw [hsize, hframes, h.size]
  · by_cases hnew : k = forest.envs.size
    · have henv : env = forest.store.frames.size :: enclosing := by
        simpa [Forest.grow, Store.newFrame, hnew] using hk.symm
      refine ⟨enclosing, by rw [henv, hnew, h.size], ?_⟩
      rcases hin with hnil | ⟨p, hp⟩
      · exact .inl hnil
      · have hpk : p < k := hnew ▸ hlt hp
        exact .inr ⟨p, hpk, by rw [hold p (hlt hp), hp]⟩
    · have hk' : forest.envs[k]? = some env := by
        simpa [Forest.grow, Array.getElem?_push, hnew] using hk
      obtain ⟨rest, henv, hrest⟩ := h.shape k env hk'
      refine ⟨rest, henv, ?_⟩
      rcases hrest with hnil | ⟨p, hpk, hp⟩
      · exact .inl hnil
      · exact .inr ⟨p, hpk, by rw [hold p (hlt hp), hp]⟩

/-- Only the number of frames matters. -/
theorem withFrames (h : forest.Grown) {store : Store}
    (hsize : store.frames.size = forest.store.frames.size) :
    Grown { forest with store := store } :=
  ⟨h.size.trans hsize.symm, h.shape⟩

end Grown

/-- Declaring a name makes no frame. -/
theorem size_define {store : Store} {env : Env} {x : String} {v : Value} :
    (store.define env x v).frames.size = store.frames.size := by
  cases env with
  | nil => rfl
  | cons i rest => exact Store.size_bindIn

/-- Assigning by search makes no frame. -/
theorem size_write {store after : Store} {env : Env} {name : Name} {v : Value}
    (h : store.write env name v = .ok after) : after.frames.size = store.frames.size := by
  unfold Store.write Store.assign? at h
  cases hholder : store.holder? env name.text with
  | none =>
    rw [hholder] at h
    cases h
  | some i =>
    rw [hholder] at h
    cases h
    exact Store.size_bindIn

/-- Assigning at a distance makes no frame. -/
theorem size_assignAt {store after : Store} {env : Env} {d : Nat} {x : String} {v : Value}
    (h : store.assignAt env d x v = .ok after) : after.frames.size = store.frames.size := by
  obtain ⟨i, rest, -, -, rfl⟩ := Store.assignAt_eq_ok h
  exact Store.size_bindIn

namespace Grown

variable {forest : Forest}

/-- An operation on the store that makes no frame keeps the shape of a forest, also if it
fails. -/
theorem withStore (h : forest.Grown) {ε : Type} {result : Except ε Store}
    (hsize : ∀ after, result = .ok after → after.frames.size = forest.store.frames.size) :
    (forest.withStore result).Grown := by
  cases result with
  | error e => exact h
  | ok after => exact h.withFrames (hsize after rfl)

/-- One change keeps the shape of a forest. -/
theorem apply (h : forest.Grown) (change : Change) : (forest.apply change).Grown := by
  cases change with
  | new => exact h.grow (.inl rfl)
  | child parent =>
    simp only [Forest.apply]
    split
    next env henv => exact h.grow (.inr ⟨parent, henv⟩)
    next => exact h
  | define k text value => exact h.withFrames size_define
  | assign k name value => exact h.withStore fun _ => size_write
  | assignAt k distance text value => exact h.withStore fun _ => size_assignAt

end Grown

/-- Every forest built from nothing has the shape. -/
theorem grown_built (changes : List Change) : (built changes).Grown := by
  have hfrom : ∀ {forest : Forest}, forest.Grown → (changes.foldl apply forest).Grown := by
    induction changes with
    | nil => exact id
    | cons change changes ih => exact fun h => ih (h.apply change)
  exact hfrom ⟨rfl, by simp [empty]⟩

/-! ### Searching and looking at a distance -/

/-- A name has got a value in the frame some steps out of an environment. -/
structure Assigned (forest : Forest) (env : Env) (d : Nat) (x : String) (v : Value)
    (after : Store) : Prop where
  /-- Whoever comes to that frame before another one with the name reads the value. -/
  seen : ∀ (j : Nat) (env' : Env) (name : Name), forest.envs[j]? = some env' →
    name.text = x → forest.store.Sees env' (env.drop d) x → after.read env' name = .ok v
  /-- Everything else is read as before. -/
  unseen : ∀ (j : Nat) (env' : Env) (name : Name), forest.envs[j]? = some env' →
    ¬(name.text = x ∧ forest.store.Sees env' (env.drop d) x) →
    after.read env' name = forest.store.read env' name
  /-- No other place of the forest has changed. -/
  places : ∀ (j : Nat) (env' : Env) (d' : Nat) (y : String), forest.envs[j]? = some env' →
    after.getAt env' d' y = if env'.drop d' = env.drop d ∧ y = x then .ok v
      else forest.store.getAt env' d' y

/-- Two forests have the same environments, with the same names in the same frames. -/
structure SameNames (forest after : Forest) : Prop where
  /-- The environments are the same. -/
  envs : after.envs = forest.envs
  /-- There are as many frames. -/
  size : after.store.frames.size = forest.store.frames.size
  /-- A frame has the same names. -/
  binds : ∀ i y, after.store.Binds i y ↔ forest.store.Binds i y

/-- A forest has its own names. -/
theorem SameNames.refl (forest : Forest) : SameNames forest forest :=
  ⟨rfl, rfl, fun _ _ => .rfl⟩

/-- How searching for a name from an environment compares with looking at a distance. -/
structure LookupsAgree (forest : Forest) (k : Nat) (env : Env) (name : Name) : Prop where
  /-- A search finds a name exactly if some frame has it. -/
  found : (∃ v, forest.store.read env name = .ok v) ↔ ∃ d, forest.store.HoldsAt env d name.text
  /-- It finds what is at the least distance. -/
  read : ∀ d, forest.store.Nearest env d name.text →
    ∃ v, forest.store.read env name = .ok v ∧ forest.store.getAt env d name.text = .ok v
  /-- Assigning by search and at the least distance make the same change. -/
  assigned : ∀ d, forest.store.Nearest env d name.text → ∀ v, ∃ after,
    forest.store.write env name v = .ok after ∧
    forest.store.assignAt env d name.text v = .ok after ∧
    forest.apply (.assign k name v) = { forest with store := after } ∧
    forest.apply (.assignAt k d name.text v) = { forest with store := after } ∧
    Assigned forest env d name.text v after
  /-- A name that is nowhere is undefined, and a failing assignment changes nothing. -/
  missing : (∀ d, ¬forest.store.HoldsAt env d name.text) →
    forest.store.read env name = .error ⟨name.line, .undefinedVariable name.text⟩ ∧
    ∀ v, forest.store.write env name v = .error ⟨name.line, .undefinedVariable name.text⟩ ∧
      forest.apply (.assign k name v) = forest
  /-- Assigning creates no names. -/
  names : ∀ v, SameNames forest (forest.apply (.assign k name v)) ∧
    ∀ d, SameNames forest (forest.apply (.assignAt k d name.text v))
  /-- Looking at a distance faults exactly if there is no frame or it lacks the name. -/
  faults : ∀ d, ((∃ fault, forest.store.getAt env d name.text = .error fault) ↔
      env.length ≤ d ∨ ∃ i rest, env.drop d = i :: rest ∧ ¬forest.store.Binds i name.text) ∧
    ∀ v, (∃ fault, forest.store.assignAt env d name.text v = .error fault) ↔
      env.length ≤ d ∨ ∃ i rest, env.drop d = i :: rest ∧ ¬forest.store.Binds i name.text

end Forest

namespace Store

variable {store : Store} {env : Env} {x : String} {d i : Nat}

/-- A name is not at a distance if there is no frame, or if the frame lacks it. -/
theorem not_holdsAt_iff : ¬store.HoldsAt env d x ↔
    env.length ≤ d ∨ ∃ i rest, env.drop d = i :: rest ∧ ¬store.Binds i x := by
  rw [← List.drop_eq_nil_iff]
  unfold HoldsAt
  cases env.drop d with
  | nil => simp
  | cons j rest => simp

/-- The nearest frame with a name is the one that an environment sees. -/
theorem Nearest.sees_iff {env' : Env} {d' : Nat} (h : store.Nearest env' d' x)
    (hd : store.HoldsAt env d x) : store.Sees env' (env.drop d) x ↔ env'.drop d' = env.drop d := by
  constructor
  · rintro ⟨e, he, hleast⟩
    have hholds : store.HoldsAt env' e x := by
      obtain ⟨i, rest, hdrop, hbinds⟩ := hd
      exact ⟨i, rest, he.trans hdrop, hbinds⟩
    rw [h.unique ⟨hholds, hleast⟩, he]
  · exact fun hdrop => ⟨d', hdrop, h.least⟩

end Store

namespace Forest

variable {forest : Forest} {k d i : Nat} {env rest : Env} {x : String} {v : Value}

namespace Grown

/-- Frames of a forest are the same if what is some steps out is. -/
theorem drop_eq_iff (h : forest.Grown) (hk : forest.envs[k]? = some env)
    (hd : env.drop d = i :: rest) {j d' i' : Nat} {env' rest' : Env}
    (hj : forest.envs[j]? = some env') (hd' : env'.drop d' = i' :: rest') :
    env'.drop d' = env.drop d ↔ i' = i := by
  constructor
  · intro heq
    rw [hd, hd'] at heq
    cases heq
    rfl
  · rintro rfl
    exact h.drop_unique hk hj hd hd'

/-- Binding a name anew in a frame that has it is seen from below that frame only. -/
theorem assigned_bindIn (h : forest.Grown) (hk : forest.envs[k]? = some env)
    (hd : env.drop d = i :: rest) (hbinds : forest.store.Binds i x) :
    Assigned forest env d x v (forest.store.bindIn i x v) := by
  have hget : ∀ j y, ((forest.store.bindIn i x v).frame j).get? y =
      if j = i ∧ y = x then some v else (forest.store.frame j).get? y :=
    fun j y => Store.get?_bindIn hbinds.lt_size
  -- Where a search comes to before the change is where it comes to after it.
  have hread : ∀ (j d' : Nat) (env' : Env) (name : Name), forest.envs[j]? = some env' →
      forest.store.Nearest env' d' name.text → (forest.store.bindIn i x v).read env' name =
        if env'.drop d' = env.drop d ∧ name.text = x then .ok v
        else forest.store.read env' name := by
    intro j d' env' name hj hnearest
    obtain ⟨i', u, ⟨rest', hd'⟩, hu, -⟩ := hnearest.holds.frameAt
    simp only [h.drop_eq_iff hk hd hj hd']
    have hafter := hget i' name.text
    by_cases hsame : i' = i ∧ name.text = x
    · rw [if_pos hsame] at hafter ⊢
      exact (hnearest.bindIn hbinds).read hd' hafter
    · rw [if_neg hsame] at hafter ⊢
      rw [(hnearest.bindIn hbinds).read hd' (hafter.trans hu), hnearest.read hd' hu]
  have hholds : forest.store.HoldsAt env d x := ⟨i, rest, hd, hbinds⟩
  refine ⟨?_, ?_, ?_⟩
  · rintro j env' name hj rfl ⟨d', hd', hleast⟩
    have hnearest : forest.store.Nearest env' d' name.text :=
      ⟨⟨i, rest, hd'.trans hd, hbinds⟩, hleast⟩
    rw [hread j d' env' name hj hnearest, if_pos ⟨hd', rfl⟩]
  · intro j env' name hj hunseen
    by_cases hsome : ∃ d', forest.store.HoldsAt env' d' name.text
    · obtain ⟨_, hd'⟩ := hsome
      obtain ⟨d', hnearest⟩ := hd'.exists_nearest
      rw [hread j d' env' name hj hnearest, if_neg]
      rintro ⟨hdrop, rfl⟩
      exact hunseen ⟨rfl, (hnearest.sees_iff hholds).2 hdrop⟩
    · have hnone : ∀ d', ¬forest.store.HoldsAt env' d' name.text := fun d' hd' => hsome ⟨d', hd'⟩
      rw [Store.read_of_not_holdsAt hnone, Store.read_of_not_holdsAt]
      exact fun d' hd' => hnone d' ((Store.holdsAt_bindIn_iff hbinds).1 hd')
  · intro j env' d' y hj
    unfold Store.getAt Store.frameAt
    cases hd' : env'.drop d' with
    | nil => simp [hd]
    | cons i' rest' =>
      simp only [← hd', h.drop_eq_iff hk hd hj hd']
      by_cases hsame : i' = i ∧ y = x
      · rw [if_pos hsame]
        simp [hget, hsame, Functor.map, Except.map]
      · rw [if_neg hsame]
        simp [hget, hsame]

end Grown

/-- Binding a name anew in a frame that has it adds no name anywhere. -/
theorem sameNames_bindIn (h : forest.store.Binds i x) :
    SameNames forest { forest with store := forest.store.bindIn i x v } :=
  ⟨rfl, Store.size_bindIn, fun _ _ => Store.binds_bindIn_iff h⟩

/-- Assigning at a distance creates no names. -/
theorem sameNames_assignAt (text : String) :
    SameNames forest (forest.apply (.assignAt k d text v)) := by
  rw [apply]
  cases hassign : forest.store.assignAt (forest.env k) d text v with
  | error fault => exact .refl forest
  | ok after =>
    obtain ⟨i, rest, -, hbinds, rfl⟩ := Store.assignAt_eq_ok hassign
    exact sameNames_bindIn hbinds

/-- Where assigning by search succeeds, the change puts the store that it yields in place. -/
theorem apply_assign_of_write {name : Name} {after : Store} (hk : forest.envs[k]? = some env)
    (h : forest.store.write env name v = .ok after) :
    forest.apply (.assign k name v) = { forest with store := after } := by
  rw [apply, env_of_getElem? hk, h]
  rfl

/-- Where assigning at a distance succeeds, the change puts the store that it yields in place. -/
theorem apply_assignAt_of_ok {after : Store} (hk : forest.envs[k]? = some env)
    (h : forest.store.assignAt env d x v = .ok after) :
    forest.apply (.assignAt k d x v) = { forest with store := after } := by
  rw [apply, env_of_getElem? hk, h]
  rfl

/-- **In every forest, searching for a name is looking at the least distance at which it
is.** -/
theorem built_lookups_agree (changes : List Change) (k : Nat) (env : Env) (name : Name)
    (hk : (built changes).envs[k]? = some env) : LookupsAgree (built changes) k env name := by
  have hgrown := grown_built changes
  generalize built changes = forest at hgrown hk
  have hmissing : (∀ d, ¬forest.store.HoldsAt env d name.text) → ∀ v,
      forest.apply (.assign k name v) = forest := by
    intro hnone v
    rw [apply, env_of_getElem? hk, Store.write_of_not_holdsAt hnone]
    rfl
  have hsame : ∀ d v, forest.store.Nearest env d name.text →
      forest.apply (.assign k name v) = forest.apply (.assignAt k d name.text v) := by
    intro d v hnearest
    obtain ⟨after, hwrite, hassign⟩ := hnearest.write_eq_assignAt v
    rw [apply_assign_of_write hk hwrite, apply_assignAt_of_ok hk hassign]
  refine ⟨Store.read_succeeds_iff, fun d hnearest => hnearest.read_eq_getAt, ?_, ?_, ?_, ?_⟩
  · intro d hnearest v
    obtain ⟨after, hwrite, hassign⟩ := hnearest.write_eq_assignAt v
    obtain ⟨i, rest, hd, hbinds, rfl⟩ := Store.assignAt_eq_ok hassign
    exact ⟨_, hwrite, hassign, apply_assign_of_write hk hwrite, apply_assignAt_of_ok hk hassign,
      hgrown.assigned_bindIn hk hd hbinds⟩
  · intro hnone
    exact ⟨Store.read_of_not_holdsAt hnone,
      fun v => ⟨Store.write_of_not_holdsAt hnone v, hmissing hnone v⟩⟩
  · refine fun v => ⟨?_, fun d => sameNames_assignAt name.text⟩
    by_cases hsome : ∃ d, forest.store.HoldsAt env d name.text
    · obtain ⟨_, hd⟩ := hsome
      obtain ⟨d, hnearest⟩ := hd.exists_nearest
      rw [hsame d v hnearest]
      exact sameNames_assignAt name.text
    · rw [hmissing (fun d hd => hsome ⟨d, hd⟩) v]
      exact .refl forest
  · intro d
    rw [Store.getAt_fault_iff, Store.not_holdsAt_iff]
    refine ⟨.rfl, fun v => ?_⟩
    rw [Store.assignAt_fault_iff, Store.not_holdsAt_iff]

/-- Two environments inside one: the first has a name again, the second sees the outer one. -/
theorem lookups_agree_of_siblings :
    let changes : List Change := [.new, .child 0, .child 0, .define 0 "a" .nil,
      .define 1 "a" (.bool true), .assign 2 ⟨"a", 1⟩ (.bool false)]
    let name : Name := ⟨"a", 1⟩
    (built changes).envs = #[[0], [1, 0], [2, 0]] ∧
    LookupsAgree (built changes) 1 [1, 0] name ∧ LookupsAgree (built changes) 2 [2, 0] name :=
  ⟨rfl, built_lookups_agree _ 1 _ _ rfl, built_lookups_agree _ 2 _ _ rfl⟩

end Forest

end Lox

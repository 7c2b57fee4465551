import Mathlib.Logic.Function.Basic
import Lox.Proofs.Heap
import Lox.Proofs.Scope.Late

/-!
# Which names a frame will ever have

A search agrees with a distance if, of the frames of an environment, just those
have a name whose scopes have it at the place of the search. Of the code that is
running this can be said of each name it mentions. A function runs later than it
is declared, and its frames may have got names since; so for each frame a
forecast says which names it will ever have, and a function is ready if the
names that it mentions are forecast for no frame but those whose scopes had them
where it was declared.

Forecasts are made when a frame is, and they are never changed.
-/

namespace Lox

/-! ### Scopes and frames -/

/-- An environment with a frame for each scope, inside the global frame. -/
inductive Layers (P : Scope → Nat → Prop) : List Scope → Env → Prop where
  /-- Outside of all scopes there is the global frame. -/
  | globals : Layers P [] globalEnv
  /-- A scope has a frame, and the scopes around it have theirs. -/
  | inside {scope : Scope} {i : Nat} {scopes : List Scope} {env : Env} (h : P scope i)
      (hrest : Layers P scopes env) : Layers P (scope :: scopes) (i :: env)

/-- A frame has a name just if a scope does. -/
def Store.Shows (store : Store) (x : String) (scope : Scope) (i : Nat) : Prop :=
  scope.has x = true ↔ store.Binds i x

section Layers

variable {P Q : Scope → Nat → Prop} {scopes : List Scope} {env : Env} {store : Store}
  {x : String} {d : Nat}

/-- What holds of each frame and its scope may be weakened. -/
theorem Layers.imp (h : Layers P scopes env) (hPQ : ∀ scope, ∀ i ∈ env, P scope i → Q scope i) :
    Layers Q scopes env := by
  induction h with
  | globals => exact .globals
  | inside h _ ih =>
    exact .inside (hPQ _ _ (.head _) h) (ih fun scope i hi => hPQ scope i (.tail _ hi))

/-- An environment has an innermost frame. -/
theorem Layers.cons (h : Layers P scopes env) : ∃ i rest, env = i :: rest := by
  cases h with
  | globals => exact ⟨0, [], rfl⟩
  | inside _ _ => exact ⟨_, _, rfl⟩

/-- Two statements about each frame and its scope may be made as one. -/
theorem Layers.and (h : Layers P scopes env) (h' : Layers Q scopes env) :
    Layers (fun scope i => P scope i ∧ Q scope i) scopes env := by
  induction h with
  | globals => exact .globals
  | inside h _ ih =>
    cases h' with
    | inside hq hrest => exact .inside ⟨h, hq⟩ (ih hrest)

/-- A search passes over a frame that does not have the name. -/
theorem Store.search_cons {i : Nat} (h : ¬store.Binds i x) :
    store.get? (i :: env) x = store.get? env x ∧
      store.holder? (i :: env) x = store.holder? env x := by
  have hnone : (store.frame i).get? x = none := by simpa [Store.Binds] using h
  constructor
  · rw [Store.get?, hnone, Option.none_or]
  · unfold Store.holder?
    rw [List.find?_cons_of_neg (by rw [hnone]; exact Bool.false_ne_true)]

/-- A name that a scope has is found at its distance, and by search in the same
frame. -/
theorem Layers.found (h : Layers (store.Shows x) scopes env)
    (hd : scopes.findIdx? (·.has x) = some d) :
    ∃ i v, env[d]? = some i ∧ (store.frame i).get? x = some v ∧ store.get? env x = some v ∧
      store.holder? env x = some i := by
  induction h generalizing d with
  | globals => cases hd
  | @inside scope i scopes env h _ ih =>
    rw [List.findIdx?_cons] at hd
    split at hd
    · rename_i hscope
      cases hd
      obtain ⟨v, hv⟩ := Option.isSome_iff_exists.1 (h.1 hscope)
      exact ⟨i, v, rfl, hv, by rw [Store.get?, hv, Option.some_or],
        List.find?_cons_of_pos (h.1 hscope)⟩
    · rename_i hscope
      obtain ⟨e, he, rfl⟩ := Option.map_eq_some_iff.1 hd
      obtain ⟨j, v, hj, hv, hget, hholder⟩ := ih he
      have hskip : store.get? (i :: env) x = _ ∧ _ :=
        Store.search_cons fun hi => hscope (h.2 hi)
      exact ⟨j, v, hj, hv, hskip.1.trans hget, hskip.2.trans hholder⟩

/-- A name that no scope has is looked for in the global frame, also by search. -/
theorem Layers.absent (h : Layers (store.Shows x) scopes env)
    (hd : scopes.findIdx? (·.has x) = none) :
    store.get? env x = store.get? globalEnv x ∧
      store.holder? env x = store.holder? globalEnv x := by
  induction h with
  | globals => exact ⟨rfl, rfl⟩
  | @inside scope i scopes env h _ ih =>
    rw [List.findIdx?_cons] at hd
    split at hd
    · cases hd
    · rename_i hscope
      have hskip : store.get? (i :: env) x = _ ∧ _ :=
        Store.search_cons fun hi => hscope (h.2 hi)
      obtain ⟨hget, hholder⟩ := ih (Option.map_eq_none_iff.1 hd)
      exact ⟨hskip.1.trans hget, hskip.2.trans hholder⟩

end Layers

/-! ### Forecasts -/

/-- The names that each frame will ever have, and the store. -/
structure Forecast where
  /-- The names that a frame will ever have. -/
  names : Nat → String → Prop
  /-- The store so far. -/
  store : Store

/-- A later forecast is the same for all frames that were there, and of these
only the frame `site`, if there is one, has got names. -/
structure Forecast.Before (site : Option Nat) (w w' : Forecast) : Prop where
  /-- What was forecast for a frame is never changed. -/
  names : ∀ i < w.store.frames.size, w'.names i = w.names i
  /-- No frame is lost. -/
  frames : w.store.frames.size ≤ w'.store.frames.size
  /-- No name is lost. -/
  kept : ∀ i x, w.store.Binds i x → w'.store.Binds i x
  /-- No other frame that was there has got a name. -/
  only : ∀ i x, i < w.store.frames.size → some i ≠ site → w'.store.Binds i x → w.store.Binds i x

namespace Forecast.Before

variable {site : Option Nat} {w w' w'' : Forecast}

/-- A forecast that stays as it is comes before itself. -/
theorem refl (site : Option Nat) (w : Forecast) : w.Before site w :=
  ⟨fun _ _ => rfl, Nat.le_refl _, fun _ _ h => h, fun _ _ _ _ h => h⟩

/-- Forecasts come before one another in a chain. -/
theorem trans (h : w.Before site w') (h' : w'.Before site w'') : w.Before site w'' where
  names := fun i hi => (h'.names i (Nat.lt_of_lt_of_le hi h.frames)).trans (h.names i hi)
  frames := Nat.le_trans h.frames h'.frames
  kept := fun i x hx => h'.kept i x (h.kept i x hx)
  only := fun i x hi hsite hx =>
    h.only i x hi hsite (h'.only i x (Nat.lt_of_lt_of_le hi h.frames) hsite hx)

/-- A frame that is new is no exception. -/
theorem weaken (h : w.Before site w') {site' : Option Nat}
    (hsite : ∀ i < w.store.frames.size, some i ≠ site' → some i ≠ site) : w.Before site' w' :=
  { h with only := fun i x hi hne => h.only i x hi (hsite i hi hne) }

/-- Where no frame has got a name, none but a given one has. -/
theorem anywhere (h : w.Before none w') (site : Option Nat) : w.Before site w' :=
  h.weaken fun _ _ _ => nofun

end Forecast.Before

/-! ### Functions, classes and values -/

/-- The frame of a scope has a name if the scope does, and will never have it if
the scope does not. -/
def Forecast.Fixes (w : Forecast) (x : String) (scope : Scope) (i : Nat) : Prop :=
  (scope.has x = true → w.store.Binds i x) ∧ (w.names i x → scope.has x = true)

/-- Environments of frames that are there, each once. -/
structure Env.Distinct (env : Env) (w : Forecast) : Prop where
  /-- No frame is there twice. -/
  nodup : env.Nodup
  /-- All frames are in the store. -/
  frames : ∀ i ∈ env, i < w.store.frames.size

/-- A closure whose frames have the names that it mentions, and the keywords,
where a place says, now and later. -/
structure Closure.Stays (w : Forecast) (Γ : Context) (c : Closure) : Prop where
  /-- Its frames are there, each once. -/
  env : c.env.Distinct w
  /-- None of its scopes declares a name late. -/
  timely : FunDecl.declaresLate c.decl = false
  /-- Its frames have what it mentions just if the scopes of the place do, now and later. -/
  fixes : ∀ x, x ∈ Reference.words (FunDecl.references c.decl) ∨ ¬IsPlain x →
    Layers (w.Fixes x) Γ.scopes c.env

section Ready

variable (K : Known) (w : Forecast)

/-- A function that can be called. -/
def Closure.Ready (c : Closure) : Prop :=
  ∃ Γ b, c.Stays w Γ ∧ FunDecl.Resolved K Γ b c.decl

/-- A method, which is resolved where `this` is bound. -/
def Closure.Unbound (c : Closure) : Prop :=
  ∃ Γ b, c.Stays w Γ ∧ FunDecl.Resolved K (Γ.enter [("this", true)]) b c.decl

/-- A class with the methods of its superclasses. -/
def Class.Ready (cls : Class) : Prop :=
  ∀ c ∈ cls.chain, ∀ method ∈ c.methods, method.Unbound K w

/-- A value that a program may hold. -/
def Value.Ready : Value → Prop
  | .function _ c => c.Ready K w
  | .cls c => c.Ready K w
  | .object _ c => c.Ready K w
  | _ => True

/-- A store whose frames have only names that are forecast and in which all
values are ready. -/
structure Forecast.Holds : Prop where
  /-- The global frame may get any name. -/
  globals : ∀ x, w.names 0 x
  /-- There is a global frame. -/
  positive : 0 < w.store.frames.size
  /-- A frame has no name that is not forecast. -/
  names : ∀ i x, w.store.Binds i x → w.names i x
  /-- The values of variables are ready. -/
  frames : ∀ i x v, (w.store.frame i).get? x = some v → v.Ready K w
  /-- The values of fields are ready. -/
  fields : ∀ object x v, w.store.field? object x = some v → v.Ready K w

/-- A machine with the store of a forecast and with the distances that are
known. -/
structure Machine.Under (m : Machine) : Prop where
  /-- The store of the machine is that of the forecast. -/
  store : w.store = m.store
  /-- The distances that are known are recorded. -/
  known : ∀ id d, K id d → m.distances[id]? = d
  /-- The forecast holds. -/
  holds : w.Holds K

end Ready

section Growth

variable {K : Known} {site : Option Nat} {w w' : Forecast}

/-- The frames of an environment are there in every later forecast. -/
theorem Env.Distinct.later {env : Env} (h : env.Distinct w) (hw : w.Before site w') :
    env.Distinct w' :=
  ⟨h.nodup, fun i hi => Nat.lt_of_lt_of_le (h.frames i hi) hw.frames⟩

/-- A closure sees the same names later as now, since its frames will never have others. -/
theorem Closure.Stays.later {Γ : Context} {c : Closure} (h : c.Stays w Γ)
    (hw : w.Before site w') : c.Stays w' Γ := by
  refine ⟨h.env.later hw, h.timely, fun x hx => (h.fixes x hx).imp fun scope i hi hfix => ?_⟩
  refine ⟨fun hscope => hw.kept i x (hfix.1 hscope), fun hname => hfix.2 ?_⟩
  rw [hw.names i (h.env.frames i hi)] at hname
  exact hname

/-- A function that can be called can be called later. -/
theorem Closure.Ready.later {c : Closure} (h : c.Ready K w) (hw : w.Before site w') :
    c.Ready K w' := by
  obtain ⟨Γ, b, hstays, hresolved⟩ := h
  exact ⟨Γ, b, hstays.later hw, hresolved⟩

/-- A method that can be bound can be bound later. -/
theorem Closure.Unbound.later {c : Closure} (h : c.Unbound K w) (hw : w.Before site w') :
    c.Unbound K w' := by
  obtain ⟨Γ, b, hstays, hresolved⟩ := h
  exact ⟨Γ, b, hstays.later hw, hresolved⟩

/-- A class that can be called can be called later. -/
theorem Class.Ready.later {cls : Class} (h : cls.Ready K w) (hw : w.Before site w') :
    cls.Ready K w' :=
  fun c hc method hmethod => (h c hc method hmethod).later hw

/-- A value that a program may hold may be held later. -/
theorem Value.Ready.later {v : Value} (h : v.Ready K w) (hw : w.Before site w') :
    v.Ready K w' := by
  cases v with
  | function id c => exact Closure.Ready.later h hw
  | cls c => exact Class.Ready.later h hw
  | object id c => exact Class.Ready.later h hw
  | _ => trivial

/-- A method that is found in a class can be bound. -/
theorem Class.Ready.findMethod? {cls : Class} (h : cls.Ready K w) {text : String}
    {method : Closure} (hfind : cls.findMethod? text = some method) : method.Unbound K w := by
  obtain ⟨c, hc, hmethod, -⟩ := Class.findMethod?_mem hfind
  exact h c hc method hmethod

/-- A new class is ready if its methods are and its superclass is. -/
theorem Class.Ready.declared {id : Nat} {name : String} {parent : Option Class}
    {methods : List Closure} (hparent : ∀ c ∈ parent, c.Ready K w)
    (hmethods : ∀ method ∈ methods, method.Unbound K w) :
    (⟨id, name, parent, methods⟩ : Class).Ready K w := by
  intro c hc
  cases parent with
  | none =>
    rw [List.mem_singleton.1 hc]
    exact hmethods
  | some s =>
    rcases List.mem_cons.1 hc with rfl | hc
    · exact hmethods
    · exact hparent s rfl c hc

end Growth

/-! ### Changes of a store -/

namespace Forecast

variable {K : Known} {site : Option Nat} {w : Forecast}

/-- The forecast with another store. -/
def withStore (w : Forecast) (store : Store) : Forecast := ⟨w.names, store⟩

/-- A change that leaves the frames alone is forecast by anything. -/
theorem before_withStore (site : Option Nat) {store : Store}
    (hframes : store.frames = w.store.frames) : w.Before site (w.withStore store) := by
  have hbinds : ∀ i x, store.Binds i x ↔ w.store.Binds i x := by
    intro i x
    unfold Store.Binds Store.frame
    rw [hframes]
  exact ⟨fun _ _ => rfl, Nat.le_of_eq (congrArg Array.size hframes.symm),
    fun i x => (hbinds i x).2, fun i x _ _ => (hbinds i x).1⟩

/-- A change that leaves the frames alone. -/
theorem Holds.withStore (h : w.Holds K) {store : Store} (hframes : store.frames = w.store.frames)
    (hfields : ∀ object x v, store.field? object x = some v →
      w.store.field? object x = some v ∨ v.Ready K w) : (w.withStore store).Holds K := by
  have hbefore := before_withStore (w := w) none hframes
  have hframe : ∀ i, store.frame i = w.store.frame i := by
    intro i
    unfold Store.frame
    rw [hframes]
  refine ⟨h.globals, Nat.lt_of_lt_of_le h.positive hbefore.frames, fun i x hx => ?_,
    fun i x v hv => ?_, fun object x v hv => ?_⟩
  · refine h.names i x ?_
    rw [Store.Binds, ← hframe i]
    exact hx
  · change (store.frame i).get? x = some v at hv
    rw [hframe i] at hv
    exact (h.frames i x v hv).later hbefore
  · rcases hfields object x v hv with hold | hnew
    · exact (h.fields object x v hold).later hbefore
    · exact hnew.later hbefore

/-- Which names the frames have once one of them got a value. -/
theorem binds_bindIn {i j : Nat} {x y : String} {v : Value} (hi : i < w.store.frames.size) :
    (w.store.bindIn i x v).Binds j y ↔ (j = i ∧ y = x) ∨ w.store.Binds j y := by
  unfold Store.Binds
  rw [Store.get?_bindIn hi]
  split <;> simp_all

/-- A binding makes a later forecast if it is in the frame that may get names, or if its
name was bound there before. -/
theorem before_bindIn {i : Nat} {x : String} {v : Value} (hi : i < w.store.frames.size)
    (hsite : some i = site ∨ w.store.Binds i x) :
    w.Before site (w.withStore (w.store.bindIn i x v)) := by
  refine ⟨fun _ _ => rfl, Nat.le_of_eq Store.size_bindIn.symm, fun j y hy => ?_,
    fun j y _ hne hy => ?_⟩
  · exact (binds_bindIn hi).2 (.inr hy)
  · rcases (binds_bindIn hi).1 hy with ⟨rfl, rfl⟩ | hy
    · exact hsite.resolve_left hne
    · exact hy

/-- A name that is forecast for a frame gets a value, which may be ready only
then. -/
theorem Holds.bindIn (h : w.Holds K) {i : Nat} {x : String} {v : Value}
    (hi : i < w.store.frames.size) (hx : w.names i x)
    (hv : v.Ready K (w.withStore (w.store.bindIn i x v))) :
    (w.withStore (w.store.bindIn i x v)).Holds K := by
  have hbefore : w.Before (some i) (w.withStore (w.store.bindIn i x v)) :=
    before_bindIn hi (.inl rfl)
  refine ⟨h.globals, Nat.lt_of_lt_of_le h.positive hbefore.frames, fun j y hy => ?_,
    fun j y u hu => ?_, fun object y u hu => (h.fields object y u hu).later hbefore⟩
  · rcases (binds_bindIn hi).1 hy with ⟨rfl, rfl⟩ | hy
    · exact hx
    · exact h.names j y hy
  · change ((w.store.bindIn i x v).frame j).get? y = some u at hu
    rw [Store.get?_bindIn hi] at hu
    split at hu
    · cases hu
      exact hv
    · exact (h.frames j y u hu).later hbefore

/-- The forecast with one more frame, and of its names. -/
def push (w : Forecast) (names : List String) (env : Env) (bindings : Bindings) : Forecast :=
  ⟨Function.update w.names w.store.frames.size (· ∈ names), (w.store.newFrame env bindings).2⟩

variable {names : List String} {env : Env} {bindings : Bindings}

/-- There is one more frame. -/
theorem size_push : (w.push names env bindings).store.frames.size = w.store.frames.size + 1 :=
  Array.size_push _

/-- The new frame is forecast to have just the names it is made with. -/
theorem names_push_self {x : String} :
    (w.push names env bindings).names w.store.frames.size x ↔ x ∈ names :=
  iff_of_eq (congrFun (Function.update_self ..) x)

/-- The new frame has the names it is given values for. -/
theorem binds_push_self {x : String} :
    (w.push names env bindings).store.Binds w.store.frames.size x ↔ (bindings.get? x).isSome := by
  change ((w.store.newFrame env bindings).2.frame w.store.frames.size |>.get? x).isSome ↔ _
  rw [Store.frame_newFrame_self]

/-- A new frame leaves the forecasts of the others as they were. -/
theorem before_push (site : Option Nat) (w : Forecast) (names : List String) (env : Env)
    (bindings : Bindings) : w.Before site (w.push names env bindings) where
  names := fun i hi => Function.update_of_ne (Nat.ne_of_lt hi) _ _
  frames := by
    rw [size_push]
    exact Nat.le_succ _
  kept := fun i x hx => by
    change ((w.store.newFrame env bindings).2.frame i |>.get? x).isSome
    rw [Store.frame_newFrame_of_lt hx.lt_size]
    exact hx
  only := fun i x hi _ hx => by
    change ((w.store.newFrame env bindings).2.frame i |>.get? x).isSome at hx
    rw [Store.frame_newFrame_of_lt hi] at hx
    exact hx

/-- A new frame that has only names that are forecast for it. -/
theorem Holds.push (h : w.Holds K) (hnames : ∀ x, (bindings.get? x).isSome → x ∈ names)
    (hvalues : ∀ x v, bindings.get? x = some v → v.Ready K w) :
    (w.push names env bindings).Holds K := by
  have hbefore := before_push none w names env bindings
  refine ⟨fun x => ?_, Nat.lt_of_lt_of_le h.positive hbefore.frames, fun i x hx => ?_,
    fun i x v hv => ?_, fun object x v hv => (h.fields object x v hv).later hbefore⟩
  · rw [hbefore.names 0 h.positive]
    exact h.globals x
  · by_cases hnew : i = w.store.frames.size
    · rw [hnew] at hx ⊢
      rw [names_push_self]
      exact hnames x (binds_push_self.1 hx)
    · have hi : i < w.store.frames.size := by
        have hlt := hx.lt_size
        rw [size_push] at hlt
        omega
      rw [hbefore.names i hi]
      exact h.names i x (hbefore.only i x hi nofun hx)
  · change ((w.store.newFrame env bindings).2.frame i).get? x = some v at hv
    by_cases hnew : i = w.store.frames.size
    · rw [hnew, Store.frame_newFrame_self] at hv
      exact (hvalues x v hv).later hbefore
    · rw [Store.frame_newFrame_of_ne hnew] at hv
      exact (h.frames i x v hv).later hbefore

/-- A new frame is different from those of an environment. -/
theorem distinct_push (henv : env.Distinct w) :
    Env.Distinct (w.store.frames.size :: env) (w.push names env bindings) := by
  have hold := henv.later (before_push none w names env bindings)
  refine ⟨List.nodup_cons.2 ⟨fun hmem => ?_, henv.nodup⟩,
    List.forall_mem_cons.2 ⟨?_, hold.frames⟩⟩
  · exact Nat.lt_irrefl _ (henv.frames _ hmem)
  · rw [size_push]
    exact Nat.lt_succ_self _

end Forecast

end Lox

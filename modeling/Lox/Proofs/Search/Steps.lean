import Lox.Proofs.Lexical.Steps
import Lox.Proofs.Search
import Lox.Proofs.Search.Forecast

/-!
# Steps that agree with a search

Two steps agree under a forecast if, from every machine under it and in a given
environment, they end in the same way on the same machine, which is under some
later forecast. Here are the steps that do not run a body: what each needs of
the frames around it, and what it leaves behind.
-/

namespace Lox

variable {α β : Type}

/-! ### Places of running code -/

/-- The frames in effect where some names are mentioned: the names, and the
keywords, are in those frames whose scopes have them, and in no others. -/
structure Sight (w : Forecast) (Γ : Context) (env : Env) (words : List String) : Prop
    extends env.Distinct w where
  /-- A name that is mentioned is in a frame just if the scope of the frame has it. -/
  shows : ∀ x, x ∈ words ∨ ¬IsPlain x → Layers (w.store.Shows x) Γ.scopes env

namespace Sight

variable {w w' : Forecast} {Γ : Context} {env rest : Env} {words : List String} {i : Nat}
  {x : String} {v : Value}

/-- While no frame of an environment gets names, the place in it stays the same. -/
theorem later (h : Sight w Γ env words) (hw : w.Before none w') : Sight w' Γ env words := by
  refine ⟨h.toDistinct.later hw, fun x hx => (h.shows x hx).imp fun scope j hj hshow => ?_⟩
  exact hshow.trans ⟨hw.kept j x, hw.only j x (h.frames j hj) nofun⟩

/-- A declaration adds a name to the innermost frame and to its scope. -/
theorem define (h : Sight w Γ (i :: rest) words) :
    Sight (w.withStore (w.store.bindIn i x v)) (Γ.define x) (i :: rest) words := by
  have hi : i < w.store.frames.size := h.frames i (.head _)
  have hbefore : w.Before (some i) (w.withStore (w.store.bindIn i x v)) :=
    Forecast.before_bindIn hi (.inl rfl)
  refine ⟨h.toDistinct.later hbefore, fun y hy => ?_⟩
  have hshows := h.shows y hy
  obtain ⟨scopes, b, e⟩ := Γ
  cases hshows with
  | globals => exact .globals
  | @inside scope _ scopes _ hshow hrest =>
    refine .inside ?_ (hrest.imp fun scope j hj hshow => hshow.trans ?_)
    · unfold Store.Shows at hshow ⊢
      change _ ↔ (w.store.bindIn i x v).Binds i y
      rw [Scope.has_define, Bool.or_eq_true, beq_iff_eq, hshow, Forecast.binds_bindIn hi,
        eq_comm (a := x), and_iff_right rfl]
    · have hne : j ≠ i := fun hji => (List.nodup_cons.1 h.nodup).1 (hji ▸ hj)
      have hold : j < w.store.frames.size := h.frames j (.tail _ hj)
      exact ⟨hbefore.kept j y, hbefore.only j y hold fun hji => hne (Option.some.inj hji)⟩

/-- A new frame with a scope of its own, which shows the names of the frame. -/
theorem push {Γ' : Context} {scope : Scope} {names : List String} {bindings : Bindings}
    (henv : env.Distinct w) (hscopes : Γ'.scopes = scope :: Γ.scopes)
    (houter : ∀ x, x ∈ words ∨ ¬IsPlain x → Layers (w.store.Shows x) Γ.scopes env)
    (hscope : ∀ x, scope.has x = true ↔ (bindings.get? x).isSome) :
    Sight (w.push names env bindings) Γ' (w.store.frames.size :: env) words := by
  have hbefore := Forecast.before_push none w names env bindings
  refine ⟨Forecast.distinct_push henv, fun x hx => ?_⟩
  rw [hscopes]
  refine .inside ((hscope x).trans Forecast.binds_push_self.symm) ?_
  refine (houter x hx).imp fun scope j hj hshow => ?_
  exact hshow.trans ⟨hbefore.kept j x, hbefore.only j x (henv.frames j hj) nofun⟩

end Sight

/-! ### Agreement -/

/-- The end of a step leaves a machine under a later forecast, and what it yields
is as stated. -/
def EndsUnder (K : Known) (w : Forecast) (site : Option Nat) (env : Env)
    (A : Forecast → α → Prop) (r : EStateM.Result Halt Machine α) : Prop :=
  ∃ w', w.Before site w' ∧ (machineAfter r).Under K w' ∧ (machineAfter r).env = env ∧
    ∀ a m, r = .ok a m → A w' a

/-- Two steps that end in the same way. -/
def Agree (K : Known) (w : Forecast) (site : Option Nat) (env : Env) (A : Forecast → α → Prop)
    (p q : Eval α) : Prop :=
  ∀ m : Machine, m.Under K w → m.env = env → q m = p m ∧ EndsUnder K w site env A (p m)

section EndsUnder

variable {K : Known} {w : Forecast} {site : Option Nat} {env : Env} {A : Forecast → α → Prop}
  {m : Machine}

/-- A step that yields something ends under the forecast when its machine is under it. -/
theorem EndsUnder.ok (hm : m.Under K w) (henv : m.env = env) {a : α} (h : A w a) :
    EndsUnder K w site env A (.ok a m) := by
  refine ⟨w, .refl site w, hm, henv, fun b m' hb => ?_⟩
  cases hb
  exact h

/-- A step that halts ends under the forecast when its machine is under it. -/
theorem EndsUnder.error (hm : m.Under K w) (henv : m.env = env) (h : Halt) :
    EndsUnder K w site env A (.error h m) :=
  ⟨w, .refl site w, hm, henv, nofun⟩

/-- What is left behind changes, but not what is yielded. -/
theorem EndsUnder.onState {env' : Env} {r : EStateM.Result Halt Machine α}
    (h : EndsUnder K w site env A r) {f : Machine → Machine}
    (hf : ∀ m w', m.Under K w' → m.env = env → (f m).Under K w' ∧ (f m).env = env') :
    EndsUnder K w site env' A (Lox.onState f r) := by
  obtain ⟨w', hw', hm, henv, hA⟩ := h
  have hend := hf _ _ hm henv
  cases r with
  | error e m => exact ⟨w', hw', hend.1, hend.2, nofun⟩
  | ok a m =>
    refine ⟨w', hw', hend.1, hend.2, fun b m' hb => ?_⟩
    cases hb
    exact hA a m rfl

end EndsUnder

namespace Agree

variable {K : Known} {w : Forecast} {site : Option Nat} {env : Env} {A : Forecast → α → Prop}
  {B : Forecast → β → Prop} {p q : Eval α} {f g : α → Eval β}

/-- A step that only yields something agrees with itself. -/
theorem pure {a : α} (h : A w a) : Agree K w site env A (Pure.pure a) (Pure.pure a) :=
  fun _ hm henv => ⟨rfl, .ok hm henv h⟩

/-- A halt agrees with itself. -/
theorem throw (h : Halt) :
    Agree K w site env A (MonadExcept.throw h) (MonadExcept.throw h) :=
  fun _ hm henv => ⟨rfl, .error hm henv h⟩

/-- An error agrees with itself. -/
theorem fail (line : Nat) (cause : RuntimeCause) :
    Agree K w site env A (Eval.fail line cause) (Eval.fail line cause) := throw _

/-- Steps one after another. The first may give names to fewer frames than both
do. -/
theorem seq {first : Option Nat} (hp : Agree K w first env A p q)
    (hsite : ∀ w', w.Before first w' → w.Before site w')
    (hf : ∀ w' a, w.Before first w' → A w' a → Agree K w' site env B (f a) (g a)) :
    Agree K w site env B (p >>= f) (q >>= g) := by
  intro m hm henv
  obtain ⟨hqp, w', hw', hm', henv', hA⟩ := hp m hm henv
  rw [bind_apply, bind_apply, hqp]
  cases hpm : p m with
  | error h m' =>
    rw [hpm] at hm' henv'
    exact ⟨rfl, w', hsite w' hw', hm', henv', nofun⟩
  | ok a m' =>
    rw [hpm] at hm' henv'
    obtain ⟨hgf, w'', hw'', hend⟩ := hf w' a hw' (hA a m' hpm) m' hm' henv'
    exact ⟨hgf, w'', (hsite w' hw').trans hw'', hend⟩

/-- Steps agree one after the other; the second one is known to start under a later forecast. -/
theorem bind (hp : Agree K w site env A p q)
    (hf : ∀ w' a, w.Before site w' → A w' a → Agree K w' site env B (f a) (g a)) :
    Agree K w site env B (p >>= f) (q >>= g) :=
  hp.seq (fun _ hw => hw) hf

/-- A first step that gives no frame a name. -/
theorem andThen (hp : Agree K w none env A p q)
    (hf : ∀ w' a, w.Before none w' → A w' a → Agree K w' site env B (f a) (g a)) :
    Agree K w site env B (p >>= f) (q >>= g) :=
  hp.seq (fun _ hw => hw.anywhere site) hf

/-- Less may be said about which frame has got names and about what is yielded. -/
theorem mono {A' : Forecast → α → Prop} {site' : Option Nat} (h : Agree K w site env A p q)
    (hsite : ∀ w', w.Before site w' → w.Before site' w')
    (hA : ∀ w' a, w.Before site w' → A w' a → A' w' a) : Agree K w site' env A' p q := by
  intro m hm henv
  obtain ⟨hqp, w', hw', hm', henv', hok⟩ := h m hm henv
  exact ⟨hqp, w', hsite w' hw', hm', henv', fun a m' ha => hA w' a hw' (hok a m' ha)⟩

/-- What gives no frame a name may stand for what gives one to some frame. -/
theorem anywhere (h : Agree K w none env A p q) : Agree K w site env A p q :=
  h.mono (fun _ hw => hw.anywhere site) fun _ _ _ ha => ha

/-- Names in a frame that is new are names in no frame that was there. -/
theorem fresh (h : Agree K w (some w.store.frames.size) env A p q) :
    Agree K w none env A p q := by
  refine h.mono (fun w' hw => hw.weaken fun i hi _ hsame => ?_) fun _ _ _ ha => ha
  have : i = w.store.frames.size := Option.some.inj hsame
  omega

/-- Steps that look at the machine first. -/
theorem ask {f g : Machine → Eval α}
    (h : ∀ m : Machine, m.env = env → m.Under K w → Agree K w site env A (f m) (g m)) :
    Agree K w site env A (get >>= f) (get >>= g) :=
  fun m hm henv => h m henv hm m hm henv

/-- Steps in another environment, which is left afterwards. -/
theorem inEnv {env' : Env} (h : Agree K w site env' A p q) :
    Agree K w site env A (Eval.inEnv env' p) (Eval.inEnv env' q) := by
  intro m hm henv
  obtain ⟨hqp, hend⟩ := h { m with env := env' } ⟨hm.store, hm.known, hm.holds⟩ rfl
  rw [inEnv_apply, inEnv_apply, hqp]
  exact ⟨rfl, hend.onState fun m' w' hm' _ => ⟨⟨hm'.store, hm'.known, hm'.holds⟩, henv⟩⟩

/-- A call agrees when what it runs does. -/
theorem asCall (h : Agree K w site env A p q) :
    Agree K w site env A (Eval.asCall p) (Eval.asCall q) := by
  intro m hm henv
  obtain ⟨hqp, hend⟩ := h { m with calls := m.calls + 1 } ⟨hm.store, hm.known, hm.holds⟩ henv
  rw [asCall_apply, asCall_apply, hqp]
  exact ⟨rfl, hend.onState fun m' w' hm' henv' => ⟨⟨hm'.store, hm'.known, hm'.holds⟩, henv'⟩⟩

/-- A change of the store that both steps make. -/
theorem onStore {change : Store → α × Store} (h : w.Holds K → ∃ w', w'.store = (change w.store).2 ∧
      w.Before site w' ∧ w'.Holds K ∧ A w' (change w.store).1) :
    Agree K w site env A (Eval.onStore change) (Eval.onStore change) := by
  intro m hm henv
  obtain ⟨w', hstore, hbefore, hholds, ha⟩ := h hm.holds
  rw [hm.store] at hstore ha
  refine ⟨rfl, w', hbefore, ⟨hstore, hm.known, hholds⟩, henv, fun a m' hok => ?_⟩
  cases hok
  exact ha

/-- A change of the store that both steps make and that yields nothing. -/
theorem modifyStore {change : Store → Store} {A : Forecast → Unit → Prop}
    (h : w.Holds K → ∃ w', w'.store = change w.store ∧ w.Before site w' ∧ w'.Holds K ∧ A w' ()) :
    Agree K w site env A (Eval.modifyStore change) (Eval.modifyStore change) := by
  change Agree K w site env A (Eval.onStore fun store => ((), change store))
    (Eval.onStore fun store => ((), change store))
  exact onStore h

end Agree

/-- Values that are ready. -/
abbrev ReadyValues (K : Known) : Forecast → Value → Prop := fun w v => v.Ready K w

/-- Nothing is said about what a step yields. -/
abbrev Whatever : Forecast → α → Prop := fun _ _ => True

/-! ### Names -/

section Names

variable {K : Known} {w : Forecast} {site : Option Nat} {Γ : Context} {env rest : Env}
  {words : List String} {ref : Ref} {v : Value} {m : Machine} {i : Nat} {x : String}

/-- A search yields the value of the first frame that has the name. -/
theorem searchName_of_some {name : Name} (h : m.store.get? m.env name.text = some v) :
    Search.readName name m = .ok v m := by
  rw [Search.readName, get_bind_apply, Store.read, h]
  rfl

/-- A search for a name that no frame has is in error. -/
theorem searchName_of_none {name : Name} (h : m.store.get? m.env name.text = none) :
    Search.readName name m = .error (.error ⟨name.line, .undefinedVariable name.text⟩) m := by
  rw [Search.readName, get_bind_apply, Store.read, h]
  rfl

/-- A search writes to the first frame that has the name. -/
theorem searchWrite_of_some {name : Name} (h : m.store.holder? m.env name.text = some i) :
    Search.writeName name v m = .ok () { m with store := m.store.bindIn i name.text v } := by
  rw [Search.writeName, get_bind_apply, Store.write, Store.assign?, h]
  rfl

/-- A search for a name that no frame has writes nothing. -/
theorem searchWrite_of_none {name : Name} (h : m.store.holder? m.env name.text = none) :
    Search.writeName name v m = .error (.error ⟨name.line, .undefinedVariable name.text⟩) m := by
  rw [Search.writeName, get_bind_apply, Store.write, Store.assign?, h]
  rfl

/-- A variable is found by a search where its distance leads: no frame on the way has its name. -/
theorem agree_readRef (h : Sight w Γ env words)
    (hx : ref.name.text ∈ words ∨ ¬IsPlain ref.name.text)
    (hk : K ref.id (Γ.distance? ref.name.text)) :
    Agree K w site env (ReadyValues K) (Eval.readRef ref) (Search.readName ref.name) := by
  intro m hm henv
  have hlayers := h.shows _ hx
  have hknown := hm.known _ _ hk
  rw [hm.store, ← henv] at hlayers
  cases hd : Γ.distance? ref.name.text with
  | some d =>
    rw [hd] at hknown
    obtain ⟨i, v, hi, hv, hget, -⟩ := hlayers.found hd
    rw [readRef_of_distance hknown (getAt_eq hi hv), searchName_of_some hget]
    rw [← hm.store] at hv
    exact ⟨rfl, .ok hm henv (hm.holds.frames i _ v hv)⟩
  | none =>
    rw [hd] at hknown
    have hsearch := (hlayers.absent hd).1
    cases hv : m.store.get? globalEnv ref.name.text with
    | some v =>
      rw [readRef_of_global hknown hv, searchName_of_some (hsearch.trans hv)]
      rw [Store.get?_globalEnv, ← hm.store] at hv
      exact ⟨rfl, .ok hm henv (hm.holds.frames 0 _ v hv)⟩
    | none =>
      rw [readRef_of_undefined hknown hv, searchName_of_none (hsearch.trans hv)]
      exact ⟨rfl, .error hm henv _⟩

/-- A name that a frame has gets another value. -/
theorem endsUnder_bindIn (hm : m.Under K w) (henv : m.env = env) (hi : m.store.Binds i x)
    (hv : v.Ready K w) : EndsUnder K w site env Whatever
      (.ok () { m with store := m.store.bindIn i x v }) := by
  rw [← hm.store] at hi
  have hbefore : w.Before site (w.withStore (w.store.bindIn i x v)) :=
    Forecast.before_bindIn hi.lt_size (.inr hi)
  have hholds := hm.holds.bindIn hi.lt_size (hm.holds.names i x hi) (hv.later hbefore)
  refine ⟨_, hbefore, ⟨?_, hm.known, hholds⟩, henv, fun _ _ _ => trivial⟩
  change w.store.bindIn i x v = m.store.bindIn i x v
  rw [hm.store]

/-- A variable is written by a search where its distance leads. -/
theorem agree_writeRef (h : Sight w Γ env words)
    (hx : ref.name.text ∈ words ∨ ¬IsPlain ref.name.text)
    (hk : K ref.id (Γ.distance? ref.name.text)) (hv : v.Ready K w) :
    Agree K w site env Whatever (Eval.writeRef ref v) (Search.writeName ref.name v) := by
  intro m hm henv
  have hlayers := h.shows _ hx
  have hknown := hm.known _ _ hk
  rw [hm.store, ← henv] at hlayers
  cases hd : Γ.distance? ref.name.text with
  | some d =>
    rw [hd] at hknown
    obtain ⟨i, u, hi, hu, -, hholder⟩ := hlayers.found hd
    rw [writeRef_of_distance hknown (frameAt_eq hi hu), searchWrite_of_some hholder]
    exact ⟨rfl, endsUnder_bindIn hm henv (.of_get? hu) hv⟩
  | none =>
    rw [hd] at hknown
    have hsearch := (hlayers.absent hd).2
    cases hholder : m.store.holder? globalEnv ref.name.text with
    | some i =>
      rw [writeRef_of_global hknown hholder, searchWrite_of_some (hsearch.trans hholder)]
      exact ⟨rfl, endsUnder_bindIn hm henv (Store.binds_of_holder? hholder) hv⟩
    | none =>
      rw [writeRef_of_undefined hknown hholder, searchWrite_of_none (hsearch.trans hholder)]
      exact ⟨rfl, .error hm henv _⟩

/-- A name that is forecast for the innermost frame is bound there. The value may
be ready only with this binding. -/
theorem agree_define (hi : i < w.store.frames.size) (hx : w.names i x)
    (hv : v.Ready K (w.withStore (w.store.bindIn i x v))) :
    Agree K w (some i) (i :: rest) (fun w' _ => w' = w.withStore (w.store.bindIn i x v))
      (Eval.define x v) (Eval.define x v) := by
  intro m hm henv
  rw [define_eq henv]
  refine ⟨rfl, _, Forecast.before_bindIn hi (.inl rfl), ⟨?_, hm.known, hm.holds.bindIn hi hx hv⟩,
    henv, fun _ _ _ => rfl⟩
  change w.store.bindIn i x v = m.store.bindIn i x v
  rw [hm.store]

end Names

/-! ### Frames, identities and objects -/

section Objects

variable {K : Known} {w : Forecast} {site : Option Nat} {env outer : Env} {v object : Value}

/-- A new frame is forecast to have names, among them those it is made with. -/
theorem agree_newFrame (names : List String) {bindings : Bindings}
    (hnames : ∀ x, (bindings.get? x).isSome → x ∈ names)
    (hvalues : ∀ x v, bindings.get? x = some v → v.Ready K w) :
    Agree K w site env
      (fun w' inner => w' = w.push names outer bindings ∧ inner = w.store.frames.size :: outer)
      (Eval.newFrame outer bindings) (Eval.newFrame outer bindings) :=
  .onStore fun hw => ⟨w.push names outer bindings, rfl, Forecast.before_push ..,
    hw.push hnames hvalues, rfl, rfl⟩

/-- An identity is handed out under any forecast. -/
theorem agree_freshId :
    Agree K w site env Whatever (Eval.onStore (·.freshId)) (Eval.onStore (·.freshId)) :=
  .onStore fun hw => ⟨w.withStore w.store.freshId.2, rfl, Forecast.before_withStore site rfl,
    hw.withStore rfl fun _ _ _ hv => .inl hv, trivial⟩

/-- A new object has no fields, so its store is as ready as before. -/
theorem agree_newObject :
    Agree K w site env Whatever (Eval.onStore (·.newObject)) (Eval.onStore (·.newObject)) :=
  .onStore fun hw => ⟨w.withStore w.store.newObject.2, rfl, Forecast.before_withStore site rfl,
    hw.withStore rfl fun _ _ _ hv => .inl (Store.field?_of_newObject hv), trivial⟩

/-- A field may be set to any value that is ready. -/
theorem agree_setField (id : Nat) (x : String) (hv : v.Ready K w) :
    Agree K w site env Whatever (Eval.modifyStore (·.setField id x v))
      (Eval.modifyStore (·.setField id x v)) := by
  refine .modifyStore fun hw => ⟨w.withStore (w.store.setField id x v), rfl,
    Forecast.before_withStore site rfl, hw.withStore rfl fun other y u hu => ?_, trivial⟩
  rcases Store.field?_of_setField hu with rfl | hold
  · exact .inr hv
  · exact .inl hold

/-- A change of the sink has nothing to do with names. -/
theorem agree_modifySink (change : Sink → Sink) :
    Agree K w site env Whatever (Eval.modifySink change) (Eval.modifySink change) :=
  fun _ hm henv =>
    ⟨rfl, w, .refl site w, ⟨hm.store, hm.known, hm.holds⟩, henv, fun _ _ _ => trivial⟩

/-- A print has nothing to do with names. -/
theorem agree_write (line : Nat) (piece : String) :
    Agree K w site env Whatever (Eval.write line piece) (Eval.write line piece) := by
  refine .ask fun m _ _ => ?_
  dsimp only
  split
  · exact (agree_modifySink _).bind fun _ _ _ _ => .fail _ _
  · exact agree_modifySink _

/-- The clock has nothing to do with names. -/
theorem agree_readClock : Agree K w site env Whatever Eval.readClock Eval.readClock :=
  fun _ hm henv =>
    ⟨rfl, w, .refl site w, ⟨hm.store, hm.known, hm.holds⟩, henv, fun _ _ _ => trivial⟩

/-- A new function is ready when its closure is. -/
theorem agree_newFunction {c : Closure} (hc : c.Ready K w) :
    Agree K w site env (ReadyValues K) (Eval.newFunction c) (Eval.newFunction c) := by
  refine agree_freshId.bind fun w' id hw _ => .pure ?_
  have hfunction : Value.Ready K w (.function id c) := hc
  exact hfunction.later hw

/-! ### Methods -/

/-- A frame with a scope of its own around a closure. -/
theorem Closure.Stays.inside {c : Closure} {Γ : Context} {x : String} {bindings : Bindings}
    (h : c.Stays w Γ) (hx : ∀ y, (bindings.get? y).isSome ↔ x = y) :
    Closure.Stays (w.push [x] c.env bindings) (Γ.enter [(x, true)])
      { c with env := w.store.frames.size :: c.env } := by
  refine ⟨Forecast.distinct_push h.env, h.timely, fun y hy => .inside ⟨fun hhas => ?_,
    fun hname => ?_⟩ ?_⟩
  · rw [Forecast.binds_push_self, hx]
    simpa [Scope.has] using hhas
  · rw [Forecast.names_push_self, List.mem_singleton] at hname
    simp [Scope.has, hname]
  · exact (h.later (Forecast.before_push none w [x] c.env bindings)).fixes y hy

/-- A frame with one name has its value and no other. -/
theorem Bindings.get?_single (x y : String) (v : Value) :
    Bindings.get? [(x, v)] y = if x = y then some v else none := by
  simp [Bindings.get?]

/-- A bound method can be called: `this` is the one name of its new frame. -/
theorem agree_bindMethod {c : Closure} (hc : c.Unbound K w) (hobject : object.Ready K w) :
    Agree K w site env (fun w' bound => bound.Ready K w' ∧ bound.decl = c.decl)
      (Eval.bindMethod c object) (Eval.bindMethod c object) := by
  obtain ⟨Γ, b, hstays, hresolved⟩ := hc
  have hsingle : ∀ y, (Bindings.get? [("this", object)] y).isSome ↔ "this" = y := by
    intro y
    rw [Bindings.get?_single]
    split <;> simp_all
  refine (agree_newFrame ["this"] (fun y hy => ?_) fun y u hu => ?_).bind
    fun w' inner _ hpush => ?_
  · rw [hsingle] at hy
    simp [hy]
  · rw [Bindings.get?_single] at hu
    split at hu
    · cases hu
      exact hobject
    · cases hu
  · obtain ⟨rfl, rfl⟩ := hpush
    exact .pure ⟨⟨_, b, hstays.inside hsingle, hresolved⟩, rfl⟩

/-- A method that was looked up, bound to an object. -/
theorem agree_boundMethod {cls : Class} (hcls : cls.Ready K w) (hobject : object.Ready K w)
    {text : String} {method : Closure} (hfind : cls.findMethod? text = some method) :
    Agree K w site env (ReadyValues K) (Eval.bindMethod method object >>= Eval.newFunction)
      (Eval.bindMethod method object >>= Eval.newFunction) :=
  (agree_bindMethod (hcls.findMethod? hfind) hobject).bind fun _ _ _ hbound =>
    agree_newFunction hbound.1

/-- A property is ready, as a field or as a method that is bound to its object. -/
theorem agree_getProperty (hobject : object.Ready K w) (name : Name) :
    Agree K w site env (ReadyValues K) (Eval.getProperty object name)
      (Eval.getProperty object name) := by
  cases object with
  | object id cls =>
    refine .ask fun m _ hm => ?_
    split
    · rename_i u hu
      rw [← hm.store] at hu
      exact .pure (hm.holds.fields id _ u hu)
    · split
      · rename_i method hfind
        exact agree_boundMethod hobject hobject hfind
      · exact .fail _ _
  | _ => exact .fail _ _

/-- A method of the superclass is found by a search: `super` and `this` are where the
distances lead. -/
theorem agree_superMethod {Γ : Context} {words : List String} {id line : Nat} {method : Name}
    (h : Sight w Γ env words) (he : (Expr.super id line method).Resolved K Γ) :
    Agree K w site env (ReadyValues K) (Eval.superMethod id method)
      (Search.superMethod line method) := by
  obtain ⟨d, hk, hsuper, hthis⟩ := he
  intro m hm henv
  have hlayers : ∀ x, ¬IsPlain x → Layers (m.store.Shows x) Γ.scopes m.env := by
    intro x hx
    rw [← hm.store, henv]
    exact h.shows x (.inr hx)
  obtain ⟨i, s, hi, hs, hsearch, -⟩ := (hlayers _ not_isPlain_super).found hsuper
  obtain ⟨j, o, hj, ho, hsearch', -⟩ := (hlayers _ not_isPlain_this).found hthis
  have hclass : Eval.orFault (m.store.getAt m.env (d + 1) "super") m = .ok s m := by
    rw [getAt_eq hi hs]
    rfl
  have hobject : Eval.orFault (Eval.objectInside m (d + 1)) m = .ok o m := by
    rw [Eval.objectInside, getAt_eq hj ho]
    rfl
  have hclass' : Search.readName (superName line) m = .ok s m := searchName_of_some hsearch
  have hobject' : Search.readName (thisName line) m = .ok o m := searchName_of_some hsearch'
  rw [← hm.store] at hs ho
  have hready := hm.holds.frames i _ s hs
  have hready' := hm.holds.frames j _ o ho
  rw [Eval.superMethod, get_bind_apply, hm.known _ _ hk]
  dsimp only
  rw [bind_of_ok hclass, bind_of_ok hobject, Search.superMethod, bind_of_ok hclass',
    bind_of_ok hobject']
  cases s with
  | cls cls =>
    dsimp only
    cases hfind : cls.findMethod? method.text with
    | some found => exact agree_boundMethod hready hready' hfind m hm henv
    | none => exact Agree.fail _ _ m hm henv
  | _ => exact Agree.throw _ m hm henv

end Objects

end Lox

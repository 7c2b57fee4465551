import Lox.Proofs.Grammar.Identities
import Lox.Proofs.Scope.Walk

/-!
# Distances are those of the text

The distance of a reference is the number of scopes between the place where it
stands and the nearest scope that has its name, as the text has them; a reference
whose name no scope has gets no distance. This holds of every source, with errors
or without. A `this` in no class is looked up nowhere, and would not be found: no
name that a program can choose is a keyword.
-/

namespace Lox

/-- Whether a scope of statements has plain names only. -/
def Layer.Plain : Layer → Prop
  | .statements _ params begun => ∀ text ∈ Layer.names params begun, IsPlain text
  | .methods _ => True

/-- A scope of parameters. -/
theorem Layer.plain_params {params : List Name} (h : ∀ name ∈ params, IsPlain name.text)
    (opener : Opener) : (Layer.statements opener params []).Plain := by
  intro text htext
  rw [Layer.names, List.flatMap_nil, List.append_nil] at htext
  obtain ⟨name, hname, rfl⟩ := List.mem_map.1 htext
  exact h name hname

/-- The methods of a class are in no scope of statements. -/
theorem Layer.plain_methods (derived : Bool) : (Layer.methods derived).Plain := trivial

namespace Surroundings

/-- Whether the scopes of statements around a place have plain names only. -/
def Plain (around : Surroundings) : Prop := ∀ layer ∈ around, layer.Plain

variable {around : Surroundings}

/-- There are no scopes around the top level. -/
theorem plain_top : Plain [] := nofun

/-- One more scope of plain names around a place keeps its scopes plain. -/
theorem Plain.cons {layer : Layer} (h : around.Plain) (hl : layer.Plain) :
    Plain (layer :: around) :=
  List.forall_mem_cons.2 ⟨hl, h⟩

/-- A statement that declares plain names keeps the scopes plain. -/
theorem Plain.start (h : around.Plain) {s : Stmt} (hs : ∀ text ∈ s.declared, IsPlain text) :
    (around.start s).Plain := by
  match around with
  | [] => exact h
  | .methods _ :: _ => exact h
  | .statements opener params begun :: outer =>
    obtain ⟨hlayer, houter⟩ := List.forall_mem_cons.1 h
    refine Plain.cons houter fun text htext => ?_
    rw [Layer.names, List.flatMap_cons, List.mem_append, List.mem_append] at htext
    rcases htext with htext | htext | htext
    · exact hlayer text (List.mem_append_left _ htext)
    · exact hs text htext
    · exact hlayer text (List.mem_append_right _ htext)

/-- Outside of all classes no scope has the keyword of objects. -/
theorem Plain.this_notMem (h : around.Plain) (hclass : around.class? = none) :
    ∀ names ∈ around.scopes, "this" ∉ names := by
  induction around with
  | nil => nofun
  | cons layer outer ih =>
    obtain ⟨hlayer, houter⟩ := List.forall_mem_cons.1 h
    match layer with
    | .methods _ => cases hclass
    | .statements _ params begun =>
      intro names hnames hthis
      rcases List.mem_cons.1 hnames with rfl | hnames
      · exact (hlayer "this" hthis).1 rfl
      · exact ih houter hclass names hnames hthis

end Surroundings

/-- A statement that can be read declares plain names. -/
theorem Stmt.Proper.declared {s : Stmt} (h : s.Proper) : ∀ text ∈ s.declared, IsPlain text := by
  cases s with
  | varDecl name _ => exact List.forall_mem_singleton.2 h
  | funDecl function => exact List.forall_mem_singleton.2 h.1
  | classDecl name _ _ => exact List.forall_mem_singleton.2 h.1
  | _ => exact nofun

/-- A site that can be read: plain names around it, and a keyword where the
reference is one. -/
structure Occurrence.Tame (o : Occurrence) : Prop where
  /-- The names around it are no keywords. -/
  plain : o.around.Plain
  /-- A reference for `this` has that name. -/
  keyword : ∀ r, o.reference? = some r → r.kind = .this → r.ref.name.text = "this"

section Tame

variable {around : Surroundings}

/-- A site that is no `this`. -/
theorem Occurrence.Tame.of_ne (h : around.Plain) {site : Site}
    (hs : ∀ r, (⟨around, site⟩ : Occurrence).reference? = some r → r.kind ≠ .this) :
    Occurrence.Tame ⟨around, site⟩ :=
  ⟨h, fun r hr hthis => absurd hthis (hs r hr)⟩

mutual

/-- The sites of an expression can be read where the scopes are plain. -/
theorem Expr.tame (h : around.Plain) : ∀ e : Expr, ∀ o ∈ e.occurrences around, o.Tame
  | .literal _ => nofun
  | .group inner => inner.tame h
  | .unary _ _ operand => operand.tame h
  | .binary _ _ left right => List.forall_mem_append.2 ⟨left.tame h, right.tame h⟩
  | .logical _ _ left right => List.forall_mem_append.2 ⟨left.tame h, right.tame h⟩
  | .var ref => List.forall_mem_singleton.2 (.of_ne h fun r hr => by cases hr; nofun)
  | .assign ref value => List.forall_mem_append.2 ⟨value.tame h,
      List.forall_mem_singleton.2 (.of_ne h fun r hr => by cases hr; nofun)⟩
  | .call callee arguments _ =>
    List.forall_mem_append.2 ⟨callee.tame h, Expr.tameList h arguments⟩
  | .get object _ => object.tame h
  | .set object _ value => List.forall_mem_append.2 ⟨value.tame h, object.tame h⟩
  | .this id line => List.forall_mem_singleton.2 ⟨h, fun r hr _ => by cases hr; rfl⟩
  | .super id line _ => List.forall_mem_singleton.2 (.of_ne h fun r hr => by cases hr; nofun)

/-- So can those of several expressions. -/
theorem Expr.tameList (h : around.Plain) :
    ∀ es : List Expr, ∀ o ∈ Expr.occurrencesList around es, o.Tame
  | [] => nofun
  | e :: rest => List.forall_mem_append.2 ⟨e.tame h, Expr.tameList h rest⟩

end

/-- So can those of an expression that may be missing. -/
theorem tameOption (h : around.Plain) (e : Option Expr) :
    ∀ o ∈ occurrencesOption around e, o.Tame := by
  cases e with
  | none => nofun
  | some e => exact e.tame h

/-- So can those of the name of a superclass. -/
theorem tameParent (h : around.Plain) (name : Name) (parent : Option Ref) :
    ∀ o ∈ occurrencesParent around name parent, o.Tame := by
  cases parent with
  | none => nofun
  | some ref =>
    refine List.forall_mem_cons.2 ⟨.of_ne h nofun, List.forall_mem_singleton.2 ?_⟩
    exact .of_ne h fun r hr => by cases hr; nofun

/-- So can those of plain parameters, each in the scope of those before it. -/
theorem tameParams (h : around.Plain) (opener : Opener) (earlier params : List Name)
    (he : ∀ name ∈ earlier, IsPlain name.text) (hp : ∀ name ∈ params, IsPlain name.text) :
    ∀ o ∈ occurrencesParams around opener earlier params, o.Tame := by
  induction params generalizing earlier with
  | nil => nofun
  | cons name rest ih =>
    obtain ⟨hname, hrest⟩ := List.forall_mem_cons.1 hp
    have hlayer := h.cons (Layer.plain_params he opener)
    refine List.forall_mem_cons.2 ⟨.of_ne hlayer nofun, ih (earlier ++ [name]) ?_ hrest⟩
    exact List.forall_mem_append.2 ⟨he, List.forall_mem_singleton.2 hname⟩

end Tame

mutual

/-- The sites of a statement that can be read are sites that can be read. -/
theorem Stmt.tame {around : Surroundings} (h : around.Plain) :
    ∀ s : Stmt, s.Proper → ∀ o ∈ s.occurrences around, o.Tame
  | .expression e, hs => e.tame (h.start hs.declared)
  | .print e, hs => e.tame (h.start hs.declared)
  | .varDecl name initializer, hs =>
    List.forall_mem_cons.2 ⟨.of_ne h nofun, tameOption (h.start hs.declared) initializer⟩
  | .block body, hs =>
    Stmt.tameList ((h.start (s := .block body) hs.declared).cons
      (Layer.plain_params (List.forall_mem_nil _) .block)) body hs
  | .branch condition yes none, hs => by
    have hinside := h.start hs.declared
    exact List.forall_mem_append.2 ⟨condition.tame hinside, yes.tame hinside hs.2⟩
  | .branch condition yes (some no), hs => by
    have hinside := h.start hs.declared
    exact List.forall_mem_append.2 ⟨List.forall_mem_append.2
      ⟨condition.tame hinside, yes.tame hinside hs.1.2⟩, no.tame hinside hs.2.2⟩
  | .loop condition body, hs => by
    have hinside := h.start hs.declared
    exact List.forall_mem_append.2 ⟨condition.tame hinside, body.tame hinside hs.2⟩
  | .funDecl function, hs =>
    List.forall_mem_cons.2 ⟨.of_ne h nofun,
      FunDecl.tame (h.start hs.declared) .function function hs.2⟩
  | .result line value, hs => by
    have hinside := h.start hs.declared
    exact List.forall_mem_cons.2 ⟨.of_ne hinside nofun, tameOption hinside value⟩
  | .classDecl name superclass methods, hs => by
    have hinside := h.start hs.declared
    refine List.forall_mem_cons.2 ⟨.of_ne h nofun, List.forall_mem_append.2 ⟨?_, ?_⟩⟩
    · exact tameParent hinside name superclass
    · exact FunDecl.tameList (hinside.cons (Layer.plain_methods _)) methods hs.2

/-- So are those of several statements. -/
theorem Stmt.tameList {around : Surroundings} (h : around.Plain) :
    ∀ ss : List Stmt, Stmt.ProperList ss → ∀ o ∈ Stmt.occurrencesList around ss, o.Tame
  | [], _ => nofun
  | s :: rest, hs => List.forall_mem_append.2
      ⟨s.tame h hs.1, Stmt.tameList (h.start hs.1.declared) rest hs.2⟩

/-- So are those of a function. -/
theorem FunDecl.tame {around : Surroundings} (h : around.Plain) (opener : Opener) :
    ∀ f : FunDecl, FunDecl.Proper f → ∀ o ∈ FunDecl.occurrences around opener f, o.Tame
  | ⟨_, params, body⟩, hf => by
    refine List.forall_mem_append.2 ⟨tameParams h opener [] params nofun hf.1, ?_⟩
    exact Stmt.tameList (h.cons (Layer.plain_params hf.1 opener)) body hf.2

/-- So are those of the methods of a class. -/
theorem FunDecl.tameList {around : Surroundings} (h : around.Plain) :
    ∀ fs : List FunDecl, FunDecl.ProperList fs → ∀ o ∈ FunDecl.occurrencesList around fs, o.Tame
  | [], _ => nofun
  | f :: rest, hf => List.forall_mem_append.2
      ⟨FunDecl.tame h _ f hf.1, FunDecl.tameList h rest hf.2⟩

end

/-! ## What is recorded -/

/-- The first scope with a name is the one that binds it. -/
theorem Surroundings.findIdx?_eq_some {around : Surroundings} {text : String} {d : Nat} :
    around.scopes.findIdx? (·.contains text) = some d ↔ around.Binds text d := by
  rw [List.findIdx?_eq_some_iff_getElem]
  constructor
  · rintro ⟨hlt, hhas, hfirst⟩
    refine ⟨⟨_, List.getElem?_eq_getElem hlt, List.contains_iff_mem.1 hhas⟩, ?_⟩
    intro nearer hnearer names hnames hmem
    obtain ⟨hlt', rfl⟩ := List.getElem?_eq_some_iff.1 hnames
    exact hfirst nearer hnearer (List.contains_iff_mem.2 hmem)
  · rintro ⟨⟨names, hnames, hmem⟩, hfirst⟩
    obtain ⟨hlt, rfl⟩ := List.getElem?_eq_some_iff.1 hnames
    refine ⟨hlt, List.contains_iff_mem.2 hmem, fun nearer hnearer hhas => ?_⟩
    exact hfirst nearer hnearer _ (List.getElem?_eq_getElem (by omega))
      (List.contains_iff_mem.1 hhas)

/-- A name is bound nowhere exactly if no scope around the place has it. -/
theorem Surroundings.findIdx?_eq_none {around : Surroundings} {text : String} :
    around.scopes.findIdx? (·.contains text) = none ↔ ∀ names ∈ around.scopes, text ∉ names := by
  rw [List.findIdx?_eq_none_iff]
  refine forall₂_congr fun names _ => ?_
  rw [← Bool.not_eq_true, List.contains_iff_mem]

/-- At a site that can be read, a reference is found where its name is bound. -/
theorem Occurrence.Tame.located {around : Surroundings} {r : Reference}
    (h : Occurrence.Tame ⟨around, .reference r⟩) :
    Occurrence.located? ⟨around, .reference r⟩ =
      (around.scopes.findIdx? (·.contains r.ref.name.text)).map (r.ref.id, ·) := by
  by_cases hthis : r.kind = .this ∧ around.class? = none
  · have hnone : around.scopes.findIdx? (·.contains r.ref.name.text) = none := by
      rw [Surroundings.findIdx?_eq_none, h.keyword r rfl hthis.1]
      exact h.plain.this_notMem hthis.2
    rw [hnone]
    exact if_pos hthis
  · exact if_neg hthis

/-- Two sites of references with one identity are one site, where no two
references have one identity. -/
theorem Occurrence.eq_of_ids {os : List Occurrence}
    (h : (Reference.ids (Occurrence.uses os)).Nodup) {o o' : Occurrence} (ho : o ∈ os)
    (ho' : o' ∈ os) {r r' : Reference} (hr : o.reference? = some r)
    (hr' : o'.reference? = some r') (hid : r.ref.id = r'.ref.id) : o = o' := by
  induction os with
  | nil => cases ho
  | cons first rest ih =>
    have hmem {p : Occurrence} {q : Reference} (hp : p ∈ rest) (hq : p.reference? = some q) :
        q.ref.id ∈ Reference.ids (Occurrence.uses rest) :=
      List.mem_map_of_mem (List.mem_filterMap.2 ⟨p, hp, hq⟩)
    have hcons {q : Reference} (hq : first.reference? = some q) :
        q.ref.id ∉ Reference.ids (Occurrence.uses rest) ∧
          (Reference.ids (Occurrence.uses rest)).Nodup := by
      rw [Occurrence.uses, List.filterMap_cons_some hq, Reference.ids, List.map_cons,
        List.nodup_cons] at h
      exact h
    have hrest : (Reference.ids (Occurrence.uses rest)).Nodup := by
      cases hq : first.reference? with
      | none => rwa [Occurrence.uses, List.filterMap_cons_none hq] at h
      | some q => exact (hcons hq).2
    rcases List.mem_cons.1 ho with hfirst | hlater
    · rcases List.mem_cons.1 ho' with hfirst' | hlater'
      · exact hfirst.trans hfirst'.symm
      · exact absurd (hid ▸ hmem hlater' hr') (hcons (hfirst ▸ hr)).1
    · rcases List.mem_cons.1 ho' with hfirst' | hlater'
      · exact absurd (hid ▸ hmem hlater hr) (hcons (hfirst' ▸ hr')).1
      · exact ih hrest hlater hlater'

/-- A distance is found at a reference and belongs to it. -/
theorem Occurrence.reference?_of_located? {o : Occurrence} {found : Nat × Nat}
    (h : o.located? = some found) : ∃ r, o.reference? = some r ∧ r.ref.id = found.1 := by
  obtain ⟨around, site⟩ := o
  cases site with
  | reference r =>
    refine ⟨r, rfl, ?_⟩
    change (if _ then _ else _) = some found at h
    split at h
    · cases h
    · obtain ⟨d, -, rfl⟩ := Option.map_eq_some_iff.1 h
      rfl
  | _ => cases h

/-- What is found at some sites is about their references, in their order. -/
theorem Occurrence.located_sublist (os : List Occurrence) :
    ((os.filterMap Occurrence.located?).map (·.1)).Sublist
      (Reference.ids (Occurrence.uses os)) := by
  induction os with
  | nil => exact .slnil
  | cons first rest ih =>
    cases hlocated : first.located? with
    | none =>
      rw [List.filterMap_cons_none hlocated]
      cases hr : first.reference? with
      | none => rwa [Occurrence.uses, List.filterMap_cons_none hr]
      | some r =>
        rw [Occurrence.uses, List.filterMap_cons_some hr]
        exact ih.trans (List.sublist_cons_self _ _)
    | some found =>
      obtain ⟨r, hr, hid⟩ := Occurrence.reference?_of_located? hlocated
      rw [List.filterMap_cons_some hlocated, Occurrence.uses, List.filterMap_cons_some hr,
        Reference.ids, List.map_cons, List.map_cons, hid]
      exact ih.cons_cons _

/-- What is recorded about a reference, once all that was found at some sites is
recorded and nothing else is. -/
theorem recordDistances_located {os : List Occurrence}
    (h : (Reference.ids (Occurrence.uses os)).Nodup) {o : Occurrence} (ho : o ∈ os)
    {r : Reference} (hr : o.reference? = some r) {machine : Machine}
    (hnew : machine.distances[r.ref.id]? = none) :
    (machine.recordDistances (os.filterMap Occurrence.located?)).distances[r.ref.id]? =
      o.located?.map (·.2) := by
  cases hlocated : o.located? with
  | some found =>
    obtain ⟨q, hq, hid⟩ := Occurrence.reference?_of_located? hlocated
    have hmem : (r.ref.id, found.2) ∈ os.filterMap Occurrence.located? := by
      refine List.mem_filterMap.2 ⟨o, ho, hlocated.trans (congrArg some ?_)⟩
      rw [Option.some.inj (hr.symm.trans hq), hid]
    exact Machine.recordDistances_of_mem (h.sublist (Occurrence.located_sublist os)) hmem
  | none =>
    refine (Machine.recordDistances_of_notMem fun hmem => ?_).trans hnew
    obtain ⟨found, hfound, hid⟩ := List.mem_map.1 hmem
    obtain ⟨p, hp, hlocated'⟩ := List.mem_filterMap.1 hfound
    obtain ⟨q, hq, hid'⟩ := Occurrence.reference?_of_located? hlocated'
    have hsame := Occurrence.eq_of_ids h ho hp hr hq (hid.symm.trans hid'.symm)
    rw [hsame, hlocated'] at hlocated
    cases hlocated

/-- A source is read by a fresh session and then resolved. Every reference of what
was read is at one site, with a distance if a scope around the site has its name,
and then it is that of the nearest such scope. One walk that changes its place finds
the same, and comes back from every expression to the place it entered it at and
from every statement to one that has the same scopes but for the names of the
innermost, the same kind of body and the same kind of class. -/
theorem Session.resolve_distances (sink : Sink) (clock : Nat → Float) (source : String) :
    let program := ((Session.initial sink clock).read source).1
    let session := ((Session.initial sink clock).read source).2.resolve program
    (Occurrence.uses (Stmt.occurrencesList [] program)).Perm (Stmt.referencesList program) ∧
    (∀ around r, ⟨around, .reference r⟩ ∈ Stmt.occurrencesList [] program →
      (∀ d, session.machine.distances[r.ref.id]? = some d ↔ around.Binds r.ref.name.text d) ∧
      (session.machine.distances[r.ref.id]? = none ↔
        ∀ names ∈ around.scopes, r.ref.name.text ∉ names)) ∧
    (Stmt.walkList program .start).found = resolveProgram program ∧
    (∀ (e : Expr) (w : Walker), (e.walk w).context = w.context) ∧
    ∀ (s : Stmt) (w : Walker), w.context.Returns (s.walk w).context := by
  intro program session
  have hproper : Stmt.ProperList program := Program.proper source 0
  have hperm := Stmt.referencesList_perm [] program
  have hhanded := Program.handed source 0
  refine ⟨hperm, fun around r hr => ?_, found_walk_program hproper, Expr.context_walk,
    Stmt.returns_walk⟩
  have hids : (Reference.ids (Occurrence.uses (Stmt.occurrencesList [] program))).Nodup :=
    (hperm.map _).nodup_iff.2 hhanded.distinct
  have hmachine : session.machine = (Machine.initial sink clock).recordDistances
      ((Stmt.occurrencesList [] program).filterMap Occurrence.located?) := by
    rw [← (describes_resolveProgram program).distances]
    simp only [session, program, Session.resolve, Session.read, Session.reportAll_eq]
    rfl
  have htame := Stmt.tameList Surroundings.plain_top program hproper _ hr
  have hnew : (Machine.initial sink clock).distances[r.ref.id]? = none := rfl
  have hrecorded := recordDistances_located hids hr (r := r) rfl hnew
  have hdistance : session.machine.distances[r.ref.id]? =
      around.scopes.findIdx? (·.contains r.ref.name.text) := by
    rw [hmachine, hrecorded, htame.located]
    cases around.scopes.findIdx? (·.contains r.ref.name.text) <;> rfl
  rw [hdistance]
  exact ⟨fun d => Surroundings.findIdx?_eq_some, Surroundings.findIdx?_eq_none⟩

end Lox

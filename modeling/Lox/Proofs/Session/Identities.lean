import Mathlib.Data.List.Nodup
import Lox.Proofs.Evaluation.Effects
import Lox.Proofs.Grammar.Identities
import Lox.Proofs.Scope.References
import Lox.Proofs.Session

/-!
# The identities of a session

The programs that a session reads stay around: functions that were declared by one
of them are called from others, and a program may be resolved long after others were
read. An archive is a session with all programs it has read. No two nodes of these
programs have one identity, so the distances of a program are its own: they are
missing until it is resolved, and nothing that is done with other programs changes
them.
-/

namespace Lox

/-- A session with the programs it has read. -/
structure Archive where
  /-- The programs, oldest first. -/
  programs : List (List Stmt)
  /-- The positions of the programs that were resolved. -/
  resolved : List Nat
  /-- The session. -/
  session : Session

/-- What a session can be asked for. Programs are named by their position in the
archive. -/
inductive Archive.Request where
  /-- A source is read. -/
  | read (source : String)
  /-- A program is resolved. -/
  | resolve (i : Nat)
  /-- A program is executed. -/
  | execute (fuel : Nat) (i : Nat)
  /-- A source is read, resolved and executed. -/
  | run (fuel : Nat) (source : String)
  /-- The diagnostics are taken. -/
  | takeDiagnostics
  /-- The output is taken. -/
  | takeOutput
  /-- The static errors are forgotten. -/
  | forgetErrors

namespace Archive

/-- An archive before the first source. -/
def initial (sink : Sink) (clock : Nat → Float) : Archive := ⟨[], [], .initial sink clock⟩

/-- All nodes with an identity, in all programs. -/
def references (archive : Archive) : List Reference :=
  archive.programs.flatMap Stmt.referencesList

/-- The distance that is recorded for a node. -/
def distance? (archive : Archive) (r : Reference) : Option Nat :=
  archive.session.machine.distances[r.ref.id]?

/-- Reads a source. -/
def read (archive : Archive) (source : String) : Archive :=
  { archive with
    programs := archive.programs ++ [(archive.session.read source).1]
    session := (archive.session.read source).2 }

/-- Resolves a program, if there is one at the position. -/
def resolve (archive : Archive) (i : Nat) : Archive :=
  match archive.programs[i]? with
  | none => archive
  | some program =>
    { archive with
      resolved := i :: archive.resolved
      session := archive.session.resolve program }

/-- Executes a program, if there is one at the position. -/
def execute (archive : Archive) (fuel i : Nat) : Archive :=
  match archive.programs[i]? with
  | none => archive
  | some program =>
    { archive with
      session := Session.sessionAfter (Session.execute fuel program archive.session) }

/-- Runs a source, which is read in any case and resolved if no error is remembered
then. -/
def run (archive : Archive) (fuel : Nat) (source : String) : Archive :=
  { programs := archive.programs ++ [(archive.session.read source).1]
    resolved :=
      if (archive.session.read source).2.hadError then archive.resolved
      else archive.programs.length :: archive.resolved
    session := Session.sessionAfter (Session.run fuel source archive.session) }

/-- Does what is asked for. -/
def perform (archive : Archive) : Request → Archive
  | .read source => archive.read source
  | .resolve i => archive.resolve i
  | .execute fuel i => archive.execute fuel i
  | .run fuel source => archive.run fuel source
  | .takeDiagnostics => { archive with session := archive.session.takeDiagnostics.2 }
  | .takeOutput => { archive with session := archive.session.takeOutput.2 }
  | .forgetErrors => { archive with session := archive.session.forgetErrors }

/-- Does one thing after the other. -/
def performAll (archive : Archive) (requests : List Request) : Archive :=
  requests.foldl perform archive

variable {archive : Archive} {program : List Stmt} {r : Reference} {i : Nat}

/-- A run is made of the other requests. -/
theorem run_eq (archive : Archive) (fuel : Nat) (source : String) :
    archive.run fuel source = archive.read source ∨
      archive.run fuel source = (archive.read source).resolve archive.programs.length ∨
      archive.run fuel source =
        ((archive.read source).resolve archive.programs.length).execute fuel
          archive.programs.length := by
  have hlast : (archive.programs ++ [(archive.session.read source).1])[archive.programs.length]? =
      some (archive.session.read source).1 := List.getElem?_concat_length ..
  have hresolve : (archive.read source).resolve archive.programs.length =
      { archive.read source with
        resolved := archive.programs.length :: archive.resolved
        session := (archive.session.read source).2.resolve (archive.session.read source).1 } := by
    simp only [resolve, read, hlast]
  rw [hresolve]
  simp only [run, read, execute, hlast, Session.run]
  by_cases hread : (archive.session.read source).2.hadError = true
  · exact .inl (by simp only [hread, if_true, Session.sessionAfter])
  · refine .inr ?_
    simp only [hread]
    by_cases hstop : ((archive.session.read source).2.resolve
        (archive.session.read source).1).hadError = true
    · exact .inl (by simp [hstop, Session.sessionAfter])
    · exact .inr (by simp [hstop])

/-! ### What stays the same -/

/-- The nodes of a program in the archive are among all nodes. -/
theorem references_of_mem (hi : archive.programs[i]? = some program)
    (hr : r ∈ Stmt.referencesList program) : r ∈ archive.references :=
  List.mem_flatMap.2 ⟨program, List.mem_of_getElem? hi, hr⟩

/-- A source that is read adds the nodes of its program. -/
theorem references_read (archive : Archive) (source : String) :
    (archive.read source).references =
      archive.references ++ Stmt.referencesList (archive.session.read source).1 := by
  rw [references, read, List.flatMap_append, List.flatMap_singleton]
  rfl

/-- A program that is resolved stays as it is. -/
theorem programs_resolve (archive : Archive) (j : Nat) :
    (archive.resolve j).programs = archive.programs := by
  unfold resolve
  split <;> rfl

/-- A program is resolved without a new identity. -/
theorem nextId_resolve (archive : Archive) (j : Nat) :
    (archive.resolve j).session.nextId = archive.session.nextId := by
  unfold resolve
  split
  · rfl
  · simp only [Session.resolve, Session.reportAll_eq]

/-- What is executed records nothing and hands out nothing. -/
theorem execute_eq (archive : Archive) (fuel j : Nat) :
    (archive.execute fuel j).programs = archive.programs ∧
      (archive.execute fuel j).resolved = archive.resolved ∧
      (archive.execute fuel j).session.nextId = archive.session.nextId ∧
      (archive.execute fuel j).session.machine.distances = archive.session.machine.distances := by
  unfold execute
  split
  · exact ⟨rfl, rfl, rfl, rfl⟩
  · rename_i program _
    have hkept := (keeps_executeProgram fuel program archive.session.machine).distances
    unfold Session.execute
    revert hkept
    split <;> rename_i h <;> rw [h] <;> exact fun hkept => ⟨rfl, rfl, rfl, hkept⟩

/-- A source is read without the machine. -/
theorem machine_read (archive : Archive) (source : String) :
    (archive.read source).session.machine = archive.session.machine := by
  simp only [read, Session.read, Session.reportAll_eq]

/-- A source that is read leaves all distances as they are. -/
theorem distance?_read (archive : Archive) (source : String) (r : Reference) :
    (archive.read source).distance? r = archive.distance? r := by
  unfold distance?
  rw [machine_read]

/-- Resolving a program records distances of its own nodes only. -/
theorem distance?_resolve {j : Nat} {other : List Stmt} (hj : archive.programs[j]? = some other)
    {id : Nat} (hid : id ∉ Reference.ids (Stmt.referencesList other)) :
    (archive.resolve j).session.machine.distances[id]? =
      archive.session.machine.distances[id]? := by
  simp only [resolve, hj, Session.resolve, Session.reportAll_eq]
  refine Machine.recordDistances_of_notMem fun hmem => hid ?_
  obtain ⟨p, hp, rfl⟩ := List.mem_map.1 hmem
  obtain ⟨r, hr, hsame⟩ := about_resolveProgram other p hp
  exact List.mem_map.2 ⟨r, hr, hsame⟩

/-! ### The invariant -/

/-- An archive in which all nodes have identities of their own. -/
structure Sound (archive : Archive) : Prop where
  /-- The identities were handed out one by one. -/
  handed : Handed 0 archive.session.nextId archive.references
  /-- Nothing is recorded for the nodes of a program that was not resolved. -/
  unresolved : ∀ i program, archive.programs[i]? = some program → i ∉ archive.resolved →
    ∀ r ∈ Stmt.referencesList program, archive.distance? r = none
  /-- Nothing is recorded for identities to come. -/
  fresh : ∀ id, archive.session.nextId ≤ id → archive.session.machine.distances[id]? = none

/-- Nodes of different programs have different identities. -/
theorem Sound.apart (h : archive.Sound) {j : Nat} {other : List Stmt}
    (hi : archive.programs[i]? = some program) (hj : archive.programs[j]? = some other)
    (hij : j ≠ i) (hr : r ∈ Stmt.referencesList program) :
    r.ref.id ∉ Reference.ids (Stmt.referencesList other) := by
  have hdistinct := h.handed.distinct
  rw [Reference.ids, references, List.map_flatMap, List.nodup_flatMap] at hdistinct
  have hpairwise := List.pairwise_iff_getElem.1 hdistinct.2
  obtain ⟨hilt, hi⟩ := List.getElem?_eq_some_iff.1 hi
  obtain ⟨hjlt, hj⟩ := List.getElem?_eq_some_iff.1 hj
  have hid : r.ref.id ∈ (Stmt.referencesList program).map (·.ref.id) := List.mem_map_of_mem hr
  intro hmem
  rcases Nat.lt_or_gt_of_ne hij with hlt | hlt
  · have hdisjoint := hpairwise j i hjlt hilt hlt
    rw [hi, hj] at hdisjoint
    exact hdisjoint hmem hid
  · have hdisjoint := hpairwise i j hilt hjlt hlt
    rw [hi, hj] at hdisjoint
    exact hdisjoint hid hmem

/-- An archive before its first source has no nodes. -/
theorem sound_initial (sink : Sink) (clock : Nat → Float) : (initial sink clock).Sound :=
  ⟨.nil (Nat.le_refl 0), nofun, fun _ _ => rfl⟩

/-- Nothing is recorded for the nodes of a source that was just read. -/
theorem Sound.distance?_new (h : archive.Sound) {source : String}
    (hr : r ∈ Stmt.referencesList (archive.session.read source).1) :
    (archive.read source).distance? r = none := by
  have hnew := (Program.handed source archive.session.nextId).range r hr
  rw [distance?_read]
  exact h.fresh _ hnew.1

/-- The nodes of a source that is read get identities that nobody had. -/
theorem Sound.read (h : archive.Sound) (source : String) : (archive.read source).Sound := by
  have hnew := Program.handed source archive.session.nextId
  have hnext : (archive.read source).session.nextId =
      (Program.ofSource source archive.session.nextId).nextId := by
    simp only [Archive.read, Session.read, Session.reportAll_eq]
  have hmachine := machine_read archive source
  refine ⟨?_, fun i program hi hunresolved r hr => ?_, fun id hid => ?_⟩
  · rw [references_read, hnext]
    exact h.handed.append hnew
  · by_cases hlt : i < archive.programs.length
    · rw [Archive.read, List.getElem?_append_left hlt] at hi
      rw [distance?_read]
      exact h.unresolved i program hi hunresolved r hr
    · rw [Archive.read, List.getElem?_append_right (Nat.not_lt.1 hlt)] at hi
      rw [List.mem_singleton.1 (List.mem_of_getElem? hi)] at hr
      exact h.distance?_new hr
  · rw [hmachine]
    rw [hnext] at hid
    exact h.fresh id (Nat.le_trans hnew.le hid)

/-- A program that is resolved gets distances for its own nodes only. -/
theorem Sound.resolve (h : archive.Sound) (j : Nat) : (archive.resolve j).Sound := by
  cases hj : archive.programs[j]? with
  | none =>
    have hsame : archive.resolve j = archive := by simp only [Archive.resolve, hj]
    rw [hsame]
    exact h
  | some other =>
    have hresolved : (archive.resolve j).resolved = j :: archive.resolved := by
      simp only [Archive.resolve, hj]
    have hprograms := programs_resolve archive j
    have hreferences : (archive.resolve j).references = archive.references := by
      rw [references, hprograms, references]
    have hnext := nextId_resolve archive j
    refine ⟨?_, fun i program hi hunresolved r hr => ?_, fun id hid => ?_⟩
    · rw [hreferences, hnext]
      exact h.handed
    · rw [hprograms] at hi
      rw [hresolved, List.mem_cons, not_or] at hunresolved
      unfold distance?
      rw [distance?_resolve hj (h.apart hi hj (Ne.symm hunresolved.1) hr)]
      exact h.unresolved i program hi hunresolved.2 r hr
    · rw [hnext] at hid
      rw [distance?_resolve hj]
      · exact h.fresh id hid
      · intro hmem
        obtain ⟨r, hr, rfl⟩ := List.mem_map.1 hmem
        have hlt := (h.handed.range r (references_of_mem hj hr)).2
        omega

/-- Only programs, next identity and distances matter. -/
theorem Sound.congr (h : archive.Sound) {after : Archive}
    (hprograms : after.programs = archive.programs) (hresolved : after.resolved = archive.resolved)
    (hnext : after.session.nextId = archive.session.nextId)
    (hdistances : after.session.machine.distances = archive.session.machine.distances) :
    after.Sound := by
  refine ⟨?_, ?_, ?_⟩
  · rw [references, hprograms, hnext]
    exact h.handed
  · unfold distance?
    rw [hprograms, hresolved, hdistances]
    exact h.unresolved
  · rw [hnext, hdistances]
    exact h.fresh

/-- A program that is executed uses distances and records none. -/
theorem Sound.execute (h : archive.Sound) (fuel j : Nat) : (archive.execute fuel j).Sound := by
  obtain ⟨hprograms, hresolved, hnext, hdistances⟩ := execute_eq archive fuel j
  exact h.congr hprograms hresolved hnext hdistances

/-- Every request keeps identities apart. -/
theorem Sound.perform (h : archive.Sound) (request : Request) :
    (archive.perform request).Sound := by
  cases request with
  | read source => exact h.read source
  | resolve i => exact h.resolve i
  | execute fuel i => exact h.execute fuel i
  | run fuel source =>
    rcases run_eq archive fuel source with heq | heq | heq
    · rw [Archive.perform, heq]
      exact h.read source
    · rw [Archive.perform, heq]
      exact (h.read source).resolve _
    · rw [Archive.perform, heq]
      exact ((h.read source).resolve _).execute fuel _
  | takeDiagnostics => exact h.congr rfl rfl rfl rfl
  | takeOutput => exact h.congr rfl rfl rfl rfl
  | forgetErrors => exact h.congr rfl rfl rfl rfl

/-- Whatever is asked for in whatever order, all nodes have identities of their own. -/
theorem sound_performAll (sink : Sink) (clock : Nat → Float) (requests : List Request) :
    ((initial sink clock).performAll requests).Sound := by
  have hfrom : ∀ archive : Archive, archive.Sound → (archive.performAll requests).Sound := by
    induction requests with
    | nil => exact fun archive h => h
    | cons request rest ih => exact fun archive h => ih _ (h.perform request)
  exact hfrom _ (sound_initial sink clock)

/-! ### Distances that stay -/

/-- Resolving another program changes no distance of this one. -/
theorem Sound.distance?_resolve (h : archive.Sound) {j : Nat}
    (hi : archive.programs[i]? = some program) (hij : j ≠ i)
    (hr : r ∈ Stmt.referencesList program) :
    (archive.resolve j).distance? r = archive.distance? r := by
  cases hj : archive.programs[j]? with
  | none => simp only [Archive.resolve, hj]
  | some other => exact Archive.distance?_resolve hj (h.apart hi hj hij hr)

/-- A program that is executed leaves all distances as they are. -/
theorem distance?_execute (archive : Archive) (fuel j : Nat) (r : Reference) :
    (archive.execute fuel j).distance? r = archive.distance? r := by
  unfold distance?
  rw [(execute_eq archive fuel j).2.2.2]

/-- Whatever is asked for, only resolving a program changes the distances of its
nodes. -/
theorem Sound.distance?_perform (h : archive.Sound) {request : Request}
    (hi : archive.programs[i]? = some program) (hother : request ≠ .resolve i)
    (hr : r ∈ Stmt.referencesList program) :
    (archive.perform request).distance? r = archive.distance? r := by
  cases request with
  | read source => exact distance?_read archive source r
  | resolve j => exact h.distance?_resolve hi (fun hij => hother (hij ▸ rfl)) hr
  | execute fuel j => exact distance?_execute archive fuel j r
  | run fuel source =>
    have hlt := (List.getElem?_eq_some_iff.1 hi).1
    have hresolve : ((archive.read source).resolve archive.programs.length).distance? r =
        archive.distance? r := by
      have hstill : (archive.read source).programs[i]? = some program := by
        rw [Archive.read, List.getElem?_append_left hlt, hi]
      rw [(h.read source).distance?_resolve hstill (Nat.ne_of_gt hlt) hr, distance?_read]
    rcases run_eq archive fuel source with heq | heq | heq
    · rw [Archive.perform, heq, distance?_read]
    · rw [Archive.perform, heq, hresolve]
    · rw [Archive.perform, heq, distance?_execute, hresolve]
  | takeDiagnostics => rfl
  | takeOutput => rfl
  | forgetErrors => rfl

/-- Identities are unique in a session. Whatever sources are read, with or without
errors, and whatever else is asked for in between, the nodes of all programs have
different identities, and the next one is above them. Nothing is recorded for a node
when its source was just read nor until its program is resolved, and nothing but
resolving that program changes what is recorded for it. -/
theorem identities_unique (sink : Sink) (clock : Nat → Float) (requests : List Request) :
    let archive := (initial sink clock).performAll requests
    (Reference.ids archive.references).Nodup ∧
      (∀ r ∈ archive.references, r.ref.id < archive.session.nextId) ∧
      (∀ i program, archive.programs[i]? = some program → ∀ r ∈ Stmt.referencesList program,
        (i ∉ archive.resolved → archive.distance? r = none) ∧
        ∀ request, request ≠ .resolve i →
          (archive.perform request).distance? r = archive.distance? r) ∧
      ∀ source, ∀ r ∈ Stmt.referencesList (archive.session.read source).1,
        (archive.perform (.read source)).distance? r = none := by
  have hsound := sound_performAll sink clock requests
  refine ⟨hsound.handed.distinct, fun r hr => (hsound.handed.range r hr).2, ?_, ?_⟩
  · intro i program hi r hr
    constructor
    · intro hunresolved
      exact hsound.unresolved i program hi hunresolved r hr
    · intro request hother
      exact hsound.distance?_perform hi hother hr
  · intro source r hr
    exact hsound.distance?_new hr

end Archive

end Lox

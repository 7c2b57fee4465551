import Lox.Tree.Reference

/-!
# Names declared late

A name is declared late if a function that stands before its declaration, in the
same scope and at any depth, mentions the name in its body. The body means some
outer name then, but while it runs its own scope may have the name already. On
the top level no name is declared late: what is global is looked up when the
program runs.
-/

namespace Lox

/-- The names that a statement declares in the scope that it stands in. -/
def Stmt.declared : Stmt → List String
  | .varDecl name _ => [name.text]
  | .funDecl function => [function.name.text]
  | .classDecl name _ _ => [name.text]
  | _ => []

/-- The names that some references mention. -/
def Reference.words (references : List Reference) : List String :=
  references.map (·.ref.name.text)

mutual

/-- The names that the bodies of functions and methods in a statement mention. -/
def Stmt.captured : Stmt → List String
  | .expression _ => []
  | .print _ => []
  | .varDecl _ _ => []
  | .block body => Stmt.capturedList body
  | .branch _ yes none => yes.captured
  | .branch _ yes (some no) => yes.captured ++ no.captured
  | .loop _ body => body.captured
  | .funDecl function => Reference.words (FunDecl.references function)
  | .result _ _ => []
  | .classDecl _ _ methods => Reference.words (FunDecl.referencesList methods)

/-- The names that the bodies of functions and methods in several statements
mention. -/
def Stmt.capturedList : List Stmt → List String
  | [] => []
  | s :: rest => s.captured ++ Stmt.capturedList rest

end

/-- Whether one of the statements of a scope declares a name that a function in
an earlier one mentions. -/
def Stmt.lateInScope : List Stmt → Bool
  | [] => false
  | s :: rest =>
    s.captured.any (rest.flatMap Stmt.declared).contains || Stmt.lateInScope rest

mutual

/-- Whether a scope inside a statement declares a name late. -/
def Stmt.declaresLate : Stmt → Bool
  | .expression _ => false
  | .print _ => false
  | .varDecl _ _ => false
  | .block body => Stmt.lateInScope body || Stmt.declaresLateList body
  | .branch _ yes none => yes.declaresLate
  | .branch _ yes (some no) => yes.declaresLate || no.declaresLate
  | .loop _ body => body.declaresLate
  | .funDecl function => FunDecl.declaresLate function
  | .result _ _ => false
  | .classDecl _ _ methods => FunDecl.declaresLateList methods

/-- Whether a scope inside one of several statements declares a name late. -/
def Stmt.declaresLateList : List Stmt → Bool
  | [] => false
  | s :: rest => s.declaresLate || Stmt.declaresLateList rest

/-- Whether the scope of a function, or one inside it, declares a name late. -/
def FunDecl.declaresLate : FunDecl → Bool
  | ⟨_, _, body⟩ => Stmt.lateInScope body || Stmt.declaresLateList body

/-- Whether a scope of one of several functions declares a name late. -/
def FunDecl.declaresLateList : List FunDecl → Bool
  | [] => false
  | f :: rest => FunDecl.declaresLate f || FunDecl.declaresLateList rest

end

/-- A function among several that declare nothing late. -/
theorem FunDecl.declaresLateList_mem {fs : List FunDecl}
    (h : FunDecl.declaresLateList fs = false) {f : FunDecl} (hf : f ∈ fs) :
    FunDecl.declaresLate f = false := by
  induction fs with
  | nil => cases hf
  | cons g rest ih =>
    rw [FunDecl.declaresLateList, Bool.or_eq_false_iff] at h
    rcases List.mem_cons.1 hf with rfl | hrest
    · exact h.1
    · exact ih h.2 hrest

/-- All references are to some given names. -/
abbrev Reference.Among (words : List String) (references : List Reference) : Prop :=
  ∀ r ∈ references, r.ref.name.text ∈ words

/-- The references of a function among several. -/
theorem Reference.Among.function {words : List String} {fs : List FunDecl}
    (h : Reference.Among words (FunDecl.referencesList fs)) {f : FunDecl} (hf : f ∈ fs) :
    Reference.Among words (FunDecl.references f) := by
  induction fs with
  | nil => cases hf
  | cons g rest ih =>
    rw [FunDecl.referencesList, Reference.Among, List.forall_mem_append] at h
    rcases List.mem_cons.1 hf with rfl | hrest
    · exact h.1
    · exact ih h.2 hrest

/-- References are among their own words. -/
theorem Reference.among_words (references : List Reference) :
    Reference.Among (Reference.words references) references :=
  fun _ hr => List.mem_map_of_mem hr

/-- The words among which some references are have all words of these references. -/
theorem Reference.Among.mem {words : List String} {references : List Reference}
    (h : Reference.Among words references) {x : String} (hx : x ∈ Reference.words references) :
    x ∈ words := by
  obtain ⟨r, hr, rfl⟩ := List.mem_map.1 hx
  exact h r hr

mutual

/-- What the functions of a statement mention, the statement mentions. -/
theorem Stmt.captured_subset : (s : Stmt) → s.captured ⊆ Reference.words s.references
  | .expression _ => List.nil_subset _
  | .print _ => List.nil_subset _
  | .varDecl _ _ => List.nil_subset _
  | .block body => Stmt.capturedList_subset body
  | .branch condition yes none => by
    rw [Stmt.captured, Stmt.references, Reference.words, List.map_append]
    exact List.subset_append_of_subset_right _ yes.captured_subset
  | .branch condition yes (some no) => by
    rw [Stmt.captured, Stmt.references, Reference.words, List.map_append, List.map_append,
      List.append_assoc]
    refine List.subset_append_of_subset_right _ (List.append_subset.2 ⟨?_, ?_⟩)
    · exact List.subset_append_of_subset_left _ yes.captured_subset
    · exact List.subset_append_of_subset_right _ no.captured_subset
  | .loop condition body => by
    rw [Stmt.captured, Stmt.references, Reference.words, List.map_append]
    exact List.subset_append_of_subset_right _ body.captured_subset
  | .funDecl _ => List.Subset.refl _
  | .result _ _ => List.nil_subset _
  | .classDecl _ _ _ => by
    rw [Stmt.captured, Stmt.references, Reference.words, Reference.words, List.map_append]
    exact List.subset_append_right _ _

/-- What the functions of several statements mention, the statements mention. -/
theorem Stmt.capturedList_subset :
    (ss : List Stmt) → Stmt.capturedList ss ⊆ Reference.words (Stmt.referencesList ss)
  | [] => List.nil_subset _
  | s :: rest => by
    rw [Stmt.capturedList, Stmt.referencesList, Reference.words, List.map_append]
    refine List.append_subset.2 ⟨?_, ?_⟩
    · exact List.subset_append_of_subset_left _ s.captured_subset
    · exact List.subset_append_of_subset_right _ (Stmt.capturedList_subset rest)

end

end Lox

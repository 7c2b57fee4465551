import Lox.Proofs.Grammar.Progress
import Lox.Proofs.Grammar.Renumber
import Lox.Proofs.Session.Increments

/-!
# Reading two sources as one

A source that is read without a diagnostic, a line break and any other source are read
like the one source and then the other. The second may have errors: what is wrong with it
is wrong with it in the same way, further down. There is one exception, a second source
that starts with `else`, which would go on with an `if` of the first.
-/

namespace Lox

open Grammar

namespace Parse

/-- Declarations in front of other tokens are read first, and then what is behind them,
whatever that is. -/
theorem program_append {ss others : List Stmt} {n m : Nat} {ts rest : List Token} {f : Token}
    {errs : Array SyntaxError} {d : Cursor} (h : (Sentence.declarations ss).Derives true n ts m)
    (hf : f.isFinish) (helse : ¬StartsWith .elseWord rest)
    (hrest : program ⟨rest, f, m, errs⟩ = .ok others d) :
    program ⟨ts ++ rest, f, n, errs⟩ = .ok (ss ++ others) d := by
  induction ss generalizing n ts with
  | nil =>
    cases h
    exact hrest
  | cons s ss ih =>
    cases h with
    | @declarations _ _ ts us _ k _ hs hss =>
      obtain ⟨t, vs, rfl, -⟩ := hs.first
      have hfirst : declaration ⟨t :: vs ++ (us ++ rest), f, n, errs⟩ =
          .ok (some s) ⟨us ++ rest, f, k, errs⟩ :=
        (bind_of_ok rfl).trans (acceptsSentence_of_derives hs _ _ f errs (Nat.le_refl _)
          (not_else_of_declarations hss helse))
      have hbehind : programList (vs ++ (us ++ rest)).length ⟨us ++ rest, f, k, errs⟩ =
          .ok (ss ++ others) d := by
        refine (programList_congr hf ?_ (Nat.le_refl _)).trans (ih hss)
        simp only [List.length_append]
        omega
      rw [List.append_assoc]
      exact (bind_of_ok hfirst).trans (bind_of_ok hbehind)

end Parse

/-! ### Further down -/

/-- A diagnostic is of the same kind further down. -/
theorem Diagnostic.isStatic_shift (l : Nat) (d : Diagnostic) :
    (d.shift l).isStatic = d.isStatic := by
  cases d <;> rfl

/-- The tokens of items that follow one another follow one another. -/
theorem Item.tokens_append (a b : List Item) :
    Item.tokens (a ++ b) = Item.tokens a ++ Item.tokens b :=
  List.filterMap_append

/-- Tokens are found among the items further down where they are found here. -/
theorem Item.tokens_shift (l : Nat) (items : List Item) :
    Item.tokens (items.map (Item.shift l)) = (Item.tokens items).map (·.shift l) := by
  induction items with
  | nil => rfl
  | cons item rest ih =>
    cases item with
    | token t => exact congrArg (t.shift l :: ·) ih
    | bad line cause => exact ih

/-- Lexical errors are found among the items further down where they are found here. -/
theorem Item.diagnostics_shift (l : Nat) (items : List Item) :
    Item.diagnostics (items.map (Item.shift l)) = (Item.diagnostics items).map (·.shift l) := by
  induction items with
  | nil => rfl
  | cons item rest ih =>
    cases item with
    | token t => exact ih
    | bad line cause => exact congrArg (Diagnostic.lexical (line + l) cause :: ·) ih

/-- The tokens of a source are those before its end, and then the end. -/
theorem exists_tokens_scan (source : String) : ∃ ts f, f.isFinish ∧
    (∀ t ∈ ts, t.isFinish = false) ∧ Item.tokens (scan source) = ts ++ [f] := by
  obtain ⟨items, hitems, hproper, -⟩ := scanFrom_eq source.toList 1
  refine ⟨Item.tokens items, Token.finishAt (1 + lineBreaks source.toList), rfl, ?_, ?_⟩
  · intro t ht
    obtain ⟨item, hitem, ht⟩ := List.mem_filterMap.1 ht
    cases item with
    | bad line cause => cases ht
    | token u =>
      cases ht
      exact (hproper t hitem).isFinish
  · rw [scan, hitems, Item.tokens_append]
    rfl

/-! ### Programs -/

/-- Tokens of a program, and behind them any tokens further down. -/
theorem parseTokens_append {ss : List Stmt} {n m l : Nat} {ts us : List Token} {f : Token}
    (hts : ∀ t ∈ ts, t.isFinish = false) (hus : ∀ t ∈ us, t.isFinish = false) (hf : f.isFinish)
    (h : (Sentence.declarations ss).Derives true n ts m) (helse : ¬Parse.StartsWith .elseWord us) :
    parseTokens (ts ++ (us ++ [f]).map (·.shift l)) n =
      { statements := ss ++ Stmt.shiftList id l (parseTokens (us ++ [f]) m).statements
        errors := (parseTokens (us ++ [f]) m).errors.map (·.shift l)
        nextId := (parseTokens (us ++ [f]) m).nextId } := by
  obtain ⟨others, d, hothers, -⟩ := Parse.program_ends (c := ⟨us, f, m, #[]⟩) hf
  -- The second tokens alone, further down.
  have hdown : Parse.program ⟨us.map (·.shift l), f.shift l, m, #[]⟩ =
      .ok (Stmt.shiftList id l others) (d.shift id l) := by
    have hcounts : Counts id m := fun _ _ => rfl
    rcases Parse.shifts_program (l := l) ⟨us, f, m, #[]⟩ hcounts with
      ⟨ss', d', hhere, hthere, -⟩ | ⟨e, d', herror, -⟩
    · rw [hothers] at hhere
      cases hhere
      simpa [Cursor.shift] using hthere
    · rw [hothers] at herror
      cases herror
  have hstart : ¬Parse.StartsWith .elseWord (us.map (·.shift l)) := by
    rintro ⟨t, ht, his⟩
    rw [List.head?_map, Option.map_eq_some_iff] at ht
    obtain ⟨u, hu, rfl⟩ := ht
    exact helse ⟨u, hu, his⟩
  have hproper : ∀ t ∈ ts ++ us.map (·.shift l), t.isFinish = false := by
    intro t ht
    rcases List.mem_append.1 ht with ht | ht
    · exact hts t ht
    · obtain ⟨u, hu, rfl⟩ := List.mem_map.1 ht
      exact hus u hu
  have hboth : parseTokens (ts ++ (us ++ [f]).map (·.shift l)) n =
      ⟨ss ++ Stmt.shiftList id l others, (d.shift id l).errors.toList, d.nextId⟩ := by
    have happend : ts ++ (us ++ [f]).map (·.shift l) =
        (ts ++ us.map (·.shift l)) ++ [f.shift l] := by simp
    have hfinish : (f.shift l).isFinish := hf
    rw [happend, parseTokens, Cursor.ofTokens_append_finish hproper hfinish,
      Parse.program_append h hfinish hstart hdown]
    rfl
  have hsecond : parseTokens (us ++ [f]) m = ⟨others, d.errors.toList, d.nextId⟩ := by
    rw [parseTokens, Cursor.ofTokens_append_finish hus hf, hothers]
  rw [hboth, hsecond]
  simp [Cursor.shift]

namespace Program

/-- Two sources with a line break between them are read one after the other, also when
something is wrong with the second. -/
theorem ofSource_append_any {first second : String} {n : Nat}
    (hfirst : (ofSource first n).diagnostics = [])
    (helse : ¬Parse.StartsWith .elseWord (Item.tokens (scan second))) :
    ofSource (first ++ "\n" ++ second) n =
      { statements := (ofSource first n).statements ++
          Stmt.shiftList id (lineBreaks first.toList + 1)
            (ofSource second (ofSource first n).nextId).statements
        diagnostics := (ofSource second (ofSource first n).nextId).diagnostics.map
          (·.shift (lineBreaks first.toList + 1))
        nextId := (ofSource second (ofSource first n).nextId).nextId } := by
  obtain ⟨ts, hs, hderives⟩ := derives_of_diagnostics hfirst
  obtain ⟨us, f, hf, hus, hsecond⟩ := exists_tokens_scan second
  have hstart : ¬Parse.StartsWith .elseWord us := by
    rintro ⟨t, ht, his⟩
    exact helse ⟨t, by rw [hsecond, List.head?_append, ht]; rfl, his⟩
  have htokens : Item.tokens (scan (first ++ "\n" ++ second)) =
      ts ++ (us ++ [f]).map (·.shift (lineBreaks first.toList + 1)) := by
    rw [hs.scan_append, Item.tokens_append, Item.tokens_map_token, Item.tokens_shift, hsecond]
  have hdiagnostics : Item.diagnostics (scan (first ++ "\n" ++ second)) =
      (Item.diagnostics (scan second)).map (·.shift (lineBreaks first.toList + 1)) := by
    rw [hs.scan_append, Item.diagnostics_append, Item.diagnostics_map_token,
      Item.diagnostics_shift, List.nil_append]
  have hparse := parseTokens_append (l := lineBreaks first.toList + 1)
    (fun t ht => (hs.proper t ht).isFinish) hus hf hderives hstart
  rw [← hsecond] at hparse
  conv_lhs => rw [ofSource, ofItems, htokens, hdiagnostics, ← hsecond, hparse]
  simp [ofSource, ofItems, Diagnostic.shift, SyntaxError.shift]

end Program

/-! ### Sessions -/

namespace Session

/-- What is read and reported when two sources are read as one, compared with reading the
second after the first. -/
structure ReadsAsOne (before : Session) (l : Nat) (first second both : List Stmt × Session) :
    Prop where
  /-- The same trees with the same identities, those of the second further down. -/
  statements : both.1 = first.1 ++ Stmt.shiftList id l second.1
  /-- The same identities are free then. -/
  nextId : both.2.nextId = second.2.nextId
  /-- The first source has no diagnostics, and those of the second are reported in their
  order, further down. -/
  diagnostics : first.2.pending = before.pending ∧ ∃ reported : List Diagnostic,
    second.2.pending = before.pending ++ reported ∧
    both.2.pending = before.pending ++ reported.map (·.shift l)
  /-- The same kinds of errors are remembered. -/
  remembered : both.2.hadError = second.2.hadError ∧
    both.2.hadRuntimeError = second.2.hadRuntimeError
  /-- Nothing is run. -/
  machine : both.2.machine = before.machine ∧ second.2.machine = before.machine

/-- **A source without diagnostics and any other source behind it are read as the one and
then the other.** -/
theorem read_composes (session : Session) (first second : String)
    (hfirst : (Program.ofSource first session.nextId).diagnostics = [])
    (helse : ¬Parse.StartsWith .elseWord (Item.tokens (scan second))) :
    ReadsAsOne session (lineBreaks first.toList + 1) (session.read first)
      ((session.read first).2.read second) (session.read (first ++ "\n" ++ second)) := by
  have hboth := Program.ofSource_append_any hfirst helse
  have hstatic : ∀ ds : List Diagnostic,
      (ds.map (·.shift (lineBreaks first.toList + 1))).any (·.isStatic) = ds.any (·.isStatic) ∧
      (ds.map (·.shift (lineBreaks first.toList + 1))).any (!·.isStatic) =
        ds.any (!·.isStatic) := by
    intro ds
    simp [List.any_map, Function.comp_def, Diagnostic.isStatic_shift]
  have hread : session.read first = ((Program.ofSource first session.nextId).statements,
      { session with nextId := (Program.ofSource first session.nextId).nextId }) := by
    rw [read, hfirst]
    rfl
  rw [hread]
  simp only [read, hboth, reportAll_eq]
  exact ⟨rfl, rfl, ⟨rfl, _, rfl, rfl⟩, ⟨by rw [(hstatic _).1], by rw [(hstatic _).2]⟩, rfl, rfl⟩

/-- A first source of two lines that ends in a comment, and a second one with an unknown
character, a declaration without a name and an open quote. -/
theorem read_composes_with_errors :
    let session := Session.initial .unbounded fun _ => 0
    let first := "if (true)\n  print 1; // one"
    let second := "var a = @ 2;\nvar = 3;\nprint \"b"
    (Program.ofSource first session.nextId).diagnostics = [] ∧
    (Program.ofSource second session.nextId).diagnostics.length = 4 ∧
    ReadsAsOne session 2 (session.read first) ((session.read first).2.read second)
      (session.read (first ++ "\n" ++ second)) := by
  intro session first second
  have hfirst : (Program.ofSource first session.nextId).diagnostics = [] := by decide +kernel
  have hstart : (Item.tokens (scan second)).head?.all (fun t => !t.is .elseWord) = true := by
    decide +kernel
  have helse : ¬Parse.StartsWith .elseWord (Item.tokens (scan second)) := by
    rintro ⟨t, ht, his⟩
    rw [ht] at hstart
    simp [his] at hstart
  have hlines : lineBreaks first.toList + 1 = 2 := by decide +kernel
  refine ⟨hfirst, by decide +kernel, ?_⟩
  rw [← hlines]
  exact read_composes session first second hfirst helse

end Session

end Lox

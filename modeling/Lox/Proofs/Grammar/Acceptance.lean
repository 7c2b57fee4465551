import Lox.Proofs.Grammar.Completeness
import Lox.Token.Scan

/-!
# What reading tokens accepts

Tokens are read without an error exactly if they derive a program, and the
trees are then those of the derivation in which each `else` belongs to the
nearest `if`. The rule of the conditional statement as written allows more
derivations, but no more programs: where an `else` was given to an outer `if`,
the same tokens derive a statement in which the inner one has it.
-/

namespace Lox.Grammar

/-- A derivation in which each `else` belongs to the nearest `if` is one that
follows the rules as written. -/
theorem Sentence.Derives.of_nearest {p : Sentence} {n m : Nat} {ts : List Token}
    (h : p.Derives true n ts m) : p.Derives false n ts m := by
  induction h with
  | statement _ ih => exact .statement ih
  | varDecl hv h => exact .varDecl hv h
  | funDecl hw _ ih => exact .funDecl hw ih
  | classDecl hw ht hp hl _ hr ih => exact .classDecl hw ht hp hl ih hr
  | noMethods => exact .noMethods
  | methods _ _ ihf ihfs => exact .methods ihf ihfs
  | functionWithout ht hl hr hb _ hc ih => exact .functionWithout ht hl hr hb ih hc
  | functionWith ht hl hps hmax hr hb _ hc ih => exact .functionWith ht hl hps hmax hr hb ih hc
  | noDeclarations => exact .noDeclarations
  | declarations _ _ ihs ihss => exact .declarations ihs ihss
  | expression h => exact .expression h
  | print hw h => exact .print hw h
  | result hw h hs => exact .result hw h hs
  | block hl _ hr ih => exact .block hl ih hr
  | branch hw hl he hr _ ih => exact .branch hw hl he hr ih
  | branchElse hw hl he hr _ _ hq _ ihy ihn => exact .branchElse hw hl he hr ihy nofun hq ihn
  | loop hw hl he hr _ ih => exact .loop hw hl he hr ih
  | forLoop hw hl hf hc hs hi hr _ ih => exact .forLoop hw hl hf hc hs hi hr ih

/-- An open statement takes an `else` and the statement behind it. -/
theorem Sentence.Derives.attach_else {s no : Stmt} {o : Bool} {n m k : Nat} {ts vs : List Token}
    {q : Token} (hs : (Sentence.statement true s).Derives true n ts m) (hq : q.is .elseWord)
    (hno : (Sentence.statement o no).Derives true m vs k) :
    ∃ o' s', (Sentence.statement o' s').Derives true n (ts ++ q :: vs) k := by
  generalize hp : Sentence.statement true s = p at hs
  induction hs generalizing s with
  | @branch w l r e o' yes ts us _ _ _ hw hl he hr hy ih =>
    have hsplit : w :: l :: (ts ++ r :: us) ++ q :: vs =
        w :: l :: (ts ++ r :: (us ++ q :: vs)) := by simp
    rw [hsplit]
    cases o' with
    | false => exact ⟨o, _, .branchElse hw hl he hr hy (fun _ => rfl) hq hno⟩
    | true =>
      obtain ⟨o', yes', hyes⟩ := ih hno rfl
      exact ⟨true, _, .branch hw hl he hr hyes⟩
  | branchElse hw hl he hr hy hopen hq' _ _ ih =>
    cases hp
    obtain ⟨o', no', hno'⟩ := ih hno rfl
    have hboth := Sentence.Derives.branchElse hw hl he hr hy hopen hq' hno'
    exact ⟨o', _, by simpa using hboth⟩
  | loop hw hl he hr _ ih =>
    cases hp
    obtain ⟨o', body', hbody⟩ := ih hno rfl
    have hloop := Sentence.Derives.loop hw hl he hr hbody
    exact ⟨o', _, by simpa using hloop⟩
  | forLoop hw hl hf hc hs hi hr _ ih =>
    cases hp
    obtain ⟨o', body', hbody⟩ := ih hno rfl
    have hloop := Sentence.Derives.forLoop hw hl hf hc hs hi hr hbody
    exact ⟨o', _, by simpa using hloop⟩
  | _ => cases hp

/-- The tokens of a sentence are those of one of its kind in which each `else`
belongs to the nearest `if`. -/
def Sentence.HasNearest : Sentence → Nat → List Token → Nat → Prop
  | .declaration _, n, ts, m => ∃ s, (Sentence.declaration s).Derives true n ts m
  | .declarations _, n, ts, m => ∃ ss, (Sentence.declarations ss).Derives true n ts m
  | .statement _ _, n, ts, m => ∃ o s, (Sentence.statement o s).Derives true n ts m
  | .function _, n, ts, m => ∃ f, (Sentence.function f).Derives true n ts m
  | .functions _, n, ts, m => ∃ fs, (Sentence.functions fs).Derives true n ts m

/-- A sentence that is derived by the grammar as written can be derived with every else at
the nearest if. -/
theorem Sentence.Derives.hasNearest {p : Sentence} {n m : Nat} {ts : List Token}
    (h : p.Derives false n ts m) : p.HasNearest n ts m := by
  induction h with
  | statement _ ih =>
    obtain ⟨o, s, hs⟩ := ih
    exact ⟨s, .statement hs⟩
  | varDecl hv h => exact ⟨_, .varDecl hv h⟩
  | funDecl hw _ ih =>
    obtain ⟨f, hf⟩ := ih
    exact ⟨_, .funDecl hw hf⟩
  | classDecl hw ht hp hl _ hr ih =>
    obtain ⟨fs, hfs⟩ := ih
    exact ⟨_, .classDecl hw ht hp hl hfs hr⟩
  | noMethods => exact ⟨_, .noMethods⟩
  | methods _ _ ihf ihfs =>
    obtain ⟨f, hf⟩ := ihf
    obtain ⟨fs, hfs⟩ := ihfs
    exact ⟨_, .methods hf hfs⟩
  | functionWithout ht hl hr hb _ hc ih =>
    obtain ⟨ss, hss⟩ := ih
    exact ⟨_, .functionWithout ht hl hr hb hss hc⟩
  | functionWith ht hl hps hmax hr hb _ hc ih =>
    obtain ⟨ss, hss⟩ := ih
    exact ⟨_, .functionWith ht hl hps hmax hr hb hss hc⟩
  | noDeclarations => exact ⟨_, .noDeclarations⟩
  | declarations _ _ ihs ihss =>
    obtain ⟨s, hs⟩ := ihs
    obtain ⟨ss, hss⟩ := ihss
    exact ⟨_, .declarations hs hss⟩
  | expression h => exact ⟨_, _, .expression h⟩
  | print hw h => exact ⟨_, _, .print hw h⟩
  | result hw h hs => exact ⟨_, _, .result hw h hs⟩
  | block hl _ hr ih =>
    obtain ⟨ss, hss⟩ := ih
    exact ⟨_, _, .block hl hss hr⟩
  | branch hw hl he hr _ ih =>
    obtain ⟨o, yes, hyes⟩ := ih
    exact ⟨_, _, .branch hw hl he hr hyes⟩
  | @branchElse w l r q e _ _ _ _ ts us vs _ _ _ _ hw hl he hr _ _ hq _ ihy ihn =>
    obtain ⟨o, yes, hyes⟩ := ihy
    obtain ⟨o', no, hno⟩ := ihn
    cases o with
    | false => exact ⟨o', _, .branchElse hw hl he hr hyes (fun _ => rfl) hq hno⟩
    | true =>
      -- The first branch is open, so the `else` moves into it.
      obtain ⟨o', yes', hyes'⟩ := hyes.attach_else hq hno
      exact ⟨true, _, .branch hw hl he hr hyes'⟩
  | loop hw hl he hr _ ih =>
    obtain ⟨o, body, hbody⟩ := ih
    exact ⟨o, _, .loop hw hl he hr hbody⟩
  | forLoop hw hl hf hc hs hi hr _ ih =>
    obtain ⟨o, body, hbody⟩ := ih
    exact ⟨o, _, .forLoop hw hl hf hc hs hi hr hbody⟩

end Lox.Grammar

namespace Lox

open Grammar

/-- The cursor at tokens that one end of input closes. -/
theorem Cursor.ofTokens_append_finish {ts : List Token} {f : Token}
    (hts : ∀ t ∈ ts, t.isFinish = false) (hf : f.isFinish) (n : Nat) :
    Cursor.ofTokens (ts ++ [f]) n = ⟨ts, f, n, #[]⟩ := by
  have htake : (ts ++ [f]).takeWhile (!·.isFinish) = ts := by
    rw [List.takeWhile_append_of_pos (fun t ht => by rw [hts t ht]; rfl)]
    simp [hf]
  have hfind : (ts ++ [f]).find? (·.isFinish) = some f := by
    rw [List.find?_append, List.find?_eq_none.2 fun t ht => by simp [hts t ht]]
    simp [hf]
  simp only [Cursor.ofTokens, htake, hfind, Option.getD_some]

/-- Tokens that derive a program are read as that program. -/
theorem parseTokens_of_derives {ts : List Token} {f : Token} {n m : Nat} {ss : List Stmt}
    (hts : ∀ t ∈ ts, t.isFinish = false) (hf : f.isFinish)
    (h : (Sentence.declarations ss).Derives true n ts m) :
    parseTokens (ts ++ [f]) n = ⟨ss, [], m⟩ := by
  rw [parseTokens, Cursor.ofTokens_append_finish hts hf, Parse.program_ok h]

/-- What was read without an error is derived, and nothing is left. -/
theorem derives_of_errors_eq_nil {ts : List Token} {f : Token} {n : Nat}
    (hts : ∀ t ∈ ts, t.isFinish = false) (hf : f.isFinish)
    (h : (parseTokens (ts ++ [f]) n).errors = []) :
    (Sentence.declarations (parseTokens (ts ++ [f]) n).statements).Derives true n ts
      (parseTokens (ts ++ [f]) n).nextId := by
  have hread := Parse.reads_program (Cursor.ofTokens (ts ++ [f]) n)
  rw [parseTokens, Cursor.ofTokens_append_finish hts hf] at *
  specialize hread hf
  revert h hread
  cases Parse.program ⟨ts, f, n, #[]⟩ with
  | error e after =>
    intro h
    simp [Cursor.report] at h
  | ok ss after =>
    intro h hread
    obtain ⟨-, hread⟩ := hread
    have hsize : after.errors.size = 0 := by
      rw [← Array.length_toList]
      exact List.length_eq_zero_iff.2 h
    obtain ⟨us, hus, hss, hrest⟩ := hread hsize
    rw [hrest, List.append_nil] at hus
    subst hus
    exact hss

/-- Tokens before one end of input are read without an error exactly if they
derive a program by the rules as written. Then there is one derivation in which
each `else` belongs to the nearest `if`, what was read is its tree, and no token
is left. -/
theorem parseTokens_accepts_exactly (ts : List Token) (f : Token) (n : Nat)
    (hts : ∀ t ∈ ts, t.isFinish = false) (hf : f.isFinish) :
    ((parseTokens (ts ++ [f]) n).errors = [] ↔
      ∃ ss m, (Sentence.declarations ss).Derives false n ts m) ∧
    ((parseTokens (ts ++ [f]) n).errors = [] → ∃ ss m,
      (Sentence.declarations ss).Derives true n ts m ∧
      (∀ ss' m', (Sentence.declarations ss').Derives true n ts m' → ss' = ss ∧ m' = m) ∧
      parseTokens (ts ++ [f]) n = ⟨ss, [], m⟩ ∧
      Parse.program (Cursor.ofTokens (ts ++ [f]) n) = .ok ss ⟨[], f, m, #[]⟩) := by
  refine ⟨⟨fun h => ?_, fun h => ?_⟩, fun h => ?_⟩
  · exact ⟨_, _, (derives_of_errors_eq_nil hts hf h).of_nearest⟩
  · obtain ⟨ss, m, hss⟩ := h
    obtain ⟨ss', hss'⟩ := hss.hasNearest
    rw [parseTokens_of_derives hts hf hss']
  · have hderives := derives_of_errors_eq_nil hts hf h
    refine ⟨_, _, hderives, fun ss' m' h' => ?_, parseTokens_of_derives hts hf hderives, ?_⟩
    · rw [parseTokens_of_derives hts hf h']
      exact ⟨rfl, rfl⟩
    · rw [Cursor.ofTokens_append_finish hts hf]
      exact Parse.program_ok hderives

/-- Two choices and one `else`, with an assignment to a property and a call. -/
theorem parseTokens_accepts_exactly_nested :
    let ts := (Item.tokens (scan "if (a) if (b) c.d = -1 + 2 * e; else f(1, g).h;")).dropLast
    (∀ t ∈ ts, t.isFinish = false) ∧ (parseTokens (ts ++ [Token.finishAt 1]) 0).errors = [] ∧
      ∃ ss m, (Sentence.declarations ss).Derives true 0 ts m := by
  have hts : ∀ t ∈ (Item.tokens
      (scan "if (a) if (b) c.d = -1 + 2 * e; else f(1, g).h;")).dropLast, t.isFinish = false := by
    decide +kernel
  have hread := parseTokens_accepts_exactly _ (Token.finishAt 1) 0 hts rfl
  have herrors : (parseTokens ((Item.tokens
      (scan "if (a) if (b) c.d = -1 + 2 * e; else f(1, g).h;")).dropLast ++
        [Token.finishAt 1]) 0).errors = [] := by
    decide +kernel
  obtain ⟨ss, m, hss, -⟩ := hread.2 herrors
  exact ⟨hts, herrors, ss, m, hss⟩

end Lox

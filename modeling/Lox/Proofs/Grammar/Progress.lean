import Lox.Proofs.Grammar.Completeness

/-!
# Each declaration takes a token

Where tokens are ahead, reading a declaration takes at least one of them, whether it
yields a statement or fails and is dropped: a statement starts with a keyword or ends
with a semicolon, and after a failure one token at least is skipped. So the number of
declarations to read is no more than the number of tokens ahead, and no bound on it is
ever reached.
-/

namespace Lox.Parse

open Grammar

section Takes

variable {α β : Type} {p : Parse α} {f : α → Parse β}
  {R : α → Nat → List Token → Nat → List Token → Prop}

/-- What a parser that yields something leaves is no longer than what was ahead. -/
theorem Reads.ahead_le (hp : Reads p R) {c d : Cursor} {a : α} (hc : c.finish.isFinish)
    (h : p c = .ok a d) : d.ahead.length ≤ c.ahead.length := by
  have hr := hp c hc
  rw [h] at hr
  exact hr.1.ahead.length_le

/-- What a parser that fails leaves is no longer than what was ahead. -/
theorem Reads.ahead_le_of_error (hp : Reads p R) {c d : Cursor} {e : SyntaxError}
    (hc : c.finish.isFinish) (h : p c = .error e d) : d.ahead.length ≤ c.ahead.length := by
  have hr := hp c hc
  rw [h] at hr
  exact hr.ahead.length_le

/-- The token at the end of the input stays. -/
theorem Reads.finish_eq (hp : Reads p R) {c d : Cursor} {a : α} (hc : c.finish.isFinish)
    (h : p c = .ok a d) : d.finish = c.finish := by
  have hr := hp c hc
  rw [h] at hr
  exact hr.1.finish

/-- A parser that takes a token whenever it yields something. -/
def Takes (p : Parse α) : Prop :=
  ∀ c d a, c.finish.isFinish → p c = .ok a d → d.ahead.length < c.ahead.length

/-- Of two parsers, one that takes a token is enough: here it is the second one. -/
theorem Takes.bind_right (hp : Reads p R) (hf : ∀ a, Takes (f a)) : Takes (p >>= f) := by
  intro c d b hc h
  obtain ⟨a, s, hs, hd⟩ := bind_eq_ok h
  have hle := hp.ahead_le hc hs
  have hlt := hf a s d b (by rw [hp.finish_eq hc hs]; exact hc) hd
  omega

/-- Of two parsers, one that takes a token is enough: here it is the first one. -/
theorem Takes.bind_left {S : α → β → Nat → List Token → Nat → List Token → Prop} (hp : Takes p)
    (hread : Reads p R) (hf : ∀ a, Reads (f a) (S a)) : Takes (p >>= f) := by
  intro c d b hc h
  obtain ⟨a, s, hs, hd⟩ := bind_eq_ok h
  have hlt := hp c s a hc hs
  have hle := (hf a).ahead_le (by rw [hread.finish_eq hc hs]; exact hc) hd
  omega

/-- A token that has to be there is taken. -/
theorem takes_expectMap (select : Token → Option α) (what : String) :
    Takes (expectMap select what) := by
  intro c d a hc h
  obtain ⟨found, s, hs, hd⟩ := bind_eq_ok h
  obtain ⟨ahead, finish, n, errs⟩ := c
  cases ahead with
  | nil =>
    cases hs
    cases hd
  | cons t rest =>
    cases hselect : select t with
    | none =>
      rw [acceptMap_none fun t' ht' => by cases ht'; exact hselect] at hs
      cases hs
      cases hd
    | some b =>
      rw [acceptMap_cons hselect] at hs
      cases hs
      cases hd
      exact Nat.lt_succ_self _

/-- An expression may take nothing when it fails, but the semicolon behind it is a token. -/
theorem takes_expressionStatement : Takes expressionStatement := by
  refine Takes.bind_right reads_expression fun e c d s hc h => ?_
  obtain ⟨t, s, ht, hpure⟩ := bind_eq_ok h
  cases hpure
  exact takes_expectMap _ _ c _ t hc ht

end Takes

/-! ### Declarations -/

/-- A parser of declarations that never fails, and that takes a token where one is. -/
def Progresses (declaration : Parse (Option Stmt)) : Prop :=
  ∀ c : Cursor, c.finish.isFinish → c.ahead ≠ [] →
    ∃ o d, declaration c = .ok o d ∧ d.ahead.length < c.ahead.length

section Declarations

variable {declaration : Parse (Option Stmt)} {statement : Parse Stmt} {t f : Token}
  {rest : List Token} {n : Nat} {errs : Array SyntaxError}

/-- A function takes its name at least. -/
theorem takes_function (hd : Reads declaration Declared) (kind : String) :
    Takes (function declaration kind) :=
  (takes_expectMap _ _).bind_left (reads_expectName _) fun _ =>
    (reads_expect .leftParen _).bind fun _ => reads_parameters.bind fun _ =>
    (reads_expect .rightParen _).bind fun _ => (reads_expect .leftBrace _).bind fun _ =>
    (reads_block hd).bind fun _ => reads_pure _

/-- What is left after a statement that starts with the token `t`. -/
theorem statementWith_takes (hd : Reads declaration Declared) (hs : Reads statement Stated)
    (hf : f.isFinish) {s : Stmt} {d : Cursor}
    (h : statementWith declaration statement ⟨t :: rest, f, n, errs⟩ = .ok s d) :
    d.ahead.length ≤ rest.length := by
  have hstart : (Cursor.mk rest f n errs).finish.isFinish := hf
  rw [statementWith_cons] at h
  split at h
  · exact (reads_forStatement hs).ahead_le hstart h
  · exact (reads_ifStatement hs).ahead_le hstart h
  · exact (reads_whileStatement hs).ahead_le hstart h
  · exact (reads_returnStatement t.line).ahead_le hstart h
  · exact (reads_plain _ Stmt.print).ahead_le hstart h
  · exact ((reads_block hd).map Stmt.block).ahead_le hstart h
  · exact Nat.le_of_lt_succ (takes_expressionStatement _ d s hf h)

/-- A declaration that is yielded has taken a token: it starts with a keyword or is a
statement. -/
theorem declarationWith_takes (hd : Reads declaration Declared) (hs : Reads statement Stated)
    (hf : f.isFinish) {s : Stmt} {d : Cursor}
    (h : declarationWith declaration statement ⟨t :: rest, f, n, errs⟩ = .ok s d) :
    d.ahead.length ≤ rest.length := by
  have hstart : (Cursor.mk rest f n errs).finish.isFinish := hf
  rw [declarationWith_cons] at h
  split at h
  · exact (reads_classDeclaration hd).ahead_le hstart h
  · exact ((reads_function hd _).map Stmt.funDecl).ahead_le hstart h
  · exact reads_varDeclaration.ahead_le hstart h
  · exact statementWith_takes hd hs hf h

/-- At least one token is skipped where there is one. -/
theorem length_synchronize_lt {ts : List Token} (h : ts ≠ []) :
    (synchronize ts).length < ts.length := by
  cases ts with
  | nil => exact absurd rfl h
  | cons t rest => exact Nat.lt_succ_of_le (skipToBoundary_suffix t rest).length_le

/-- A parser that goes on after its failures makes progress if it takes a token whenever
it yields something: after a failure a token is skipped, unless none is left. -/
theorem progresses_recover {p : Parse Stmt} {R : Stmt → Nat → List Token → Nat → List Token → Prop}
    (hp : Reads p R) (htakes : ∀ c d s, c.finish.isFinish → c.ahead ≠ [] → p c = .ok s d →
      d.ahead.length < c.ahead.length) : Progresses (recover p) := by
  intro c hc hahead
  unfold recover
  cases h : p c with
  | ok s d => exact ⟨some s, d, rfl, htakes c d s hc hahead h⟩
  | error e d =>
    refine ⟨none, _, rfl, ?_⟩
    have hle := hp.ahead_le_of_error hc h
    by_cases hnil : d.ahead = []
    · have hpos : 0 < c.ahead.length := List.length_pos_iff.2 hahead
      simpa [hnil, synchronize] using hpos
    · exact Nat.lt_of_lt_of_le (length_synchronize_lt hnil) hle

/-- A declaration takes a token, however deep it may nest. -/
theorem progresses_declarationWithin (bound : Nat) : Progresses (declarationWithin bound) := by
  cases bound with
  | zero =>
    rw [declarationWithin]
    exact progresses_recover (reads_fail _ Stated) fun c d s _ _ h => by cases h
  | succ bound =>
    rw [declarationWithin]
    obtain ⟨hs, hd⟩ := reads_within bound
    refine progresses_recover (reads_declarationWith hd hs) fun c d s hc hahead h => ?_
    obtain ⟨ahead, finish, n, errs⟩ := c
    cases ahead with
    | nil => exact absurd rfl hahead
    | cons t rest => exact Nat.lt_succ_of_le (declarationWith_takes hd hs hc h)

end Declarations

/-- A declaration takes a token where one is ahead. -/
theorem progresses_declaration : Progresses declaration := fun c =>
  progresses_declarationWithin c.ahead.length c

/-- The token at the end of the input stays when a declaration is read or dropped. -/
theorem finish_of_declaration {c d : Cursor} {o : Option Stmt} (hc : c.finish.isFinish)
    (h : declaration c = .ok o d) : d.finish.isFinish := by
  rw [reads_declaration.finish_eq hc h]
  exact hc

/-- Reading declarations as often as there are tokens ahead comes to the end. -/
theorem programList_ends {c : Cursor} {fuel : Nat} (hc : c.finish.isFinish)
    (hfuel : c.ahead.length ≤ fuel) :
    ∃ ss d, programList fuel c = .ok ss d ∧ d.ahead = [] := by
  induction fuel generalizing c with
  | zero => exact ⟨[], c, rfl, List.length_eq_zero_iff.1 (by omega)⟩
  | succ fuel ih =>
    rw [programList]
    by_cases hahead : c.ahead = []
    · refine ⟨[], c, (bind_of_ok rfl).trans ?_, hahead⟩
      rw [hahead]
      rfl
    · obtain ⟨o, d, hd, hlt⟩ := progresses_declaration c hc hahead
      obtain ⟨ss, d', hss, hend⟩ := ih (finish_of_declaration hc hd) (by omega)
      refine ⟨o.toList ++ ss, d', (bind_of_ok rfl).trans ?_, hend⟩
      rw [if_neg (by simpa using hahead), bind_of_ok hd, bind_of_ok hss]
      rfl

/-- Reading a program never fails, and leaves nothing. -/
theorem program_ends {c : Cursor} (hc : c.finish.isFinish) :
    ∃ ss d, program c = .ok ss d ∧ d.ahead = [] :=
  programList_ends hc (Nat.le_refl _)

/-- Where no token is ahead, there is no statement left of the program. -/
theorem programList_nil (fuel : Nat) {c : Cursor} (h : c.ahead = []) :
    programList fuel c = .ok [] c := by
  cases fuel with
  | zero => rfl
  | succ fuel =>
    refine (bind_of_ok rfl).trans ?_
    rw [h]
    rfl

/-- How often declarations may be read does not matter, from the number of tokens on. -/
theorem programList_congr {c : Cursor} {fuel fuel' : Nat} (hc : c.finish.isFinish)
    (hfuel : c.ahead.length ≤ fuel) (hfuel' : c.ahead.length ≤ fuel') :
    programList fuel c = programList fuel' c := by
  induction fuel generalizing c fuel' with
  | zero =>
    have hahead : c.ahead = [] := List.length_eq_zero_iff.1 (by omega)
    rw [programList_nil 0 hahead, programList_nil fuel' hahead]
  | succ fuel ih =>
    by_cases hahead : c.ahead = []
    · rw [programList_nil _ hahead, programList_nil fuel' hahead]
    · have hpos : 0 < c.ahead.length := List.length_pos_iff.2 hahead
      obtain ⟨fuel', rfl⟩ : ∃ k, fuel' = k + 1 := ⟨fuel' - 1, by omega⟩
      obtain ⟨o, d, hd, hlt⟩ := progresses_declaration c hc hahead
      have hstep : ∀ k, programList (k + 1) c =
          (do return o.toList ++ (← programList k) : Parse (List Stmt)) d := by
        intro k
        rw [programList]
        refine (bind_of_ok rfl).trans ?_
        rw [if_neg (by simpa using hahead), bind_of_ok hd]
      have hrest : programList fuel d = programList fuel' d :=
        ih (finish_of_declaration hc hd) (by omega) (by omega)
      rw [hstep, hstep, bind_apply, bind_apply, hrest]

end Lox.Parse

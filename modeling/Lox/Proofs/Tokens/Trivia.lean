import Lox.Proofs.Source
import Lox.Proofs.Tokens.Lexicon

/-!
# Blanks and comments between tokens

A token of the lexicon is read as that token wherever the input ends behind it or a
blank follows. Blanks, and comments that a line break closes, report nothing. So the
lexemes of a source can be written down again with other blanks and comments between
them, and they are read as the same tokens on other lines.
-/

namespace Lox

open Lexicon

/-! ### What stands between tokens -/

/-- Blanks, and comments up to the line break that closes them. -/
inductive IsTrivia : List Char → Prop where
  /-- There may be nothing. -/
  | nil : IsTrivia []
  /-- A blank goes before trivia. -/
  | blank {c : Char} {rest : List Char} (hc : c ∈ [' ', '\r', '\t', '\n']) (h : IsTrivia rest) :
      IsTrivia (c :: rest)
  /-- A comment and its line break go before trivia. -/
  | comment {body rest : List Char} (hbody : '\n' ∉ body) (h : IsTrivia rest) :
      IsTrivia ('/' :: '/' :: (body ++ '\n' :: rest))

/-- A text that can stand between two tokens. -/
structure Separator where
  /-- The blank it starts with. -/
  first : Char
  /-- What follows the first blank. -/
  more : List Char
  /-- It starts with a blank. -/
  isBlank : first ∈ [' ', '\r', '\t', '\n']
  /-- It goes on with blanks and comments. -/
  isTrivia : IsTrivia more

namespace Separator

/-- The characters of a separator. -/
def text (separator : Separator) : List Char := separator.first :: separator.more

/-- Nothing but a space. -/
def space : Separator := ⟨' ', [], by decide, .nil⟩

/-- A space and a comment to the end of the line. -/
def remark (body : String) (h : '\n' ∉ body.toList) : Separator :=
  ⟨' ', '/' :: '/' :: (body.toList ++ ['\n']), by decide, .comment h .nil⟩

/-- A separator is made of blanks and comments. -/
theorem isTrivia_text (separator : Separator) : IsTrivia separator.text :=
  .blank separator.isBlank separator.isTrivia

end Separator

/-- Texts with a separator after each but the last. -/
def joinWith (separators : Nat → Separator) : List String → List Char
  | [] => []
  | [lexeme] => lexeme.toList
  | lexeme :: lexemes =>
    lexeme.toList ++ ((separators 0).text ++ joinWith (fun n => separators (n + 1)) lexemes)

/-- A source made of lexemes with separators between them. -/
def respace (separators : Nat → Separator) (lexemes : List String) : String :=
  String.ofList (joinWith separators lexemes)

/-- The tokens of a source before the end of the input. -/
def words (source : String) : List Token :=
  (Item.tokens (scan source)).filter fun token => !token.isFinish

/-- What a token is and how it is written, wherever it stands. -/
def Token.content (token : Token) : Token.Kind × String := (token.kind, token.lexeme)

/-! ### Tokens before a blank -/

/-- The end of the input, or a blank and whatever follows it. -/
def EndsToken (rest : List Char) : Prop := ∀ c ∈ rest.head?, c ∈ [' ', '\r', '\t', '\n']

section EndsToken

variable {rest : List Char}

/-- A run of characters that are no blanks ends where a token ends. -/
theorem EndsToken.takeWhile {p : Char → Bool} {run : List Char} (h : EndsToken rest)
    (hp : [' ', '\r', '\t', '\n'].all (!p ·) = true) (hrun : ∀ d ∈ run, p d = true) :
    (run ++ rest).takeWhile p = run ∧ (run ++ rest).dropWhile p = rest := by
  rw [List.takeWhile_append_of_pos hrun, List.dropWhile_append_of_pos hrun]
  cases rest with
  | nil => simp
  | cons b tail =>
    have hb : p b = false := by
      have hblank := List.all_eq_true.1 hp b (h b rfl)
      simpa using hblank
    simp [hb]

/-- What stands behind a token does not start with a character that is no blank. -/
theorem EndsToken.head?_ne (h : EndsToken rest) {c : Char} (hc : c ∉ [' ', '\r', '\t', '\n']) :
    rest.head? ≠ some c :=
  fun hhead => hc (h c hhead)

/-- A string is read to its closing quote, whatever follows. -/
theorem stringPiece_closed {contents : List Char} (h : '"' ∉ contents) (rest : List Char) :
    stringPiece (contents ++ '"' :: rest) =
      (.token (.string (String.ofList contents)), contents.length + 1) := by
  have htake : (contents ++ '"' :: rest).takeWhile (· ≠ '"') = contents := by
    rw [List.takeWhile_append_of_pos]
    · simp
    · intro d hd
      have hne : d ≠ '"' := fun heq => h (heq ▸ hd)
      simpa using hne
  have hclosed : contents.length < (contents ++ '"' :: rest).length := by
    simp
  unfold stringPiece
  rw [htake]
  dsimp only
  rw [if_pos hclosed]

/-- A whole number is read as it is written, since no blank goes on a number. -/
theorem numberPiece_whole {c : Char} {more : List Char} (h : EndsToken rest)
    (hmore : ∀ d ∈ more, d.isDigit = true) :
    numberPiece c (more ++ rest) =
      (.token (.number (numberOfDigits (c :: more) [])), more.length) := by
  obtain ⟨htake, hdrop⟩ := h.takeWhile (p := Char.isDigit) (by decide) hmore
  have hpoint : fractionDigits rest = [] := by
    have hhead : rest.head? ≠ some '.' := h.head?_ne (by decide)
    unfold fractionDigits
    split
    · exact absurd rfl hhead
    · rfl
  unfold numberPiece
  rw [htake, hdrop, hpoint]
  rfl

/-- A number with a fraction is read with its fraction. -/
theorem numberPiece_fraction {c d : Char} {whole digits : List Char} (h : EndsToken rest)
    (hwhole : ∀ e ∈ whole, e.isDigit = true) (hdigits : ∀ e ∈ d :: digits, e.isDigit = true) :
    numberPiece c (whole ++ '.' :: d :: digits ++ rest) =
      (.token (.number (numberOfDigits (c :: whole) (d :: digits))),
        (whole ++ '.' :: d :: digits).length) := by
  have hpoint : Char.isDigit '.' = false := by decide
  have htake : (whole ++ '.' :: d :: digits ++ rest).takeWhile Char.isDigit = whole := by
    rw [List.append_assoc, List.takeWhile_append_of_pos hwhole]
    simp [hpoint]
  have hdrop : (whole ++ '.' :: d :: digits ++ rest).dropWhile Char.isDigit =
      '.' :: (d :: digits ++ rest) := by
    rw [List.append_assoc, List.dropWhile_append_of_pos hwhole]
    simp [hpoint]
  have hfraction : fractionDigits ('.' :: (d :: digits ++ rest)) = d :: digits :=
    (h.takeWhile (by decide) hdigits).1
  have hlength : (whole ++ '.' :: d :: digits).length =
      whole.length + 1 + (d :: digits).length := by
    simp only [List.length_append, List.length_cons]
    omega
  unfold numberPiece
  rw [htake, hdrop, hfraction, hlength]
  rfl

/-- A token of the lexicon is the first piece of every text in which it ends where a
token can end. -/
theorem firstPiece_token {c : Char} {more : List Char} {kind : Token.Kind}
    (hallows : Allows c (.token kind) more) (h : EndsToken rest) :
    firstPiece c (more ++ rest) = (.token kind, more.length) := by
  rw [firstPiece_eq]
  unfold Allows at hallows
  cases hc : classOf c with
  | blank =>
    rw [hc] at hallows
    cases hallows.1
  | slash =>
    rw [hc] at hallows
    obtain ⟨hcomment, -⟩ | ⟨hkind, rfl⟩ := hallows
    · cases hcomment
    · cases hkind
      have hnext : rest.head? ≠ some '/' := h.head?_ne (by decide)
      simp [hnext]
  | quote =>
    rw [hc] at hallows
    obtain ⟨contents, hkind, rfl, hclosed⟩ := hallows
    cases hkind
    have hstring := stringPiece_closed hclosed rest
    simpa using hstring
  | digit =>
    rw [hc] at hallows
    obtain ⟨hkind, hmore⟩ | ⟨whole, d, digits, hkind, rfl, hwhole, hdigits⟩ := hallows
    · cases hkind
      exact numberPiece_whole h hmore
    · cases hkind
      exact numberPiece_fraction h hwhole hdigits
  | letter =>
    rw [hc] at hallows
    obtain ⟨hkind, hparts⟩ := hallows
    have htake := (h.takeWhile (p := isWordPart) (by decide) hparts).1
    cases hkind
    dsimp only
    unfold wordPiece
    rw [htake]
    rfl
  | sign symbol =>
    rw [hc] at hallows
    obtain ⟨hkind, rfl⟩ := hallows
    cases hkind
    rfl
  | signOrEqual single double =>
    rw [hc] at hallows
    have hnext : rest.head? ≠ some '=' := h.head?_ne (by decide)
    obtain ⟨hkind, rfl⟩ | ⟨hkind, rfl⟩ := hallows
    · cases hkind
      simp [hnext]
    · cases hkind
      rfl
  | nothing =>
    rw [hc] at hallows
    exact hallows.elim

end EndsToken

/-! ### Reading token by token -/

/-- A token of the lexicon is reported, and reading goes on behind it. -/
theorem scanFrom_token {kind : Token.Kind} {text rest : List Char}
    (hspells : Spells (.token kind) text) (h : EndsToken rest) (line : Nat) :
    scanFrom line (text ++ rest) =
      .token ⟨kind, String.ofList text, line + lineBreaks text⟩ ::
        scanFrom (line + lineBreaks text) rest := by
  obtain ⟨c, more, rfl, hallows⟩ := hspells.allows
  have hfirst := firstPiece_token hallows h
  rw [List.cons_append, scanFrom_cons, hfirst]
  dsimp only
  rw [List.take_left, List.drop_left]
  rfl

/-- A comment is one piece up to its line break. -/
theorem firstPiece_comment {body : List Char} (h : '\n' ∉ body) (rest : List Char) :
    firstPiece '/' ('/' :: (body ++ '\n' :: rest)) = (.trivia, ('/' :: body).length) := by
  have htake : ('/' :: (body ++ '\n' :: rest)).takeWhile (· ≠ '\n') = '/' :: body := by
    rw [← List.cons_append, List.takeWhile_append_of_pos]
    · simp
    · intro d hd
      have hne : d ≠ '\n' := by
        rintro rfl
        simp [h] at hd
      simpa using hne
  rw [firstPiece_eq]
  change (if _ then (Piece.trivia, (('/' :: (body ++ '\n' :: rest)).takeWhile (· ≠ '\n')).length)
    else _) = _
  rw [htake]
  rfl

/-- A blank reports nothing, and a line break counts as a line. -/
theorem scanFrom_blank {c : Char} (hc : c ∈ [' ', '\r', '\t', '\n']) (line : Nat)
    (rest : List Char) : scanFrom line (c :: rest) = scanFrom (line + lineBreaks [c]) rest := by
  have hfirst : firstPiece c rest = (.trivia, 0) := by
    rw [firstPiece_eq, classOf_blank hc]
  rw [scanFrom_cons, hfirst]
  rfl

/-- Blanks and comments report nothing. -/
theorem IsTrivia.scanFrom {text : List Char} (h : IsTrivia text) (line : Nat)
    (rest : List Char) :
    Lox.scanFrom line (text ++ rest) = Lox.scanFrom (line + lineBreaks text) rest := by
  induction h generalizing line with
  | nil => rfl
  | @blank c more hc _ ih =>
    have hlines : lineBreaks ([c] ++ more) = lineBreaks [c] + lineBreaks more :=
      List.count_append
    rw [List.cons_append, scanFrom_blank hc, ih, Nat.add_assoc, ← hlines]
    rfl
  | @comment body more hbody _ ih =>
    have hnone : lineBreaks ('/' :: '/' :: body) = 0 := by
      rw [lineBreaks, List.count_eq_zero]
      simp [hbody]
    have hlines : lineBreaks ('/' :: '/' :: (body ++ '\n' :: more)) = 1 + lineBreaks more := by
      unfold lineBreaks at hnone ⊢
      rw [← List.cons_append, ← List.cons_append, List.count_append, List.count_cons_self, hnone]
      omega
    have hfirst := firstPiece_comment hbody (more ++ rest)
    have htext : '/' :: '/' :: (body ++ '\n' :: more) ++ rest =
        '/' :: (('/' :: body) ++ '\n' :: (more ++ rest)) := by
      simp
    rw [htext, scanFrom_cons, List.cons_append, hfirst]
    dsimp only
    rw [← List.cons_append, List.take_left, List.drop_left, hnone]
    rw [Piece.item?, Option.toList_none, List.nil_append, scanFrom_blank (by decide), ih, hlines,
      ← Nat.add_assoc]
    rfl

/-- What follows a token in a text of lexemes. -/
theorem endsToken_text (separator : Separator) (rest : List Char) :
    EndsToken (separator.text ++ rest) := by
  intro c hc
  cases hc
  exact separator.isBlank

/-- Lexemes are read as the tokens they belong to, whatever stands between them. -/
theorem scanFrom_joinWith {ts : List Token}
    (h : ∀ t ∈ ts, Spells (.token t.kind) t.lexeme.toList) (separators : Nat → Separator)
    (line : Nat) :
    ∃ (us : List Token) (last : Nat), scanFrom line (joinWith separators (ts.map Token.lexeme)) =
        us.map .token ++ [.token (Token.finishAt last)] ∧
      us.map Token.content = ts.map Token.content := by
  induction ts generalizing separators line with
  | nil =>
    refine ⟨[], line, ?_, rfl⟩
    rw [List.map_nil, joinWith, scanFrom]
    rfl
  | cons t ts ih =>
    rw [List.forall_mem_cons] at h
    obtain ⟨ht, hts⟩ := h
    generalize hline : line + lineBreaks t.lexeme.toList = next
    have hcontent : Token.content ⟨t.kind, String.ofList t.lexeme.toList, next⟩ = t.content := by
      rw [String.ofList_toList]
      rfl
    cases ts with
    | nil =>
      have hend : EndsToken [] := fun c hc => by cases hc
      have hread := scanFrom_token ht hend line
      rw [List.append_nil, hline, scanFrom] at hread
      refine ⟨[⟨t.kind, String.ofList t.lexeme.toList, next⟩], next, hread, ?_⟩
      rw [List.map_singleton, hcontent, List.map_singleton]
    | cons t' ts =>
      obtain ⟨us, last, hrest, hcontents⟩ := ih hts (fun n => separators (n + 1))
        (next + lineBreaks (separators 0).text)
      have hread := scanFrom_token ht (endsToken_text (separators 0)
        (joinWith (fun n => separators (n + 1)) ((t' :: ts).map Token.lexeme))) line
      rw [hline, (separators 0).isTrivia_text.scanFrom, hrest] at hread
      refine ⟨⟨t.kind, String.ofList t.lexeme.toList, next⟩ :: us, last, hread, ?_⟩
      rw [List.map_cons, hcontent, hcontents]
      rfl

/-- Every token but the end of the input is in the lexicon. -/
theorem spells_of_mem_scanFrom (text : List Char) (line : Nat) :
    ∀ t, Item.token t ∈ scanFrom line text → t.isFinish = false →
      Spells (.token t.kind) t.lexeme.toList := by
  induction text using pieces_induction generalizing line with
  | nil =>
    intro t ht hfinish
    rw [scanFrom, List.mem_singleton] at ht
    cases ht
    cases hfinish
  | cons c rest ih =>
    intro t ht hfinish
    have hpicks := picks_firstPiece c rest
    rw [scanFrom_cons] at ht
    rcases List.mem_append.1 ht with ht | ht
    · cases hpiece : (firstPiece c rest).1 with
      | trivia => simp [hpiece, Piece.item?] at ht
      | bad cause => simp [hpiece, Piece.item?] at ht
      | token kind =>
        simp only [hpiece, Piece.item?, Option.toList_some, List.mem_singleton,
          Item.token.injEq] at ht
        subst ht
        rw [hpiece] at hpicks
        cases hpicks with
        | longest hspells => simpa using hspells
    · exact ih _ t ht hfinish

/-- The words of a source that has nothing but tokens, blanks and comments. -/
theorem scanned_words {source : String} (h : Item.diagnostics (scan source) = []) :
    Scanned source (words source) := by
  obtain ⟨ts, hs⟩ := scanned_of_diagnostics h
  have hwords : words source = ts := by
    have hkept : ts.filter (fun token => !token.isFinish) = ts := by
      rw [List.filter_eq_self]
      intro t ht
      simpa using (hs.proper t ht).isFinish
    rw [words, hs.tokens, List.filter_append, hkept]
    exact List.append_nil ts
  rwa [hwords]

/-- Tokens do not depend on the blanks and comments around them. Take any source that
is read without a lexical error and write down the lexemes of its tokens again, with
any separators between them. The new source is read without a lexical error, as tokens
of the same kinds with the same values and lexemes in the same order, and then the end
of the input, once. -/
theorem scan_respace {source : String} (h : Item.diagnostics (scan source) = [])
    (separators : Nat → Separator) :
    Scanned (respace separators ((words source).map Token.lexeme))
        (words (respace separators ((words source).map Token.lexeme))) ∧
      (words (respace separators ((words source).map Token.lexeme))).map Token.content =
        (words source).map Token.content := by
  have hs := scanned_words h
  have hspells : ∀ t ∈ words source, Spells (.token t.kind) t.lexeme.toList := by
    intro t ht
    have hmem : Item.token t ∈ scan source := by
      rw [hs.items]
      exact List.mem_append_left _ (List.mem_map_of_mem ht)
    exact spells_of_mem_scanFrom _ 1 t hmem (hs.proper t ht).isFinish
  obtain ⟨us, last, hscan, hcontents⟩ := scanFrom_joinWith hspells separators 1
  generalize hnew : respace separators ((words source).map Token.lexeme) = new
  have hitems : scan new = us.map .token ++ [.token (Token.finishAt last)] := by
    rw [← hnew, scan, respace, String.toList_ofList, hscan]
  have hclean : Item.diagnostics (scan new) = [] := by
    rw [hitems, Item.diagnostics_append, Item.diagnostics_map_token]
    rfl
  have hnewWords := scanned_words hclean
  have hsame : words new = us := by
    have heq := hnewWords.items.symm.trans hitems
    have hmap := (List.append_inj' heq rfl).1
    exact List.map_injective_iff.2 (fun _ _ hinj => Item.token.inj hinj) hmap
  refine ⟨hnewWords, ?_⟩
  rw [hsame, hcontents]

/-- A quote in a comment opens no string, and slashes in a string start no comment. -/
theorem scan_respace_remarks :
    Item.diagnostics (scan "x=\"//\"+1.5/.5==y;") = [] ∧
      (words (respace (fun n => if n = 0 then .remark "\"" (by decide) else .space)
          ((words "x=\"//\"+1.5/.5==y;").map Token.lexeme))).map Token.content =
        (words "x=\"//\"+1.5/.5==y;").map Token.content ∧
      respace (fun n => if n = 0 then .remark "\"" (by decide) else .space)
          ((words "x=\"//\"+1.5/.5==y;").map Token.lexeme) =
        "x //\"\n= \"//\" + 1.5 / . 5 == y ;" :=
  ⟨by decide +kernel, (scan_respace (by decide +kernel) _).2, by decide +kernel⟩

end Lox

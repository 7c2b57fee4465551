import Mathlib.Data.List.TakeWhile
import Lox.Proofs.Tokens

/-!
# The lexicon

Which texts are words of the language is said here without a position, a look ahead
or an order of cases: a blank, a comment, a word or sign of fixed spelling, a name, a
number, a string. A reader that follows the lexicon picks, at every position, the
longest text that is in it. Where no text is, it picks one character that starts
nothing, or all that is left after a quote that is not closed.

The first piece of a text is what such a reader picks. The first character tells
which texts of the lexicon can stand there, and among those the longest is found.
-/

namespace Lox

namespace Lexicon

/-- The letters, and the underscore. -/
def IsLetter (c : Char) : Prop := ('a' ≤ c ∧ c ≤ 'z') ∨ ('A' ≤ c ∧ c ≤ 'Z') ∨ c = '_'

/-- The decimal digits. -/
def IsDigit (c : Char) : Prop := '0' ≤ c ∧ c ≤ '9'

/-- The texts that are something. -/
inductive Spells : Piece → List Char → Prop where
  /-- A space, a tabulator or an end of a line. -/
  | blank {c : Char} (h : c ∈ [' ', '\r', '\t', '\n']) : Spells .trivia [c]
  /-- Two slashes and the rest of a line. -/
  | comment {body : List Char} (h : '\n' ∉ body) : Spells .trivia ('/' :: '/' :: body)
  /-- A keyword or a sign in its spelling. -/
  | symbol (symbol : Symbol) : Spells (.token (.symbol symbol)) symbol.spelling.toList
  /-- A letter with letters and digits behind it, which is no keyword. -/
  | identifier {c : Char} {more : List Char} (hc : IsLetter c)
      (hmore : ∀ d ∈ more, IsLetter d ∨ IsDigit d)
      (hword : ∀ keyword ∈ Symbol.keywords, keyword.spelling.toList ≠ c :: more) :
      Spells (.token .identifier) (c :: more)
  /-- Digits. -/
  | whole {c : Char} {more : List Char} (h : ∀ d ∈ c :: more, IsDigit d) :
      Spells (.token (.number (numberOfDigits (c :: more) []))) (c :: more)
  /-- Digits with a point and digits behind it. -/
  | fraction {c d : Char} {more digits : List Char} (h : ∀ e ∈ c :: more, IsDigit e)
      (hdigits : ∀ e ∈ d :: digits, IsDigit e) :
      Spells (.token (.number (numberOfDigits (c :: more) (d :: digits))))
        (c :: more ++ '.' :: d :: digits)
  /-- Quotes with no quote in between. -/
  | string {contents : List Char} (h : '"' ∉ contents) :
      Spells (.token (.string (String.ofList contents))) ('"' :: contents ++ ['"'])

/-- What a reader of the lexicon picks at the front of a text, and what it leaves. -/
inductive Picks : Piece → List Char → List Char → Prop where
  /-- The longest text of the lexicon. -/
  | longest {piece : Piece} {text rest : List Char} (h : Spells piece text)
      (hlongest : ∀ other word, Spells other word → word <+: text ++ rest →
        word.length ≤ text.length ∧ (word = text → other = piece)) : Picks piece text rest
  /-- A character that starts nothing. -/
  | unexpected {c : Char} {rest : List Char} (h : ∀ piece more, ¬ Spells piece (c :: more)) :
      Picks (.bad (.unexpectedCharacter c)) [c] rest
  /-- A quote with no later quote. -/
  | unterminated {text : List Char} (h : '"' ∉ text) :
      Picks (.bad .unterminatedString) ('"' :: text) []

/-! ### Classes of characters -/

/-- The decimal digits are those of the scanner. -/
theorem isDigit_iff {c : Char} : c.isDigit = true ↔ IsDigit c := by
  unfold Char.isDigit IsDigit
  rw [Bool.and_eq_true, decide_eq_true_iff, decide_eq_true_iff]
  rfl

/-- A name starts with what the scanner takes for the start of a word. -/
theorem isWordStart_iff {c : Char} : isWordStart c = true ↔ IsLetter c := by
  unfold isWordStart Char.isAlpha Char.isUpper Char.isLower IsLetter
  simp only [Bool.or_eq_true, Bool.and_eq_true, decide_eq_true_iff, ge_iff_le, Char.le_def]
  tauto

/-- A name goes on with what the scanner takes for a part of a word. -/
theorem isWordPart_iff {c : Char} : isWordPart c = true ↔ IsLetter c ∨ IsDigit c := by
  rw [← isWordStart_iff, ← isDigit_iff]
  unfold isWordPart isWordStart Char.isAlphanum
  simp only [Bool.or_eq_true]
  tauto

/-- What the first character of a text tells about its first piece. -/
inductive Class where
  /-- A blank. -/
  | blank
  /-- A slash, which starts a comment or is a sign. -/
  | slash
  /-- A quote, which starts a string. -/
  | quote
  /-- A digit, which starts a number. -/
  | digit
  /-- A letter, which starts a word. -/
  | letter
  /-- A sign by itself. -/
  | sign (symbol : Symbol)
  /-- A sign by itself or with an `=` behind it. -/
  | signOrEqual (single double : Symbol)
  /-- A character that starts nothing. -/
  | nothing

/-- The class of a character. -/
def classOf (c : Char) : Class :=
  if isBlank c || c = '\n' then .blank
  else if c = '/' then .slash
  else if c = '"' then .quote
  else if c.isDigit then .digit
  else if isWordStart c then .letter
  else match Symbol.ofChar? c, Symbol.withEqual? c with
    | some symbol, _ => .sign symbol
    | none, some (single, double) => .signOrEqual single double
    | none, none => .nothing

/-- The first piece of a text, by the class of its first character. -/
theorem firstPiece_eq (c : Char) (rest : List Char) :
    firstPiece c rest =
      match classOf c with
      | .blank => (.trivia, 0)
      | .slash =>
        if rest.head? = some '/' then (.trivia, (rest.takeWhile (· ≠ '\n')).length)
        else (.token (.symbol .slash), 0)
      | .quote => stringPiece rest
      | .digit => numberPiece c rest
      | .letter => wordPiece c rest
      | .sign symbol => (.token (.symbol symbol), 0)
      | .signOrEqual single double =>
        if rest.head? = some '=' then (.token (.symbol double), 1)
        else (.token (.symbol single), 0)
      | .nothing => (.bad (.unexpectedCharacter c), 0) := by
  unfold firstPiece classOf
  split
  · rfl
  split
  · rfl
  split
  · rfl
  split
  · rfl
  split
  · rfl
  cases Symbol.ofChar? c with
  | some symbol => rfl
  | none =>
    cases Symbol.withEqual? c with
    | some signs => rfl
    | none => rfl

/-- The four blanks are blanks. -/
theorem classOf_blank {c : Char} (h : c ∈ [' ', '\r', '\t', '\n']) : classOf c = .blank := by
  simp only [List.mem_cons, List.not_mem_nil, or_false] at h
  rcases h with rfl | rfl | rfl | rfl <;> rfl

/-- The characters that none of the larger classes has. -/
theorem classOf_of_notMem {c : Char} (h : c ∉ [' ', '\r', '\t', '\n', '/', '"']) :
    classOf c =
      if c.isDigit then .digit
      else if isWordStart c then .letter
      else match Symbol.ofChar? c, Symbol.withEqual? c with
        | some symbol, _ => .sign symbol
        | none, some (single, double) => .signOrEqual single double
        | none, none => .nothing := by
  simp only [List.mem_cons, List.not_mem_nil, or_false, not_or] at h
  unfold classOf
  simp [isBlank, h]

/-- The digits start numbers. -/
theorem classOf_digit {c : Char} (h : c.isDigit = true) : classOf c = .digit := by
  have hnone : [' ', '\r', '\t', '\n', '/', '"'].all (!·.isDigit) = true := by decide
  rw [List.all_eq_true] at hnone
  rw [classOf_of_notMem fun hmem => by simpa [h] using hnone c hmem, if_pos h]

/-- The letters start words. -/
theorem classOf_letter {c : Char} (h : isWordStart c = true) : classOf c = .letter := by
  have hdigit : ¬ c.isDigit = true := by
    rw [isWordStart_iff] at h
    rw [isDigit_iff]
    unfold IsLetter at h
    unfold IsDigit
    rcases h with h | h | rfl
    · intro hd
      exact absurd (Char.le_trans h.1 hd.2) (by decide)
    · intro hd
      exact absurd (Char.le_trans h.1 hd.2) (by decide)
    · decide
  have hnone : [' ', '\r', '\t', '\n', '/', '"'].all (!isWordStart ·) = true := by decide
  rw [List.all_eq_true] at hnone
  rw [classOf_of_notMem fun hmem => by simpa [h] using hnone c hmem, if_neg hdigit, if_pos h]

/-- A symbol of one character is spelled with it. -/
theorem spelling_of_ofChar? {c : Char} {symbol : Symbol} (h : Symbol.ofChar? c = some symbol) :
    symbol.spelling.toList = [c] := by
  unfold Symbol.ofChar? at h
  split at h <;> cases h <;> rfl

/-- A symbol that may have an `=` behind it is spelled without it or with it. -/
theorem spelling_of_withEqual? {c : Char} {single double : Symbol}
    (h : Symbol.withEqual? c = some (single, double)) :
    single.spelling.toList = [c] ∧ double.spelling.toList = [c, '='] := by
  unfold Symbol.withEqual? at h
  split at h <;> cases h <;> exact ⟨rfl, rfl⟩

/-- The characters of a class. -/
theorem classOf_spec (c : Char) :
    match classOf c with
    | .blank => c ∈ [' ', '\r', '\t', '\n']
    | .slash => c = '/'
    | .quote => c = '"'
    | .digit => c.isDigit = true
    | .letter => isWordStart c = true
    | .sign symbol => symbol.spelling.toList = [c]
    | .signOrEqual single double =>
      single.spelling.toList = [c] ∧ double.spelling.toList = [c, '=']
    | .nothing => True := by
  unfold classOf
  by_cases hblank : (isBlank c || c = '\n') = true
  · rw [if_pos hblank]
    simpa [isBlank, or_assoc] using hblank
  rw [if_neg hblank]
  by_cases hslash : c = '/'
  · rwa [if_pos hslash]
  rw [if_neg hslash]
  by_cases hquote : c = '"'
  · rwa [if_pos hquote]
  rw [if_neg hquote]
  by_cases hdigit : c.isDigit = true
  · rwa [if_pos hdigit]
  rw [if_neg hdigit]
  by_cases hletter : isWordStart c = true
  · rwa [if_pos hletter]
  rw [if_neg hletter]
  cases hsign : Symbol.ofChar? c with
  | some symbol => exact spelling_of_ofChar? hsign
  | none =>
    cases hsigns : Symbol.withEqual? c with
    | some signs => exact spelling_of_withEqual? hsigns
    | none => trivial

/-! ### Texts of the lexicon by their first character -/

/-- What a word is. -/
def kindOfWord (word : List Char) : Token.Kind :=
  match Symbol.ofWord? word with
  | some keyword => .symbol keyword
  | none => .identifier

/-- What may follow the first character of a text of the lexicon, and what the text
is then. -/
def Allows (c : Char) (piece : Piece) (more : List Char) : Prop :=
  match classOf c with
  | .blank => piece = .trivia ∧ more = []
  | .slash =>
    (piece = .trivia ∧ ∃ body, more = '/' :: body ∧ '\n' ∉ body) ∨
      piece = .token (.symbol .slash) ∧ more = []
  | .quote =>
    ∃ contents, piece = .token (.string (String.ofList contents)) ∧
      more = contents ++ ['"'] ∧ '"' ∉ contents
  | .digit =>
    (piece = .token (.number (numberOfDigits (c :: more) [])) ∧ ∀ d ∈ more, d.isDigit = true) ∨
      ∃ whole d digits, piece = .token (.number (numberOfDigits (c :: whole) (d :: digits))) ∧
        more = whole ++ '.' :: d :: digits ∧ (∀ e ∈ whole, e.isDigit = true) ∧
        ∀ e ∈ d :: digits, e.isDigit = true
  | .letter => piece = .token (kindOfWord (c :: more)) ∧ ∀ d ∈ more, isWordPart d = true
  | .sign symbol => piece = .token (.symbol symbol) ∧ more = []
  | .signOrEqual single double =>
    piece = .token (.symbol single) ∧ more = [] ∨ piece = .token (.symbol double) ∧ more = ['=']
  | .nothing => False

/-- A keyword is no identifier. -/
theorem kindOfWord_keyword {keyword : Symbol} (h : keyword ∈ Symbol.keywords) :
    kindOfWord keyword.spelling.toList = .symbol keyword := by
  revert keyword
  decide

/-- A word that no keyword has is an identifier. -/
theorem kindOfWord_identifier {word : List Char}
    (h : ∀ keyword ∈ Symbol.keywords, keyword.spelling.toList ≠ word) :
    kindOfWord word = .identifier := by
  have hnone : Symbol.ofWord? word = none := by
    rw [Symbol.ofWord?, List.find?_eq_none]
    intro keyword hkeyword
    simpa using h keyword hkeyword
  rw [kindOfWord, hnone]

/-- The words and signs of fixed spelling by their first character. -/
theorem allows_symbol (symbol : Symbol) {c : Char} {more : List Char}
    (h : symbol.spelling.toList = c :: more) : Allows c (.token (.symbol symbol)) more := by
  by_cases hkeyword : symbol ∈ Symbol.keywords
  · have hword : ∀ keyword ∈ Symbol.keywords,
        (keyword.spelling.toList.head?.all isWordStart && keyword.spelling.toList.all isWordPart) =
          true := by decide
    have hparts := hword symbol hkeyword
    have hkind := kindOfWord_keyword hkeyword
    rw [h] at hparts hkind
    rw [Bool.and_eq_true, List.all_eq_true] at hparts
    have hletter : classOf c = .letter := classOf_letter hparts.1
    rw [Allows, hletter, hkind]
    exact ⟨rfl, fun d hd => hparts.2 d (.tail _ hd)⟩
  · cases symbol <;> first | exact absurd (by decide) hkeyword | skip
    all_goals
      simp only [Symbol.spelling, String.reduceToList, List.cons.injEq] at h
      obtain ⟨rfl, rfl⟩ := h
      simp [Allows, classOf, isBlank, isWordStart, Symbol.ofChar?, Symbol.withEqual?]

/-- Every text of the lexicon is found by its first character. -/
theorem Spells.allows {piece : Piece} {text : List Char} (h : Spells piece text) :
    ∃ c more, text = c :: more ∧ Allows c piece more := by
  cases h with
  | @blank c h =>
    refine ⟨c, [], rfl, ?_⟩
    rw [Allows, classOf_blank h]
    exact ⟨rfl, rfl⟩
  | @comment body h => exact ⟨'/', '/' :: body, rfl, .inl ⟨rfl, body, rfl, h⟩⟩
  | symbol symbol =>
    cases htext : symbol.spelling.toList with
    | nil => cases symbol <;> simp [Symbol.spelling] at htext
    | cons c more => exact ⟨c, more, rfl, allows_symbol symbol htext⟩
  | @identifier c more hc hmore hword =>
    refine ⟨c, more, rfl, ?_⟩
    rw [Allows, classOf_letter (isWordStart_iff.2 hc), kindOfWord_identifier hword]
    exact ⟨rfl, fun d hd => isWordPart_iff.2 (hmore d hd)⟩
  | @whole c more h =>
    rw [List.forall_mem_cons] at h
    refine ⟨c, more, rfl, ?_⟩
    rw [Allows, classOf_digit (isDigit_iff.2 h.1)]
    exact .inl ⟨rfl, fun d hd => isDigit_iff.2 (h.2 d hd)⟩
  | @fraction c d more digits h hdigits =>
    rw [List.forall_mem_cons] at h
    refine ⟨c, more ++ '.' :: d :: digits, rfl, ?_⟩
    rw [Allows, classOf_digit (isDigit_iff.2 h.1)]
    exact .inr ⟨more, d, digits, rfl, rfl, fun e he => isDigit_iff.2 (h.2 e he),
      fun e he => isDigit_iff.2 (hdigits e he)⟩
  | @string contents h => exact ⟨'"', contents ++ ['"'], rfl, contents, rfl, rfl, h⟩

/-- Whatever a first character allows is in the lexicon. -/
theorem spells_of_allows {c : Char} {piece : Piece} {more : List Char}
    (h : Allows c piece more) : Spells piece (c :: more) := by
  have hclass := classOf_spec c
  unfold Allows at h
  split at h <;> rename_i hc <;> rw [hc] at hclass <;> dsimp only at hclass
  · obtain ⟨rfl, rfl⟩ := h
    exact .blank hclass
  · subst hclass
    obtain ⟨rfl, body, rfl, hbody⟩ | ⟨rfl, rfl⟩ := h
    · exact .comment hbody
    · exact .symbol .slash
  · subst hclass
    obtain ⟨contents, rfl, rfl, hcontents⟩ := h
    exact .string hcontents
  · rw [isDigit_iff] at hclass
    obtain ⟨rfl, hmore⟩ | ⟨whole, d, digits, rfl, rfl, hwhole, hdigits⟩ := h
    · exact .whole (List.forall_mem_cons.2 ⟨hclass, fun d hd => isDigit_iff.1 (hmore d hd)⟩)
    · exact .fraction (List.forall_mem_cons.2 ⟨hclass, fun e he => isDigit_iff.1 (hwhole e he)⟩)
        fun e he => isDigit_iff.1 (hdigits e he)
  · obtain ⟨rfl, hmore⟩ := h
    unfold kindOfWord
    cases hword : Symbol.ofWord? (c :: more) with
    | some keyword =>
      have hspelling : keyword.spelling.toList = c :: more := by
        simpa using List.find?_some hword
      rw [← hspelling]
      exact .symbol keyword
    | none =>
      rw [Symbol.ofWord?, List.find?_eq_none] at hword
      refine .identifier (isWordStart_iff.1 hclass) (fun d hd => isWordPart_iff.1 (hmore d hd)) ?_
      intro keyword hkeyword
      simpa using hword keyword hkeyword
  · obtain ⟨rfl, rfl⟩ := h
    rw [← hclass]
    exact .symbol _
  · obtain ⟨rfl, rfl⟩ | ⟨rfl, rfl⟩ := h
    · rw [← hclass.1]
      exact .symbol _
    · rw [← hclass.2]
      exact .symbol _
  · exact h.elim

/-! ### The longest text -/

section Longest

variable {c : Char} {rest : List Char}

/-- A text that its first character allows is picked if all others that stand there
are shorter. -/
theorem picks_of_allows {piece : Piece} {k : Nat} (hk : k ≤ rest.length)
    (h : Allows c piece (rest.take k))
    (hlongest : ∀ other more, Allows c other more → more <+: rest →
      more.length ≤ k ∧ (more.length = k → other = piece)) :
    Picks piece (c :: rest.take k) (rest.drop k) := by
  refine .longest (spells_of_allows h) fun other word hword hstands => ?_
  obtain ⟨d, more, rfl, hallows⟩ := hword.allows
  rw [List.cons_append, List.take_append_drop, List.cons_prefix_cons] at hstands
  obtain ⟨rfl, hmore⟩ := hstands
  obtain ⟨hle, hsame⟩ := hlongest other more hallows hmore
  rw [List.length_cons, List.length_cons, List.length_take_of_le hk]
  refine ⟨Nat.succ_le_succ hle, fun heq => hsame ?_⟩
  rw [(List.cons.inj heq).2, List.length_take_of_le hk]

/-- A run of characters of one kind goes no further than the longest. -/
theorem prefix_takeWhile {p : Char → Bool} {more : List Char} (h : more <+: rest)
    (hmore : ∀ d ∈ more, p d = true) : more <+: rest.takeWhile p := by
  obtain ⟨tail, rfl⟩ := h
  rw [List.takeWhile_append_of_pos hmore]
  exact List.prefix_append _ _

/-- Where only one text can stand, it is picked. -/
theorem picks_single {piece : Piece}
    (h : ∀ other more, Allows c other more ↔ other = piece ∧ more = []) :
    Picks piece (c :: rest.take 0) (rest.drop 0) := by
  refine picks_of_allows (Nat.zero_le _) ((h _ _).2 ⟨rfl, rfl⟩) fun other more hother _ => ?_
  obtain ⟨rfl, rfl⟩ := (h _ _).1 hother
  exact ⟨Nat.le_refl 0, fun _ => rfl⟩

/-- Two slashes start a comment, which goes to the end of the line. -/
theorem picks_comment (hc : classOf c = .slash) (hrest : rest.head? = some '/') :
    Picks .trivia (c :: rest.take (rest.takeWhile (· ≠ '\n')).length)
      (rest.drop (rest.takeWhile (· ≠ '\n')).length) := by
  obtain ⟨tail, rfl⟩ : ∃ tail, rest = '/' :: tail := by
    cases rest with
    | nil => cases hrest
    | cons d tail => exact ⟨tail, by rw [Option.some.inj hrest]⟩
  have hbody : ('/' :: tail).takeWhile (· ≠ '\n') = '/' :: tail.takeWhile (· ≠ '\n') :=
    List.takeWhile_cons_of_pos (by decide)
  refine picks_of_allows (length_takeWhile_le _ _) ?_ fun other more hother hmore => ?_
  · rw [take_length_takeWhile, Allows, hc, hbody]
    refine .inl ⟨rfl, _, rfl, fun hbreak => ?_⟩
    simpa using List.mem_takeWhile_imp hbreak
  · rw [Allows, hc] at hother
    obtain ⟨rfl, body, rfl, hnone⟩ | ⟨rfl, rfl⟩ := hother
    · have hle := (prefix_takeWhile (p := (· ≠ '\n')) hmore (by
        intro d hd
        rw [decide_eq_true_iff]
        rintro rfl
        rcases List.mem_cons.1 hd with hd | hd
        · cases hd
        · exact hnone hd)).length_le
      exact ⟨hle, fun _ => rfl⟩
    · rw [hbody]
      exact ⟨Nat.zero_le _, nofun⟩

/-- One slash is a symbol. -/
theorem picks_slash (hc : classOf c = .slash) (hrest : rest.head? ≠ some '/') :
    Picks (.token (.symbol .slash)) (c :: rest.take 0) (rest.drop 0) := by
  refine picks_of_allows (Nat.zero_le _) ?_ fun other more hother hmore => ?_
  · rw [Allows, hc]
    exact .inr ⟨rfl, rfl⟩
  · rw [Allows, hc] at hother
    obtain ⟨-, body, rfl, -⟩ | ⟨rfl, rfl⟩ := hother
    · obtain ⟨tail, rfl⟩ := hmore
      exact absurd rfl hrest
    · exact ⟨Nat.le_refl 0, fun _ => rfl⟩

/-- A sign takes an `=` that follows it. -/
theorem picks_sign {single double : Symbol} (hc : classOf c = .signOrEqual single double) :
    Picks (if rest.head? = some '=' then (.token (.symbol double), 1)
        else (.token (.symbol single), 0) : Piece × Nat).1
      (c :: rest.take (if rest.head? = some '=' then (.token (.symbol double), 1)
        else (.token (.symbol single), 0) : Piece × Nat).2)
      (rest.drop (if rest.head? = some '=' then (.token (.symbol double), 1)
        else (.token (.symbol single), 0) : Piece × Nat).2) := by
  by_cases hrest : rest.head? = some '='
  · rw [if_pos hrest]
    obtain ⟨tail, rfl⟩ : ∃ tail, rest = '=' :: tail := by
      cases rest with
      | nil => cases hrest
      | cons d tail => exact ⟨tail, by rw [Option.some.inj hrest]⟩
    refine picks_of_allows (Nat.succ_le_succ (Nat.zero_le _)) ?_ fun other more hother hmore => ?_
    · rw [Allows, hc]
      exact .inr ⟨rfl, rfl⟩
    · rw [Allows, hc] at hother
      obtain ⟨rfl, rfl⟩ | ⟨rfl, rfl⟩ := hother
      · exact ⟨Nat.zero_le _, nofun⟩
      · exact ⟨Nat.le_refl 1, fun _ => rfl⟩
  · rw [if_neg hrest]
    refine picks_of_allows (Nat.zero_le _) ?_ fun other more hother hmore => ?_
    · rw [Allows, hc]
      exact .inl ⟨rfl, rfl⟩
    · rw [Allows, hc] at hother
      obtain ⟨rfl, rfl⟩ | ⟨-, rfl⟩ := hother
      · exact ⟨Nat.le_refl 0, fun _ => rfl⟩
      · obtain ⟨tail, rfl⟩ := hmore
        exact absurd rfl hrest

/-- A string goes to the next quote. Without one all that is left is no token. -/
theorem picks_string (hc : classOf c = .quote) :
    Picks (stringPiece rest).1 (c :: rest.take (stringPiece rest).2)
      (rest.drop (stringPiece rest).2) := by
  have hquote : c = '"' := by
    have hclass := classOf_spec c
    rwa [hc] at hclass
  have hnone : '"' ∉ rest.takeWhile (· ≠ '"') := by
    intro hmem
    simpa using List.mem_takeWhile_imp hmem
  have hsplit : rest.takeWhile (· ≠ '"') ++ rest.dropWhile (· ≠ '"') = rest :=
    List.takeWhile_append_dropWhile
  unfold stringPiece
  dsimp only
  generalize hcontents : rest.takeWhile (· ≠ '"') = contents at hnone hsplit ⊢
  cases htail : rest.dropWhile (· ≠ '"') with
  | nil =>
    rw [htail, List.append_nil] at hsplit
    subst hsplit
    rw [if_neg (Nat.lt_irrefl _), List.take_length, List.drop_length, hquote]
    exact .unterminated hnone
  | cons d tail =>
    have hd : d = '"' := by
      have hhead := List.head?_dropWhile_not (· ≠ '"') rest
      rw [htail] at hhead
      simpa using hhead
    subst hd
    rw [htail] at hsplit
    subst hsplit
    have hclosed : contents.length < (contents ++ '"' :: tail).length := by
      rw [List.length_append, List.length_cons]
      omega
    rw [if_pos hclosed]
    refine picks_of_allows hclosed ?_ fun other more hother hmore => ?_
    · rw [Allows, hc]
      refine ⟨contents, rfl, ?_, hnone⟩
      rw [List.take_length_add_append]
      rfl
    · rw [Allows, hc] at hother
      obtain ⟨word, rfl, rfl, hword⟩ := hother
      have hsame : word = contents := by
        obtain ⟨after, hafter⟩ := hmore
        have htake : ∀ xs ys : List Char, '"' ∉ xs →
            (xs ++ '"' :: ys).takeWhile (· ≠ '"') = xs := by
          intro xs ys hxs
          rw [List.takeWhile_append_of_pos, List.takeWhile_cons_of_neg (by decide),
            List.append_nil]
          intro e he
          rw [decide_eq_true_iff]
          rintro rfl
          exact hxs he
        rw [← htake word after hword, ← htake contents tail hnone, ← hafter, List.append_assoc]
        rfl
      subst hsame
      rw [List.length_append]
      exact ⟨Nat.le_refl _, fun _ => rfl⟩

/-- A word goes on as far as its letters and digits do. -/
theorem picks_word (hc : classOf c = .letter) :
    Picks (wordPiece c rest).1 (c :: rest.take (wordPiece c rest).2)
      (rest.drop (wordPiece c rest).2) := by
  have hpiece : (wordPiece c rest).1 = .token (kindOfWord (c :: rest.takeWhile isWordPart)) := rfl
  have hlength : (wordPiece c rest).2 = (rest.takeWhile isWordPart).length := rfl
  rw [hpiece, hlength]
  refine picks_of_allows (length_takeWhile_le _ _) ?_ fun other more hother hmore => ?_
  · rw [take_length_takeWhile, Allows, hc]
    exact ⟨rfl, fun d hd => List.mem_takeWhile_imp hd⟩
  · rw [Allows, hc] at hother
    obtain ⟨rfl, hparts⟩ := hother
    have hfront := prefix_takeWhile hmore hparts
    refine ⟨hfront.length_le, fun hsame => ?_⟩
    rw [hfront.eq_of_length hsame]

/-- Digits, a point and digits at the front of a text. -/
theorem fractionDigits_of_front {whole fraction : List Char}
    (h : whole ++ '.' :: fraction <+: rest) (hwhole : ∀ e ∈ whole, e.isDigit = true)
    (hfraction : ∀ e ∈ fraction, e.isDigit = true) :
    rest.takeWhile Char.isDigit = whole ∧
      fraction <+: fractionDigits (rest.dropWhile Char.isDigit) := by
  obtain ⟨tail, rfl⟩ := h
  have hpoint : ¬ Char.isDigit '.' = true := by decide
  rw [List.append_assoc, List.takeWhile_append_of_pos hwhole, List.dropWhile_append_of_pos hwhole,
    List.cons_append, List.takeWhile_cons_of_neg hpoint, List.dropWhile_cons_of_neg hpoint,
    List.append_nil]
  refine ⟨rfl, ?_⟩
  rw [fractionDigits, List.takeWhile_append_of_pos hfraction]
  exact List.prefix_append _ _

/-- The digits of a fraction stand behind a point. -/
theorem eq_of_fractionDigits {text : List Char} (h : fractionDigits text ≠ []) :
    ∃ tail, text = '.' :: (fractionDigits text ++ tail) ∧
      ∀ e ∈ fractionDigits text, e.isDigit = true := by
  unfold fractionDigits at h ⊢
  split at h
  · rename_i rest
    refine ⟨rest.dropWhile Char.isDigit, ?_, fun e he => List.mem_takeWhile_imp he⟩
    rw [List.takeWhile_append_dropWhile]
  · exact absurd rfl h

/-- A number takes a point with digits behind it, and leaves a point without. -/
theorem picks_number (hc : classOf c = .digit) :
    Picks (numberPiece c rest).1 (c :: rest.take (numberPiece c rest).2)
      (rest.drop (numberPiece c rest).2) := by
  have hwhole : ∀ e ∈ rest.takeWhile Char.isDigit, e.isDigit = true :=
    fun e he => List.mem_takeWhile_imp he
  have hsplit : rest.takeWhile Char.isDigit ++ rest.dropWhile Char.isDigit = rest :=
    List.takeWhile_append_dropWhile
  unfold numberPiece
  dsimp only
  cases hfraction : fractionDigits (rest.dropWhile Char.isDigit) with
  | nil =>
    rw [List.isEmpty_nil, if_pos rfl]
    refine picks_of_allows (length_takeWhile_le _ _) ?_ fun other more hother hmore => ?_
    · rw [take_length_takeWhile, Allows, hc]
      exact .inl ⟨rfl, hwhole⟩
    · rw [Allows, hc] at hother
      obtain ⟨rfl, hdigits⟩ | ⟨whole, d, digits, rfl, rfl, hbefore, hafter⟩ := hother
      · have hfront := prefix_takeWhile hmore hdigits
        refine ⟨hfront.length_le, fun hsame => ?_⟩
        rw [hfront.eq_of_length hsame]
      · have hnone := (fractionDigits_of_front hmore hbefore hafter).2
        rw [hfraction, List.prefix_nil] at hnone
        cases hnone
  | cons d digits =>
    have hsome : fractionDigits (rest.dropWhile Char.isDigit) ≠ [] := by
      rw [hfraction]
      nofun
    obtain ⟨tail, htail, hdigits⟩ := eq_of_fractionDigits hsome
    rw [hfraction] at htail hdigits
    have hrest : (rest.takeWhile Char.isDigit ++ '.' :: d :: digits) ++ tail = rest := by
      rw [List.append_assoc]
      conv_rhs => rw [← hsplit, htail]
      rfl
    have hstands : rest.takeWhile Char.isDigit ++ '.' :: d :: digits <+: rest := ⟨tail, hrest⟩
    have hlength : (rest.takeWhile Char.isDigit ++ '.' :: d :: digits).length =
        (rest.takeWhile Char.isDigit).length + 1 + (d :: digits).length := by
      simp only [List.length_append, List.length_cons]
      omega
    have htake := List.prefix_iff_eq_take.1 hstands
    have hle := hstands.length_le
    rw [hlength] at htake hle
    rw [List.isEmpty_cons, if_neg Bool.false_ne_true]
    refine picks_of_allows hle ?_ fun other more hother hmore => ?_
    · rw [← htake, Allows, hc]
      exact .inr ⟨_, d, digits, rfl, rfl, hwhole, hdigits⟩
    · rw [Allows, hc] at hother
      obtain ⟨-, hall⟩ | ⟨whole, e, others, rfl, rfl, hbefore, hafter⟩ := hother
      · have hshort := (prefix_takeWhile hmore hall).length_le
        exact ⟨by omega, fun hsame => by omega⟩
      · obtain ⟨hsame, hfront⟩ := fractionDigits_of_front hmore hbefore hafter
        rw [hfraction] at hfront
        have hshort := hfront.length_le
        rw [hsame]
        simp only [List.length_append, List.length_cons] at hshort ⊢
        refine ⟨by omega, fun heq => ?_⟩
        rw [hfront.eq_of_length (by simp only [List.length_cons]; omega)]

/-- The first piece of a text is what a reader of the lexicon picks. -/
theorem picks_firstPiece (c : Char) (rest : List Char) :
    Picks (firstPiece c rest).1 (c :: rest.take (firstPiece c rest).2)
      (rest.drop (firstPiece c rest).2) := by
  rw [firstPiece_eq]
  cases hc : classOf c with
  | blank => exact picks_single fun other more => by rw [Allows, hc]
  | slash =>
    dsimp only
    split
    · exact picks_comment hc ‹_›
    · exact picks_slash hc ‹_›
  | quote => exact picks_string hc
  | digit => exact picks_number hc
  | letter => exact picks_word hc
  | sign symbol => exact picks_single fun other more => by rw [Allows, hc]
  | signOrEqual single double => exact picks_sign hc
  | nothing =>
    refine .unexpected fun piece more hspells => ?_
    obtain ⟨d, word, heq, hallows⟩ := hspells.allows
    cases heq
    rw [Allows, hc] at hallows
    exact hallows

end Longest

/-! ### Only one pick -/

/-- No text of the lexicon is empty. -/
theorem Spells.ne_nil {piece : Piece} {text : List Char} (h : Spells piece text) : text ≠ [] := by
  obtain ⟨c, more, rfl, -⟩ := h.allows
  nofun

/-- A text of the lexicon that starts with a quote has a second one. -/
theorem Spells.mem_quote {piece : Piece} {more : List Char} (h : Spells piece ('"' :: more)) :
    '"' ∈ more := by
  obtain ⟨c, word, heq, hallows⟩ := h.allows
  cases heq
  obtain ⟨contents, -, rfl, -⟩ := hallows
  exact List.mem_append_right _ (.head _)

/-- Where a text of the lexicon stands, nothing else is picked but the longest. -/
theorem Picks.spells {piece other : Piece} {text rest word after : List Char}
    (h : Picks piece text rest) (hword : Spells other word)
    (heq : text ++ rest = word ++ after) : Spells piece text := by
  cases h with
  | longest h => exact h
  | @unexpected c rest h =>
    cases word with
    | nil => exact absurd rfl hword.ne_nil
    | cons d word =>
      cases (List.cons.inj heq).1
      exact absurd hword (h other word)
  | @unterminated text h =>
    cases word with
    | nil => exact absurd rfl hword.ne_nil
    | cons d word =>
      rw [List.append_nil, List.cons_append, List.cons.injEq] at heq
      obtain ⟨rfl, rfl⟩ := heq
      exact absurd (List.mem_append_left _ hword.mem_quote) h

/-- A reader of the lexicon has no choice. -/
theorem Picks.unique {piece other : Piece} {text rest word after : List Char}
    (h : Picks piece text rest) (h' : Picks other word after)
    (heq : text ++ rest = word ++ after) : piece = other ∧ text = word ∧ rest = after := by
  have hquote : Spells (.token (.string (String.ofList []))) ['"', '"'] := .string nofun
  cases h with
  | longest hspells hlongest =>
    have hspells' := h'.spells hspells heq.symm
    cases h' with
    | longest _ hlongest' =>
      have hle := hlongest other word hspells' (heq ▸ List.prefix_append _ _)
      have hle' := hlongest' piece text hspells (heq ▸ List.prefix_append _ _)
      obtain ⟨hsame, hrest⟩ := List.append_inj heq (by omega)
      exact ⟨hle'.2 hsame, hsame, hrest⟩
    | unexpected => cases hspells'
    | unterminated => cases hspells'
  | unexpected hnothing =>
    cases h' with
    | longest hspells => exact absurd (Picks.unexpected hnothing |>.spells hspells heq) nofun
    | unexpected =>
      cases heq
      exact ⟨rfl, rfl, rfl⟩
    | unterminated =>
      cases (List.cons.inj heq).1
      exact absurd hquote (hnothing _ _)
  | unterminated hopen =>
    cases h' with
    | longest hspells => exact absurd (Picks.unterminated hopen |>.spells hspells heq) nofun
    | unexpected hnothing =>
      cases (List.cons.inj heq).1
      exact absurd hquote (hnothing _ _)
    | unterminated =>
      rw [List.append_nil, List.append_nil, List.cons.injEq] at heq
      exact ⟨rfl, by rw [heq.2], rfl⟩

end Lexicon

end Lox

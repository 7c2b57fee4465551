import Lox.Proofs.Number.Text
import Lox.Proofs.Tokens.Lexicon
import Lox.Proofs.Tree.Form

/-!
# Texts of words tell words apart

A word has no blanks and no parentheses, so it ends where a text goes on with one of these.
What a word is can be told from its characters: names start with letters and are no
keywords, numbers start with a digit or a sign, and few other words can be part of a form.
The words that a node can start with have different spellings, too.
-/

namespace Lox

open Lexicon

/-! ### Words -/

/-- The characters of words. -/
def isInWord (c : Char) : Bool := c ≠ ' ' && c ≠ '(' && c ≠ ')'

/-- A text that goes on with no word, or is over. -/
def EndsWord (rest : List Char) : Prop := ∀ c ∈ rest.head?, isInWord c = false

/-- A text that goes on behind a form: with a blank, with the end of a node, or not at all. -/
def EndsForm (rest : List Char) : Prop := ∀ c ∈ rest.head?, c = ' ' ∨ c = ')'

/-- A word ends where a form does. -/
theorem EndsForm.endsWord {rest : List Char} (h : EndsForm rest) : EndsWord rest := by
  intro c hc
  rcases h c hc with rfl | rfl <;> rfl

/-- The characters of a word are taken up to its end. -/
theorem takeWhile_word {word rest : List Char} (hword : ∀ c ∈ word, isInWord c = true)
    (hrest : EndsWord rest) : (word ++ rest).takeWhile isInWord = word := by
  have hnone : rest.takeWhile isInWord = [] := by
    cases rest with
    | nil => rfl
    | cons c rest => rw [List.takeWhile_cons_of_neg (by simp [hrest c rfl])]
  rw [List.takeWhile_append_of_pos hword, hnone, List.append_nil]

/-- The first word of a text ends at the first character that is in no word. -/
theorem word_unique {word word' rest rest' : List Char} (hword : ∀ c ∈ word, isInWord c = true)
    (hword' : ∀ c ∈ word', isInWord c = true) (hrest : EndsWord rest) (hrest' : EndsWord rest')
    (h : word ++ rest = word' ++ rest') : word = word' ∧ rest = rest' := by
  have hsame : word = word' := by
    rw [← takeWhile_word hword hrest, h, takeWhile_word hword' hrest']
  refine ⟨hsame, ?_⟩
  rw [hsame] at h
  exact List.append_cancel_left h

/-- A word is not empty, so a text that starts with it does not start with a blank or a
parenthesis. -/
theorem word_ne_cons {word rest rest' : List Char} {c : Char} (hsome : word ≠ [])
    (hword : ∀ c ∈ word, isInWord c = true) (hc : isInWord c = false) :
    word ++ rest ≠ c :: rest' := by
  obtain ⟨d, more, rfl⟩ := List.exists_cons_of_ne_nil hsome
  intro heq
  have hd := hword d (.head _)
  rw [(List.cons.inj heq).1, hc] at hd
  cases hd

/-- A name that a program can choose. -/
def IsName (text : String) : Prop := Spells (.token .identifier) text.toList

/-- A name starts with a letter, goes on with letters and digits, and is no keyword. -/
theorem IsName.exists_letter {text : String} (h : IsName text) :
    ∃ c more, text.toList = c :: more ∧ IsLetter c ∧ (∀ d ∈ more, IsLetter d ∨ IsDigit d) ∧
      ∀ keyword ∈ Symbol.keywords, keyword.spelling.toList ≠ c :: more := by
  unfold IsName at h
  cases htext : text.toList with
  | nil =>
    rw [htext] at h
    cases h
  | cons c more =>
    rw [htext] at h
    cases h with
    | identifier hc hmore hword => exact ⟨c, more, rfl, hc, hmore, hword⟩

/-- The characters of names may stand in words. -/
theorem isInWord_of_isWordPart {c : Char} (h : isWordPart c = true) : isInWord c = true := by
  unfold isInWord
  simp only [Bool.and_eq_true, decide_eq_true_eq]
  refine ⟨⟨?_, ?_⟩, ?_⟩ <;> rintro rfl <;> cases h

/-- A name is a word. -/
theorem IsName.isInWord {text : String} (h : IsName text) :
    ∀ c ∈ text.toList, isInWord c = true := by
  obtain ⟨c, more, htext, hc, hmore, -⟩ := h.exists_letter
  intro d hd
  rw [htext] at hd
  apply isInWord_of_isWordPart
  rw [isWordPart_iff]
  rcases List.mem_cons.mp hd with rfl | hd
  · exact .inl hc
  · exact hmore d hd

/-- A name is not empty. -/
theorem IsName.ne_nil {text : String} (h : IsName text) : text.toList ≠ [] := by
  obtain ⟨c, more, htext, -⟩ := h.exists_letter
  simp [htext]

/-- A literal whose text says what it is: no string, and a number only if it is finite. -/
def Literal.isLegible : Literal → Bool
  | .string _ => false
  | .number value => isFinite value
  | _ => true

/-- A word that can be told from its text. -/
def Word.Legible : Word → Prop
  | .literal value => value.isLegible = true
  | .name text => IsName text
  | .this => True
  | .below => True

/-- The text of a finite number starts with a sign or a digit, and has digits and points
behind it. -/
theorem exists_number_head {x : Float} (h : isFinite x = true) :
    ∃ c rest, (Literal.number x).render.toList = c :: rest ∧ (c.isDigit = true ∨ c = '-') ∧
      ∀ d ∈ rest, d.isDigit = true ∨ d = '.' := by
  obtain ⟨d, hd⟩ := exists_magnitude h
  obtain ⟨text, q, htext, hread, -⟩ := render_number hd
  obtain ⟨c, rest, hcons, hc⟩ := hread.exists_digit
  have hall : ∀ e ∈ text, e.isDigit = true ∨ e = '.' := fun e he => hread.isDigit_or_point he
  rw [htext, NumberFormat.sign]
  split
  · exact ⟨'-', text, rfl, .inr rfl, hall⟩
  · exact ⟨c, rest, hcons, .inl hc, fun e he => hall e (hcons ▸ List.mem_cons_of_mem c he)⟩

/-- The characters of numbers may stand in words. -/
theorem isInWord_of_numeral {c : Char} (h : c.isDigit = true ∨ c = '-' ∨ c = '.') :
    isInWord c = true := by
  rcases h with h | rfl | rfl
  · exact isInWord_of_isWordPart (isWordPart_iff.mpr (.inr (isDigit_iff.mp h)))
  · rfl
  · rfl

/-- The words of fixed spelling. -/
def Word.fixed : List Word :=
  [.literal .nil, .literal (.bool true), .literal (.bool false), .this, .below]

/-- The words of fixed spelling are keywords, or the sign of a superclass. -/
theorem Word.spelling_of_mem_fixed {w : Word} (h : w ∈ Word.fixed) :
    ∃ symbol ∈ .less :: Symbol.keywords, w.text = symbol.spelling.toList := by
  simp only [Word.fixed, List.mem_cons, List.not_mem_nil, or_false] at h
  rcases h with rfl | rfl | rfl | rfl | rfl
  · exact ⟨.nilWord, by decide, rfl⟩
  · exact ⟨.trueWord, by decide, rfl⟩
  · exact ⟨.falseWord, by decide, rfl⟩
  · exact ⟨.thisWord, by decide, rfl⟩
  · exact ⟨.less, by decide, rfl⟩

/-- A word of fixed spelling is found by its text. -/
theorem Word.find?_fixed {w : Word} (h : w ∈ Word.fixed) :
    Word.fixed.find? (·.text == w.text) = some w := by
  simp only [Word.fixed, List.mem_cons, List.not_mem_nil, or_false] at h
  rcases h with rfl | rfl | rfl | rfl | rfl <;> rfl

/-- Words of fixed spelling have different texts. -/
theorem Word.text_inj_of_fixed {w w' : Word} (h : w ∈ Word.fixed) (h' : w' ∈ Word.fixed)
    (htext : w.text = w'.text) : w = w' := by
  have hfind := Word.find?_fixed h
  rw [htext, Word.find?_fixed h'] at hfind
  exact (Option.some.inj hfind).symm

/-- A name is no word of fixed spelling. -/
theorem name_ne_fixed {text : String} (htext : IsName text) {w : Word} (hw : w ∈ Word.fixed) :
    text.toList ≠ w.text := by
  obtain ⟨c, more, hname, hc, -, hword⟩ := htext.exists_letter
  obtain ⟨symbol, hsymbol, hspelling⟩ := Word.spelling_of_mem_fixed hw
  rw [hname, hspelling]
  rcases List.mem_cons.mp hsymbol with rfl | hkeyword
  · intro heq
    rw [(List.cons.inj heq).1, ← isWordStart_iff] at hc
    cases hc
  · exact (hword symbol hkeyword).symm

/-- A number is no word of fixed spelling. -/
theorem number_ne_fixed {x : Float} (hx : isFinite x = true) {w : Word} (hw : w ∈ Word.fixed) :
    (Literal.number x).render.toList ≠ w.text := by
  obtain ⟨c, rest, hnumber, hc, -⟩ := exists_number_head hx
  obtain ⟨symbol, hsymbol, hspelling⟩ := Word.spelling_of_mem_fixed hw
  have hheads : ∀ symbol ∈ .less :: Symbol.keywords,
      symbol.spelling.toList.head?.any (fun c => c.isDigit || c = '-') = false := by decide
  intro heq
  have hhead := hheads symbol hsymbol
  rw [← hspelling, ← heq, hnumber] at hhead
  simp only [List.head?_cons, Option.any_some, Bool.or_eq_false_iff, decide_eq_false_iff_not]
    at hhead
  rcases hc with hdigit | hminus
  · exact Bool.false_ne_true (hhead.1.symm.trans hdigit)
  · exact hhead.2 hminus

/-- A name is no number. -/
theorem name_ne_number {text : String} (htext : IsName text) {x : Float}
    (hx : isFinite x = true) : text.toList ≠ (Literal.number x).render.toList := by
  obtain ⟨c, more, hname, hletter, -⟩ := htext.exists_letter
  obtain ⟨c', rest, hnumber, hc', -⟩ := exists_number_head hx
  rw [hname, hnumber]
  intro heq
  obtain rfl := (List.cons.inj heq).1
  have hclass := classOf_letter (isWordStart_iff.mpr hletter)
  rcases hc' with hdigit | rfl
  · rw [classOf_digit hdigit] at hclass
    cases hclass
  · cases hclass

/-- The three sorts of words that can be told from their texts. -/
theorem Word.Legible.cases {w : Word} (h : w.Legible) :
    w ∈ Word.fixed ∨ (∃ x, w = .literal (.number x) ∧ isFinite x = true) ∨
      ∃ text, w = .name text ∧ IsName text := by
  cases w with
  | literal value =>
    cases value with
    | nil => simp [Word.fixed]
    | bool value => cases value <;> simp [Word.fixed]
    | number x => exact .inr (.inl ⟨x, rfl, h⟩)
    | string => cases h
  | name text => exact .inr (.inr ⟨text, rfl, h⟩)
  | this => simp [Word.fixed]
  | below => simp [Word.fixed]

/-- A word that can be told from its text has no blanks and no parentheses. -/
theorem Word.Legible.isInWord {w : Word} (h : w.Legible) : ∀ c ∈ w.text, isInWord c = true := by
  rcases h.cases with hw | ⟨x, rfl, hx⟩ | ⟨text, rfl, htext⟩
  · obtain ⟨symbol, hsymbol, hspelling⟩ := Word.spelling_of_mem_fixed hw
    have hall : ∀ symbol ∈ .less :: Symbol.keywords, symbol.spelling.toList.all Lox.isInWord := by
      decide
    rw [hspelling]
    exact List.all_eq_true.mp (hall symbol hsymbol)
  · obtain ⟨c, rest, hnumber, hc, hrest⟩ := exists_number_head hx
    rw [Word.text, hnumber, List.forall_mem_cons]
    exact ⟨isInWord_of_numeral (hc.imp_right .inl), fun d hd =>
      isInWord_of_numeral ((hrest d hd).imp_right .inr)⟩
  · exact htext.isInWord

/-- A word that can be told from its text is not empty. -/
theorem Word.Legible.ne_nil {w : Word} (h : w.Legible) : w.text ≠ [] := by
  rcases h.cases with hw | ⟨x, rfl, hx⟩ | ⟨text, rfl, htext⟩
  · obtain ⟨symbol, hsymbol, hspelling⟩ := Word.spelling_of_mem_fixed hw
    have hsome : ∀ symbol ∈ .less :: Symbol.keywords, symbol.spelling.toList ≠ [] := by decide
    rw [hspelling]
    exact hsome symbol hsymbol
  · obtain ⟨c, rest, hnumber, -⟩ := exists_number_head hx
    simp [Word.text, hnumber]
  · exact htext.ne_nil

/-- A word can be told from its text. -/
theorem Word.Legible.eq {w w' : Word} (h : w.Legible) (h' : w'.Legible) (htext : w.text = w'.text) :
    w = w' := by
  rcases h.cases with hw | ⟨x, rfl, hx⟩ | ⟨name, rfl, hname⟩ <;>
    rcases h'.cases with hw' | ⟨y, rfl, hy⟩ | ⟨name', rfl, hname'⟩
  · exact Word.text_inj_of_fixed hw hw' htext
  · exact absurd htext.symm (number_ne_fixed hy hw)
  · exact absurd htext.symm (name_ne_fixed hname' hw)
  · exact absurd htext (number_ne_fixed hx hw')
  · rw [render_number_inj hx hy htext]
  · exact absurd htext.symm (name_ne_number hname' hx)
  · exact absurd htext (name_ne_fixed hname hw')
  · exact absurd htext (name_ne_number hname hy)
  · rw [String.toList_inj.mp htext]

/-- The symbols that are no keywords. -/
def Symbol.signs : List Symbol :=
  [.leftParen, .rightParen, .leftBrace, .rightBrace, .comma, .dot, .minus, .plus, .semicolon,
    .slash, .star, .bang, .bangEqual, .equal, .equalEqual, .greater, .greaterEqual, .less,
    .lessEqual]

/-- The words that a node can start with. -/
def Head.all : List Head :=
  .group :: .call :: .block :: (Symbol.keywords ++ Symbol.signs).map .symbol

/-- The word that a node starts with is found by its text. -/
theorem Head.find?_all (head : Head) : Head.all.find? (·.text == head.text) = some head := by
  cases head with
  | group => rfl
  | call => rfl
  | block => rfl
  | symbol symbol => cases symbol <;> rfl

/-- Words that nodes start with have different texts. -/
theorem Head.text_inj {head head' : Head} (h : head.text = head'.text) : head = head' := by
  have hfind := head.find?_all
  rw [h, head'.find?_all] at hfind
  exact (Option.some.inj hfind).symm

end Lox

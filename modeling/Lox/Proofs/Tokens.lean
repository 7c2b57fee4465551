import Mathlib.Data.List.Basic
import Lox.Proofs.Scope
import Lox.Token.Scan

/-!
# Tokens of texts

What holds of the items of every text: the end of the input is the last of them
and stands nowhere else, and no identifier is spelled like a keyword. Lines are
counted from the line of the first character, so the items of a text further
down differ in their lines only. A line break ends every piece that is not in
quotes, so two texts with a line break between them are read one after the
other, unless the first leaves a quote open.
-/

namespace Lox

/-! ### First pieces -/

/-- As many characters as a leading run has are that run. -/
theorem take_length_takeWhile {α : Type} (p : α → Bool) (xs : List α) :
    xs.take (xs.takeWhile p).length = xs.takeWhile p :=
  (List.prefix_iff_eq_take.1 (List.takeWhile_prefix p)).symm

/-- A leading run is no longer than the text. -/
theorem length_takeWhile_le {α : Type} (p : α → Bool) (xs : List α) :
    (xs.takeWhile p).length ≤ xs.length :=
  (List.takeWhile_prefix p).length_le

/-- A word that is no keyword is a name that a program can choose. -/
theorem isPlain_of_ofWord? {word : List Char} (h : Symbol.ofWord? word = none) :
    IsPlain (String.ofList word) := by
  rw [Symbol.ofWord?, List.find?_eq_none] at h
  have hne : ∀ keyword ∈ Symbol.keywords, String.ofList word ≠ keyword.spelling := by
    intro keyword hkeyword hword
    refine h keyword hkeyword ?_
    rw [← hword, String.toList_ofList]
    exact beq_self_eq_true word
  exact ⟨hne .thisWord (by decide), hne .superWord (by decide)⟩

/-- The first piece of a text is never the end of the input, and it is an
identifier only if its text is no keyword. -/
theorem firstPiece_kind {c : Char} {rest : List Char} {kind : Token.Kind} {more : Nat}
    (h : firstPiece c rest = (.token kind, more)) :
    kind ≠ .finish ∧ (kind = .identifier → Symbol.ofWord? (c :: rest.take more) = none) := by
  have hsymbol : ∀ {s : Symbol} {k : Nat}, (Piece.token (.symbol s), k) = (.token kind, more) →
      kind ≠ .finish ∧ (kind = .identifier → Symbol.ofWord? (c :: rest.take more) = none) := by
    intro s k hs
    cases hs
    exact ⟨nofun, nofun⟩
  unfold firstPiece at h
  split at h
  · cases h
  split at h
  · split at h
    · cases h
    · exact hsymbol h
  split at h
  · unfold stringPiece at h
    dsimp only at h
    split at h
    · cases h
      exact ⟨nofun, nofun⟩
    · cases h
  split at h
  · cases h
    exact ⟨nofun, nofun⟩
  split at h
  · unfold wordPiece at h
    cases h
    rw [take_length_takeWhile]
    cases Symbol.ofWord? (c :: rest.takeWhile isWordPart) with
    | none => exact ⟨nofun, fun _ => rfl⟩
    | some keyword => exact ⟨nofun, nofun⟩
  split at h
  · exact hsymbol h
  · split at h
    · exact hsymbol h
    · exact hsymbol h
  · cases h

/-- Digits after a point have the point before them. -/
theorem fractionDigits_length_le (text : List Char) :
    (fractionDigits text).isEmpty ∨ 1 + (fractionDigits text).length ≤ text.length := by
  unfold fractionDigits
  split
  · rename_i rest
    have hle := length_takeWhile_le Char.isDigit rest
    rw [List.length_cons]
    omega
  · exact .inl rfl

/-- A piece is part of its text. -/
theorem firstPiece_length_le (c : Char) (rest : List Char) :
    (firstPiece c rest).2 ≤ rest.length := by
  unfold firstPiece
  split
  · exact Nat.zero_le _
  split
  · split
    · exact length_takeWhile_le _ rest
    · exact Nat.zero_le _
  split
  · have hle := length_takeWhile_le (· ≠ '"') rest
    unfold stringPiece
    dsimp only
    split
    · omega
    · exact hle
  split
  · unfold numberPiece
    have hsplit := congrArg List.length
      (List.takeWhile_append_dropWhile (p := Char.isDigit) (l := rest))
    have hfraction := fractionDigits_length_le (rest.dropWhile Char.isDigit)
    rw [List.length_append] at hsplit
    dsimp only
    split
    · omega
    · rcases hfraction with h | h
      · contradiction
      · omega
  split
  · exact length_takeWhile_le _ rest
  split
  · exact Nat.zero_le _
  · split
    · rename_i h
      cases rest with
      | nil => cases h
      | cons d rest => exact Nat.succ_le_succ (Nat.zero_le _)
    · exact Nat.zero_le _
  · exact Nat.zero_le _

/-! ### Texts one after the other -/

section Seam

variable {p : Char → Bool} (xs tail : List Char)

/-- A leading run without line breaks ends at a line break, whatever comes after it. -/
theorem takeWhile_append_break (hp : p '\n' = false) :
    (xs ++ '\n' :: tail).takeWhile p = xs.takeWhile p := by
  induction xs with
  | nil => simp [hp]
  | cons x xs ih =>
    rw [List.cons_append, List.takeWhile_cons, List.takeWhile_cons, ih]

/-- What is left behind a leading run without line breaks goes on up to the line break and
beyond it. -/
theorem dropWhile_append_break (hp : p '\n' = false) :
    (xs ++ '\n' :: tail).dropWhile p = xs.dropWhile p ++ '\n' :: tail := by
  induction xs with
  | nil => simp [hp]
  | cons x xs ih =>
    rw [List.cons_append, List.dropWhile_cons, List.dropWhile_cons, ih]
    split <;> rfl

/-- A line break ends the digits after a point. -/
theorem fractionDigits_append_break :
    fractionDigits (xs ++ '\n' :: tail) = fractionDigits xs := by
  cases xs with
  | nil => rfl
  | cons x xs =>
    by_cases hx : x = '.'
    · subst hx
      exact takeWhile_append_break xs tail rfl
    · have hnone : ∀ ys, fractionDigits (x :: ys) = [] := by
        intro ys
        unfold fractionDigits
        split
        · rename_i h
          cases h
          exact absurd rfl hx
        · rfl
      rw [List.cons_append, hnone, hnone]

/-- A first character that is no line break comes before the first line break. -/
theorem head?_append_break {c : Char} (hc : c ≠ '\n') :
    ((xs ++ '\n' :: tail).head? = some c) = (xs.head? = some c) := by
  cases xs with
  | nil => simpa using Ne.symm hc
  | cons x xs => rfl

/-- A string that is closed is read alike whatever follows. -/
theorem stringPiece_append_break (h : (stringPiece xs).1 ≠ .bad .unterminatedString) :
    stringPiece (xs ++ '\n' :: tail) = stringPiece xs := by
  unfold stringPiece at h ⊢
  dsimp only at h ⊢
  split at h
  · rename_i hclosed
    have htake : (xs ++ '\n' :: tail).takeWhile (· ≠ '"') = xs.takeWhile (· ≠ '"') := by
      rw [List.takeWhile_append, if_neg (Nat.ne_of_lt hclosed)]
    have hlonger : (xs.takeWhile (· ≠ '"')).length < (xs ++ '\n' :: tail).length := by
      rw [List.length_append]
      omega
    rw [htake, if_pos hlonger, if_pos hclosed]
  · exact absurd rfl h

/-- A line break ends the first piece of a text. -/
theorem firstPiece_append_break {c : Char}
    (h : (firstPiece c xs).1 ≠ .bad .unterminatedString) :
    firstPiece c (xs ++ '\n' :: tail) = firstPiece c xs := by
  have hnumber : numberPiece c (xs ++ '\n' :: tail) = numberPiece c xs := by
    unfold numberPiece
    rw [takeWhile_append_break xs tail rfl, dropWhile_append_break xs tail rfl,
      fractionDigits_append_break]
  have hword : wordPiece c (xs ++ '\n' :: tail) = wordPiece c xs := by
    unfold wordPiece
    rw [takeWhile_append_break xs tail rfl]
  have hstring : c = '"' → stringPiece (xs ++ '\n' :: tail) = stringPiece xs := by
    intro hc
    refine stringPiece_append_break xs tail ?_
    subst hc
    exact h
  have hslash := head?_append_break xs tail (c := '/') (by decide)
  have hequal := head?_append_break xs tail (c := '=') (by decide)
  have hcomment : (xs ++ '\n' :: tail).takeWhile (· ≠ '\n') = xs.takeWhile (· ≠ '\n') :=
    takeWhile_append_break xs tail rfl
  unfold firstPiece
  simp only [hslash, hequal, hcomment, hnumber, hword]
  by_cases hc : c = '"'
  · rw [hstring hc]
  · rw [if_neg hc, if_neg hc]

end Seam

/-! ### Items -/

/-- A token as it is, further down by a number of lines. -/
def Token.shift (l : Nat) (token : Token) : Token := { token with line := token.line + l }

/-- An item as it is, further down by a number of lines. -/
def Item.shift (l : Nat) : Item → Item
  | .token t => .token (t.shift l)
  | .bad line cause => .bad (line + l) cause

/-- The item of a piece is moved along with the line that it starts on. -/
theorem Piece.item?_shift (piece : Piece) (text : List Char) (line l : Nat) :
    piece.item? text (line + l) = (piece.item? text line).map (Item.shift l) := by
  cases piece <;> rfl

/-- One round of the scanner: the first piece, and then what follows it on the line where
it ends. -/
theorem scanFrom_cons (line : Nat) (c : Char) (rest : List Char) :
    scanFrom line (c :: rest) =
      ((firstPiece c rest).1.item? (c :: rest.take (firstPiece c rest).2)
        (line + lineBreaks (c :: rest.take (firstPiece c rest).2))).toList ++
      scanFrom (line + lineBreaks (c :: rest.take (firstPiece c rest).2))
        (rest.drop (firstPiece c rest).2) := by
  rw [scanFrom]

/-- Texts are cut into pieces from the front. -/
theorem pieces_induction {motive : List Char → Prop} (nil : motive [])
    (cons : ∀ c rest, motive (rest.drop (firstPiece c rest).2) → motive (c :: rest))
    (text : List Char) : motive text := by
  induction hn : text.length using Nat.strongRecOn generalizing text with
  | ind n ih =>
    cases text with
    | nil => exact nil
    | cons c rest =>
      refine cons c rest (ih _ ?_ _ rfl)
      rw [← hn, List.length_drop, List.length_cons]
      omega

/-- The items of a text further down. -/
theorem scanFrom_shift (text : List Char) (line l : Nat) :
    scanFrom (line + l) text = (scanFrom line text).map (Item.shift l) := by
  induction text using pieces_induction generalizing line with
  | nil =>
    rw [scanFrom, scanFrom]
    rfl
  | cons c rest ih =>
    rw [scanFrom_cons, scanFrom_cons, List.map_append, ← ih, Nat.add_right_comm line l,
      Piece.item?_shift]
    cases (firstPiece c rest).1.item? _ _ <;> rfl

/-- A token that is not the end of the input, and no keyword if it is a name. -/
structure Token.IsProper (token : Token) : Prop where
  /-- It is no end of the input. -/
  isFinish : token.isFinish = false
  /-- An identifier is no keyword. -/
  plain : token.kind = .identifier → IsPlain token.lexeme

/-- The line breaks of a text are those of a piece of it and of the rest. -/
theorem lineBreaks_cons_take (c : Char) (rest : List Char) (k : Nat) :
    lineBreaks (c :: rest.take k) + lineBreaks (rest.drop k) = lineBreaks (c :: rest) := by
  unfold lineBreaks
  rw [← List.count_append, List.cons_append, List.take_append_drop]

/-- The items of a text before the end of the input, which is on its last line.
A text after a line break is read behind them, if no quote is open. -/
theorem scanFrom_eq (text : List Char) (line : Nat) :
    ∃ items, scanFrom line text = items ++ [.token (Token.finishAt (line + lineBreaks text))] ∧
      (∀ t, Item.token t ∈ items → t.IsProper) ∧
      ((∀ l, Item.bad l .unterminatedString ∉ items) → ∀ tail,
        scanFrom line (text ++ '\n' :: tail) =
          items ++ scanFrom (line + lineBreaks text + 1) tail) := by
  induction text using pieces_induction generalizing line with
  | nil =>
    refine ⟨[], by rw [scanFrom]; rfl, nofun, fun _ tail => ?_⟩
    rw [List.nil_append, scanFrom_cons]
    rfl
  | cons c rest ih =>
    rw [scanFrom_cons]
    generalize htext : c :: rest.take (firstPiece c rest).2 = text
    obtain ⟨items, hitems, hproper, hseam⟩ := ih (line + lineBreaks text)
    have hlines : line + lineBreaks text + lineBreaks (rest.drop (firstPiece c rest).2) =
        line + lineBreaks (c :: rest) := by
      rw [Nat.add_assoc, ← htext, lineBreaks_cons_take]
    rw [hlines] at hitems hseam
    refine ⟨((firstPiece c rest).1.item? text (line + lineBreaks text)).toList ++ items, ?_, ?_, ?_⟩
    · rw [hitems, List.append_assoc]
    · intro t ht
      rcases List.mem_append.1 ht with ht | ht
      · cases hpiece : firstPiece c rest with
        | mk piece more =>
          rw [hpiece] at ht htext
          cases piece with
          | trivia => cases ht
          | bad cause => simp [Piece.item?] at ht
          | token kind =>
            obtain ⟨hkind, hplain⟩ := firstPiece_kind hpiece
            have ht' : t = ⟨kind, String.ofList text, line + lineBreaks text⟩ := by
              simpa [Piece.item?] using ht
            subst ht'
            refine ⟨by simpa [Token.isFinish] using hkind, fun hname => ?_⟩
            exact htext ▸ isPlain_of_ofWord? (hplain hname)
      · exact hproper t ht
    · intro hclosed tail
      have hfirst : (firstPiece c rest).1 ≠ .bad .unterminatedString := by
        intro hbad
        refine hclosed (line + lineBreaks text) (List.mem_append_left _ ?_)
        rw [hbad]
        exact .head _
      have hle := firstPiece_length_le c rest
      rw [List.cons_append, scanFrom_cons, firstPiece_append_break rest tail hfirst,
        List.take_append_of_le_length hle, List.drop_append_of_le_length hle, htext,
        hseam (fun l hl => hclosed l (List.mem_append_right _ hl)), List.append_assoc]

end Lox

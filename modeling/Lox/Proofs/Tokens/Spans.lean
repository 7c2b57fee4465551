import Lox.Proofs.Tokens.Lexicon

/-!
# Where the pieces of a source stand

A source is cut into spans, each from one boundary between characters to a later one,
so that every byte is in one span. The spans are those that a reader of the lexicon
picks, and there is no other way to cut the source by the lexicon. What is reported
about a span has the text between its boundaries, and the line on which it ends.
Whoever asks for one item at a time gets the same items, and nothing after the end of
the input.
-/

namespace Lox

open Lexicon

variable {source : String}

/-! ### Spans -/

/-- The text between two positions, by what stands before the first and after the
second. -/
theorem extract_of_splits {p q : source.Pos} (before text rest : String)
    (hp : p.Splits before (text ++ rest)) (hq : q.Splits (before ++ text) rest) :
    source.extract p q = text := by
  obtain ⟨hle, htext⟩ := String.copy_slice_eq_iff_splits.2 ⟨before, rest, hp, hq⟩
  rw [String.extract_eq_copy_slice p q hle, htext]

/-- A piece of a source, from one position to a later one. -/
@[ext]
structure Span (source : String) where
  /-- What the piece is. -/
  piece : Piece
  /-- The boundary before its first character. -/
  start : source.Pos
  /-- The boundary after its last character. -/
  stop : source.Pos
  /-- There are characters in between. -/
  nonempty : start < stop

namespace Span

variable (span : Span source)

/-- The text of a piece. -/
def text : String := source.extract span.start span.stop

/-- What follows a piece. -/
def rest : String := source.extract span.stop source.endPos

/-- The line on which a piece ends: one more than there are line breaks before its
end. -/
def line : Nat := 1 + lineBreaks (source.extract source.startPos span.stop).toList

/-- What is reported about a piece. -/
def item? : Option Item := span.piece.item? span.text.toList span.line

/-- A piece that a reader of the lexicon picks where it stands. -/
def IsPicked : Prop := Picks span.piece span.text.toList span.rest.toList

/-- What stands before, in and after a piece. -/
theorem splits : ∃ before, span.start.Splits before (span.text ++ span.rest) ∧
    span.stop.Splits (before ++ span.text) span.rest := by
  have hle := Std.le_of_lt span.nonempty
  have htext : (source.slice span.start span.stop hle).copy = span.text :=
    (String.extract_eq_copy_slice _ _ hle).symm
  obtain ⟨before, rest, hstart, hstop⟩ := String.copy_slice_eq_iff_splits.1 ⟨hle, htext⟩
  have hend : source.endPos.Splits ((before ++ span.text) ++ rest) "" := by
    rw [← hstop.eq_append]
    exact String.splits_endPos source
  have hrest : span.rest = rest := by
    refine extract_of_splits (before ++ span.text) rest "" ?_ hend
    rwa [String.append_empty]
  rw [hrest]
  exact ⟨before, hstart, hstop⟩

/-- The line of a piece is told by the text before its end. -/
theorem line_of_splits {before after : String} (h : span.stop.Splits before after) :
    span.line = 1 + lineBreaks before.toList := by
  have hbefore : source.extract source.startPos span.stop = before := by
    refine extract_of_splits "" before after ?_ ?_
    · rw [← h.eq_append]
      exact String.splits_startPos source
    · rwa [String.empty_append]
  rw [line, hbefore]

end Span

/-! ### Sources cut into spans -/

/-- Spans that follow each other from a position to the end of the source. -/
def Contiguous : source.Pos → List (Span source) → Prop
  | p, [] => p = source.endPos
  | p, span :: spans => span.start = p ∧ Contiguous span.stop spans

/-- A source is cut by the lexicon in one way. -/
theorem Contiguous.unique {p : source.Pos} {spans others : List (Span source)}
    (h : Contiguous p spans) (hpicked : ∀ span ∈ spans, span.IsPicked)
    (h' : Contiguous p others) (hpicked' : ∀ span ∈ others, span.IsPicked) : others = spans := by
  -- A span that starts at the end of the source has nothing to contain.
  have hend : ∀ span : Span source, span.start ≠ source.endPos := by
    intro span heq
    exact absurd span.nonempty (heq ▸ Std.not_lt.2 (String.Pos.le_endPos _))
  induction spans generalizing p others with
  | nil =>
    cases others with
    | nil => rfl
    | cons other others => exact absurd (h'.1.trans h) (hend other)
  | cons span spans ih =>
    cases others with
    | nil => exact absurd (h.1.trans h') (hend span)
    | cons other others =>
      rw [List.forall_mem_cons] at hpicked hpicked'
      have hstart : other.start = span.start := h'.1.trans h.1.symm
      obtain ⟨before, hsplit, hstop⟩ := span.splits
      obtain ⟨before', hsplit', hstop'⟩ := other.splits
      rw [hstart] at hsplit'
      obtain ⟨rfl, hsame⟩ := hsplit.eq hsplit'
      have hlists := congrArg String.toList hsame
      rw [String.toList_append, String.toList_append] at hlists
      obtain ⟨hpiece, htext, hrest⟩ := hpicked.1.unique hpicked'.1 hlists
      rw [String.toList_inj] at htext
      rw [← htext] at hstop'
      have hboundary : other.stop = span.stop := hstop'.pos_eq hstop
      have hspan : other = span := Span.ext hpiece.symm hstart hboundary
      subst hspan
      rw [ih h.2 hpicked.2 h'.2 hpicked'.2]

/-- The items of a text are reported about spans that are picked, and the end of the
input follows them. -/
theorem exists_spans (text : List Char) (before : String) {p : source.Pos}
    (hp : p.Splits before (String.ofList text)) :
    ∃ spans, Contiguous p spans ∧ (∀ span ∈ spans, span.IsPicked) ∧
      scanFrom (1 + lineBreaks before.toList) text =
        spans.filterMap Span.item? ++
          [.token (Token.finishAt (1 + lineBreaks source.toList))] := by
  induction text using pieces_induction generalizing before p with
  | nil =>
    have hbefore : before = source := by
      have happend := hp.eq_append
      rw [String.ofList_nil, String.append_empty] at happend
      exact happend.symm
    refine ⟨[], ?_, List.forall_mem_nil _, ?_⟩
    · exact hp.eq_endPos_iff.2 String.ofList_nil
    · rw [scanFrom, hbefore]
      rfl
  | cons c rest ih =>
    have hpicks := picks_firstPiece c rest
    rw [scanFrom_cons]
    generalize htext : c :: rest.take (firstPiece c rest).2 = text at hpicks ⊢
    generalize hafter : rest.drop (firstPiece c rest).2 = after at hpicks ih ⊢
    have hall : c :: rest = text ++ after := by
      rw [← htext, ← hafter, List.cons_append, List.take_append_drop]
    rw [hall, String.ofList_append] at hp
    have hsource : source = (before ++ String.ofList text) ++ String.ofList after := by
      rw [String.append_assoc]
      exact hp.eq_append
    have hstop := String.Pos.splits_ofEqAppend hsource
    have hfilled : String.ofList text ≠ "" := by
      rw [← htext]
      intro hempty
      simpa using congrArg String.toList hempty
    have hlt := (hp.lt_iff_exists_eq_append hstop).2 ⟨_, hfilled, rfl, rfl⟩
    let span : Span source := ⟨(firstPiece c rest).1, p, _, hlt⟩
    have hspan : span.text = String.ofList text := extract_of_splits _ _ _ hp hstop
    have hlines : 1 + lineBreaks (before ++ String.ofList text).toList =
        1 + lineBreaks before.toList + lineBreaks text := by
      rw [String.toList_append, String.toList_ofList, lineBreaks, List.count_append, Nat.add_assoc]
      rfl
    have hline : span.line = 1 + lineBreaks before.toList + lineBreaks text :=
      (span.line_of_splits hstop).trans hlines
    have hrest : span.rest = String.ofList after := by
      obtain ⟨_, -, hsplit⟩ := span.splits
      exact (hsplit.eq hstop).2
    have hpicked : span.IsPicked := by
      rw [Span.IsPicked, hspan, hrest, String.toList_ofList, String.toList_ofList]
      exact hpicks
    obtain ⟨spans, hspans, hall, hscan⟩ := ih (before ++ String.ofList text) hstop
    have hitem : (firstPiece c rest).1.item? text (1 + lineBreaks before.toList + lineBreaks text) =
        span.item? := by
      rw [Span.item?, hspan, hline, String.toList_ofList]
    refine ⟨span :: spans, ⟨rfl, hspans⟩, List.forall_mem_cons.2 ⟨hpicked, hall⟩, ?_⟩
    rw [hlines] at hscan
    rw [hscan, hitem, List.filterMap_cons]
    cases span.item? <;> rfl

/-! ### One item at a time -/

/-- A reader that is asked for one item after the other. -/
structure Scanner where
  /-- The text that was not yet read. -/
  rest : List Char
  /-- The line of its first character. -/
  line : Nat
  /-- Whether the end of the input was handed out. -/
  isFinished : Bool

namespace Scanner

/-- A reader before its first item. -/
def ofSource (source : String) : Scanner := ⟨source.toList, 1, false⟩

/-- The first item of a text, if there is one before the end of the input, with what
follows it and the line there. -/
def seek (line : Nat) : List Char → Option Item × List Char × Nat
  | [] => (none, [], line)
  | c :: rest =>
    let (piece, more) := firstPiece c rest
    let text := c :: rest.take more
    let lastLine := line + lineBreaks text
    match piece.item? text lastLine with
    | some item => (some item, rest.drop more, lastLine)
    | none => seek lastLine (rest.drop more)
termination_by text => text.length
decreasing_by simp only [List.length_drop, List.length_cons]; omega

/-- The next item: the end of the input is handed out once, and nothing after it. -/
def next (scanner : Scanner) : Option Item × Scanner :=
  match seek scanner.line scanner.rest with
  | (some item, rest, line) => (some item, ⟨rest, line, scanner.isFinished⟩)
  | (none, rest, line) =>
    (if scanner.isFinished then none else some (.token (Token.finishAt line)), ⟨rest, line, true⟩)

/-- The reader after some items. -/
def after (scanner : Scanner) : Nat → Scanner
  | 0 => scanner
  | n + 1 => scanner.next.2.after n

/-- A reader skips pieces that report nothing, up to the first one that does. -/
theorem seek_cons (line : Nat) (c : Char) (rest : List Char) :
    seek line (c :: rest) =
      match (firstPiece c rest).1.item? (c :: rest.take (firstPiece c rest).2)
        (line + lineBreaks (c :: rest.take (firstPiece c rest).2)) with
      | some item => (some item, rest.drop (firstPiece c rest).2,
          line + lineBreaks (c :: rest.take (firstPiece c rest).2))
      | none => seek (line + lineBreaks (c :: rest.take (firstPiece c rest).2))
          (rest.drop (firstPiece c rest).2) := by
  rw [seek]

/-- The first item of a text is followed by the items of what is left. -/
theorem scanFrom_seek (line : Nat) (text : List Char) :
    match seek line text with
    | (some item, rest, l) => scanFrom line text = item :: scanFrom l rest
    | (none, rest, l) => rest = [] ∧ scanFrom line text = [.token (Token.finishAt l)] := by
  induction text using pieces_induction generalizing line with
  | nil =>
    rw [seek, scanFrom]
    exact ⟨rfl, rfl⟩
  | cons c rest ih =>
    rw [seek_cons, scanFrom_cons]
    generalize line + lineBreaks (c :: rest.take (firstPiece c rest).2) = last
    cases (firstPiece c rest).1.item? (c :: rest.take (firstPiece c rest).2) last with
    | some item => rfl
    | none => exact ih last

/-- The items that a reader has not yet handed out. -/
def items (scanner : Scanner) : List Item :=
  if scanner.isFinished then [] else scanFrom scanner.line scanner.rest

/-- A reader hands out the first of its items and keeps the others. After the end of
the input it has nothing left to read. -/
theorem next_spec {scanner : Scanner} (h : scanner.isFinished = true → scanner.rest = []) :
    scanner.next.1 = scanner.items.head? ∧ scanner.next.2.items = scanner.items.tail ∧
      (scanner.next.2.isFinished = true → scanner.next.2.rest = []) := by
  have hseek := scanFrom_seek scanner.line scanner.rest
  obtain ⟨text, line, isFinished⟩ := scanner
  unfold next items
  dsimp only at h hseek ⊢
  revert hseek
  cases isFinished with
  | true =>
    rw [h rfl, seek]
    exact fun _ => ⟨rfl, rfl, fun _ => rfl⟩
  | false =>
    obtain ⟨found, rest, l⟩ := seek line text
    cases found with
    | some item =>
      intro hseek
      rw [hseek]
      exact ⟨rfl, rfl, nofun⟩
    | none =>
      rintro ⟨rfl, hscan⟩
      rw [hscan]
      exact ⟨rfl, rfl, fun _ => rfl⟩

/-- Asking again and again gives the items of a source one by one. -/
theorem next_after (scanner : Scanner) (h : scanner.isFinished = true → scanner.rest = [])
    (n : Nat) : (scanner.after n).next.1 = scanner.items[n]? := by
  obtain ⟨hfirst, hothers, hkept⟩ := next_spec h
  induction n generalizing scanner with
  | zero => rw [after, hfirst, List.head?_eq_getElem?]
  | succ n ih =>
    obtain ⟨hfirst', hothers', hkept'⟩ := next_spec hkept
    rw [after, ih _ hkept hfirst' hothers' hkept', hothers, List.getElem?_tail]

end Scanner

/-- Reading a source is lossless and follows the lexicon. The source is cut into spans
that a reader of the lexicon picks, one after the other from its first byte to its
last, and it can be cut in no other way. The items are what is reported about the
spans, each with the text of its span and the line on which it ends, and then the end
of the input, which is no item of a span. Asked for one item at a time, a reader hands
out these items and nothing after them. -/
theorem scan_follows_lexicon (source : String) :
    ∃ spans : List (Span source),
      Contiguous source.startPos spans ∧ (∀ span ∈ spans, span.IsPicked) ∧
      (∀ others, Contiguous source.startPos others → (∀ span ∈ others, span.IsPicked) →
        others = spans) ∧
      scan source = spans.filterMap Span.item? ++
        [.token (Token.finishAt (1 + lineBreaks source.toList))] ∧
      (∀ token, .token token ∈ spans.filterMap Span.item? → token.isFinish = false) ∧
      ∀ n, ((Scanner.ofSource source).after n).next.1 = (scan source)[n]? := by
  have hstart : source.startPos.Splits "" (String.ofList source.toList) := by
    rw [String.ofList_toList]
    exact String.splits_startPos source
  obtain ⟨spans, hspans, hpicked, hscan⟩ := exists_spans source.toList "" hstart
  refine ⟨spans, hspans, hpicked, fun others h' hpicked' => hspans.unique hpicked h' hpicked',
    hscan, fun token htoken => ?_, fun n => ?_⟩
  · obtain ⟨items, hitems, hproper, -⟩ := scanFrom_eq source.toList 1
    rw [show 1 + lineBreaks "".toList = 1 from rfl, hitems] at hscan
    rw [← (List.append_inj' hscan rfl).1] at htoken
    exact (hproper token htoken).isFinish
  · exact Scanner.next_after _ (fun h => absurd h Bool.false_ne_true) n

end Lox

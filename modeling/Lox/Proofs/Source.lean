import Lox.Program
import Lox.Proofs.Grammar.Acceptance
import Lox.Proofs.Shift

/-!
# Programs of sources

What a source is read as, when nothing is wrong with it: its tokens derive its
trees. The identity that reading starts from decides nothing but the identities
in the trees. Two sources with a line break between them are read as the one
program and then the other, further down.
-/

namespace Lox

open Grammar

/-- The tokens of a source that has nothing but tokens, blanks and comments. -/
structure Scanned (source : String) (ts : List Token) : Prop where
  /-- Scanning finds the tokens and the end of the input, and nothing else. -/
  items : scan source = ts.map .token ++ [.token (Token.finishAt (1 + lineBreaks source.toList))]
  /-- The tokens are those that scanning makes. -/
  proper : ∀ t ∈ ts, t.IsProper

/-- Items without a diagnostic are tokens. -/
theorem Item.eq_map_token {items : List Item} (h : Item.diagnostics items = []) :
    ∃ ts : List Token, items = ts.map .token := by
  induction items with
  | nil => exact ⟨[], rfl⟩
  | cons item rest ih =>
    cases item with
    | bad line cause => cases h
    | token t =>
      obtain ⟨ts, hts⟩ := ih h
      exact ⟨t :: ts, by rw [hts]; rfl⟩

/-- Diagnostics of two stretches of items are those of each. -/
theorem Item.diagnostics_append (a b : List Item) :
    Item.diagnostics (a ++ b) = Item.diagnostics a ++ Item.diagnostics b :=
  List.filterMap_append

/-- Tokens alone have no diagnostics. -/
theorem Item.diagnostics_map_token (ts : List Token) :
    Item.diagnostics (ts.map .token) = [] := by
  induction ts with
  | nil => rfl
  | cons t rest ih => exact ih

/-- Tokens alone are the tokens among them. -/
theorem Item.tokens_map_token (ts : List Token) : Item.tokens (ts.map .token) = ts := by
  induction ts with
  | nil => rfl
  | cons t rest ih => exact congrArg (t :: ·) ih

/-- A source without lexical errors is scanned to tokens. -/
theorem scanned_of_diagnostics {source : String} (h : Item.diagnostics (scan source) = []) :
    ∃ ts, Scanned source ts := by
  obtain ⟨items, hitems, hproper, -⟩ := scanFrom_eq source.toList 1
  have hscan : scan source = items ++ [.token (Token.finishAt (1 + lineBreaks source.toList))] :=
    hitems
  rw [hscan, Item.diagnostics_append, List.append_eq_nil_iff] at h
  obtain ⟨ts, rfl⟩ := Item.eq_map_token h.1
  exact ⟨ts, hscan, fun t ht => hproper t (List.mem_map_of_mem ht)⟩

namespace Scanned

variable {source first second : String} {ts us : List Token}

/-- Names that are read from a source are none of the keywords. -/
theorem plainNames (h : Scanned source ts) : PlainNames ts :=
  fun t ht => (h.proper t ht).plain

/-- The tokens of such a source are read with the end of the file behind them. -/
theorem tokens (h : Scanned source ts) :
    Item.tokens (scan source) = ts ++ [Token.finishAt (1 + lineBreaks source.toList)] := by
  have hscan : scan source =
      (ts ++ [Token.finishAt (1 + lineBreaks source.toList)]).map .token := by
    rw [h.items, List.map_append]
    rfl
  rw [hscan, Item.tokens_map_token]

/-- Such a source has no lexical errors. -/
theorem diagnostics (h : Scanned source ts) : Item.diagnostics (scan source) = [] := by
  rw [h.items, Item.diagnostics_append, Item.diagnostics_map_token]
  rfl

/-- The items of two sources with a line break between them, whatever is wrong with the
second. -/
theorem scan_append (h : Scanned first ts) (second : String) :
    scan (first ++ "\n" ++ second) =
      ts.map .token ++ (scan second).map (Item.shift (lineBreaks first.toList + 1)) := by
  have htext : (first ++ "\n" ++ second).toList = first.toList ++ '\n' :: second.toList := by
    rw [String.toList_append, String.toList_append, List.append_assoc]
    rfl
  obtain ⟨items, hitems, -, hseam⟩ := scanFrom_eq first.toList 1
  have hsame : items = ts.map .token :=
    List.append_cancel_right (hitems.symm.trans h.items)
  subst hsame
  have hclosed : ∀ l, Item.bad l .unterminatedString ∉ ts.map Item.token := by
    intro l hl
    obtain ⟨t, -, ht⟩ := List.mem_map.1 hl
    cases ht
  have hsecond : scanFrom (1 + lineBreaks first.toList + 1) second.toList =
      (scan second).map (Item.shift (lineBreaks first.toList + 1)) := by
    rw [Nat.add_assoc, scanFrom_shift]
    rfl
  rw [scan, htext, hseam hclosed, hsecond]

/-- The tokens of two sources with a line break between them. -/
theorem append (h : Scanned first ts) (h' : Scanned second us) :
    Scanned (first ++ "\n" ++ second)
      (ts ++ us.map (·.shift (lineBreaks first.toList + 1))) := by
  have hbreaks : lineBreaks (first ++ "\n" ++ second).toList =
      lineBreaks second.toList + (lineBreaks first.toList + 1) := by
    rw [String.toList_append, String.toList_append, lineBreaks, List.count_append,
      List.count_append]
    change lineBreaks first.toList + 1 + lineBreaks second.toList = _
    omega
  constructor
  · rw [h.scan_append, h'.items, hbreaks, List.map_append, List.map_append, List.append_assoc,
      List.map_map, List.map_map, ← Nat.add_assoc 1]
    rfl
  · intro t ht
    rcases List.mem_append.1 ht with ht | ht
    · exact h.proper t ht
    · obtain ⟨u, hu, rfl⟩ := List.mem_map.1 ht
      exact ⟨(h'.proper u hu).isFinish, (h'.proper u hu).plain⟩

end Scanned

/-- Reading a program uses up identities and gives none back. -/
theorem le_nextId_parseTokens (tokens : List Token) (n : Nat) :
    n ≤ (parseTokens tokens n).nextId := by
  have hread := Parse.reads_program (Cursor.ofTokens tokens n) (Cursor.isFinish_ofTokens tokens n)
  unfold parseTokens
  revert hread
  cases Parse.program (Cursor.ofTokens tokens n) with
  | ok ss after => exact fun hread => hread.1.nextId
  | error e after => exact fun hread => hread.nextId

namespace Program

variable {source first second : String} {n m k : Nat}

/-- A source whose tokens derive a program is read as that program. -/
theorem ofSource_of_derives {ts : List Token} {ss : List Stmt} (hs : Scanned source ts)
    (h : (Sentence.declarations ss).Derives true n ts m) : ofSource source n = ⟨ss, [], m⟩ := by
  have hparse := parseTokens_of_derives (fun t ht => (hs.proper t ht).isFinish)
    (f := Token.finishAt (1 + lineBreaks source.toList)) rfl h
  rw [ofSource, ofItems, hs.tokens, hparse, hs.diagnostics]
  rfl

/-- A source that is read without a diagnostic derives its trees. -/
theorem derives_of_diagnostics (h : (ofSource source n).diagnostics = []) :
    ∃ ts, Scanned source ts ∧ (Sentence.declarations (ofSource source n).statements).Derives true
      n ts (ofSource source n).nextId := by
  obtain ⟨hitems, herrors⟩ := List.append_eq_nil_iff.1 h
  obtain ⟨ts, hs⟩ := scanned_of_diagnostics hitems
  have hread := derives_of_errors_eq_nil (n := n) (fun t ht => (hs.proper t ht).isFinish)
    (f := Token.finishAt (1 + lineBreaks source.toList)) rfl
  rw [← hs.tokens] at hread
  exact ⟨ts, hs, hread (List.map_eq_nil_iff.1 herrors)⟩

/-- No identity is handed out twice, whatever is wrong with a source. -/
theorem le_nextId (source : String) (n : Nat) : n ≤ (ofSource source n).nextId :=
  le_nextId_parseTokens _ n

end Program

/-- Programs one after the other. -/
theorem Grammar.Sentence.Derives.append {nearest : Bool} {ss ss' : List Stmt} {n m k : Nat}
    {ts us : List Token} (h : (Sentence.declarations ss).Derives nearest n ts m)
    (h' : (Sentence.declarations ss').Derives nearest m us k) :
    (Sentence.declarations (ss ++ ss')).Derives nearest n (ts ++ us) k := by
  induction ss generalizing n ts with
  | nil =>
    cases h
    exact h'
  | cons s ss ih =>
    cases h with
    | declarations hs hss =>
      rw [List.append_assoc]
      exact .declarations hs (ih hss)

namespace Program

variable {source first second : String} {n m k : Nat}

/-- Where identities start decides nothing but the identities. -/
theorem ofSource_renumber (h : (ofSource source n).diagnostics = []) (k : Nat) :
    ofSource source k =
      ⟨Stmt.shiftList (fun id => id - n + k) 0 (ofSource source n).statements, [],
        (ofSource source n).nextId - n + k⟩ := by
  obtain ⟨ts, hs, hderives⟩ := derives_of_diagnostics h
  have hcounts : Counts (fun id => id - n + k) n := by
    intro id hid
    dsimp only
    omega
  have hmoved := hderives.shift 0 hcounts
  have hsame : ts.map (·.shift 0) = ts := List.map_id ts
  have hstart : n - n + k = k := by omega
  rw [hsame, hstart] at hmoved
  exact ofSource_of_derives hs hmoved

/-- Whether some local variable of a source is assigned to by its initializer. -/
def assignsOwnInitializer (source : String) : Bool :=
  Stmt.assignsOwnInitializerList false (ofSource source 0).statements

/-- Whether an initializer assigns to its own variable is read off the source alone, since
identities play no part in it. -/
theorem assignsOwnInitializer_eq (h : (ofSource source n).diagnostics = []) :
    Stmt.assignsOwnInitializerList false (ofSource source n).statements =
      assignsOwnInitializer source := by
  rw [assignsOwnInitializer, ofSource_renumber h 0, Stmt.assignsOwnInitializerList_shift]

/-- Two sources with a line break between them are read one after the other. -/
theorem ofSource_append (h : (ofSource first n).diagnostics = [])
    (h' : (ofSource second (ofSource first n).nextId).diagnostics = []) :
    ofSource (first ++ "\n" ++ second) n =
      ⟨(ofSource first n).statements ++ Stmt.shiftList id (lineBreaks first.toList + 1)
          (ofSource second (ofSource first n).nextId).statements, [],
        (ofSource second (ofSource first n).nextId).nextId⟩ := by
  obtain ⟨ts, hs, hderives⟩ := derives_of_diagnostics h
  obtain ⟨us, hs', hderives'⟩ := derives_of_diagnostics h'
  have hmoved := hderives'.shift (lineBreaks first.toList + 1) (g := id) fun _ _ => rfl
  exact ofSource_of_derives (hs.append hs') (hderives.append hmoved)

end Program

end Lox

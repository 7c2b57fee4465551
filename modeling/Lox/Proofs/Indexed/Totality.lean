import Mathlib.Data.List.TakeWhile
import Lox.Proofs.Indexed.Rules

/-!
# Reading ends, within the tokens

Whatever tokens there are, in whatever order, reading them by position comes to an end. No
access is out of range, and the position goes up to the first end of the input and not
past it. Each declaration on the way moves it on, also one that fails.
-/

namespace Lox

namespace Indexed

variable {tokens : List Token} {nextId : Nat}

/-- Nothing but an end of the input is put behind the tokens. -/
theorem closed_eq_append (tokens : List Token) :
    ∃ added, (closed tokens).toList = tokens ++ added := by
  unfold closed
  split
  · split
    · exact ⟨[], by simp⟩
    · exact ⟨[_], rfl⟩
  · exact ⟨[Token.finishAt 1], by simp_all⟩

/-- Tokens without an end of the input get one. -/
theorem closed_of_open (h : ∀ token ∈ tokens, token.isFinish = false) :
    (closed tokens).toList = tokens ++ [(Cursor.ofTokens tokens nextId).finish] := by
  have hfind : tokens.find? (·.isFinish) = none :=
    List.find?_eq_none.2 fun token htoken => by simp [h token htoken]
  unfold closed Cursor.ofTokens
  rw [hfind]
  cases hlast : tokens.getLast? with
  | none => simp [List.getLast?_eq_none_iff.1 hlast]
  | some token => simp [h token (List.mem_of_getLast? hlast)]

/-- The tokens of a cursor come first, and the end of the input behind them. -/
theorem closed_split (tokens : List Token) (nextId : Nat) :
    ∃ rest, (closed tokens).toList =
      (Cursor.ofTokens tokens nextId).ahead ++ (Cursor.ofTokens tokens nextId).finish :: rest := by
  cases hfind : tokens.find? (·.isFinish) with
  | some finish =>
    obtain ⟨hfinish, before, behind, rfl, hbefore⟩ := List.find?_eq_some_iff_append.1 hfind
    obtain ⟨added, hadded⟩ := closed_eq_append (before ++ finish :: behind)
    have hahead : (Cursor.ofTokens (before ++ finish :: behind) nextId).ahead = before := by
      unfold Cursor.ofTokens
      dsimp only
      rw [List.takeWhile_append_of_pos hbefore]
      simp [hfinish]
    refine ⟨behind ++ added, ?_⟩
    rw [hadded, hahead, Cursor.ofTokens, hfind]
    simp
  | none =>
    have hopen : ∀ token ∈ tokens, token.isFinish = false := by
      intro token htoken
      simpa using List.find?_eq_none.1 hfind token htoken
    have hahead : (Cursor.ofTokens tokens nextId).ahead = tokens :=
      List.takeWhile_eq_self_iff.2 fun token htoken => by simp [hopen token htoken]
    exact ⟨[], by rw [closed_of_open hopen, hahead]⟩

/-- What is ahead of a parser at its start is no end of the input. -/
theorem not_isFinish_of_mem_ahead {token : Token}
    (h : token ∈ (Cursor.ofTokens tokens nextId).ahead) : token.isFinish = false := by
  have hall := List.all_takeWhile (l := tokens) (p := fun token : Token => !token.isFinish)
  simpa using List.all_eq_true.1 hall token h

end Indexed

namespace Track

open Indexed

/-- The tokens of a program, and how far they are read. -/
def ofTokens (tokens : List Token) : Track where
  tokens := closed tokens
  stop := (Cursor.ofTokens tokens 0).ahead.length
  finish := (Cursor.ofTokens tokens 0).finish
  found := by
    obtain ⟨rest, hrest⟩ := closed_split tokens 0
    rw [← Array.getElem?_toList, hrest, List.getElem?_append_right (Nat.le_refl _)]
    simp
  isFinish := Cursor.isFinish_ofTokens tokens 0
  first := by
    intro i token hi htoken
    obtain ⟨rest, hrest⟩ := closed_split tokens 0
    rw [← Array.getElem?_toList, hrest, List.getElem?_append_left hi] at htoken
    exact not_isFinish_of_mem_ahead (List.mem_of_getElem? htoken)

variable {tokens : List Token} {nextId : Nat}

/-- The tokens before the first end are those that the parser is given. -/
theorem take_stop_ofTokens : (ofTokens tokens).tokens.toList.take (ofTokens tokens).stop =
    (Cursor.ofTokens tokens 0).ahead := by
  obtain ⟨rest, hrest⟩ := closed_split tokens 0
  change (closed tokens).toList.take (Cursor.ofTokens tokens 0).ahead.length = _
  rw [hrest]
  simp

/-- A parser starts in front of all tokens before the first end. -/
theorem along_ofTokens : (ofTokens tokens).Along (Cursor.ofTokens tokens nextId) :=
  ⟨by rw [take_stop_ofTokens]; exact List.suffix_rfl, rfl⟩

/-- A parser and a reader by position start at the same place. -/
theorem place_ofTokens :
    (ofTokens tokens).place (Cursor.ofTokens tokens nextId) = start tokens nextId := by
  have hstop : (ofTokens tokens).stop - (Cursor.ofTokens tokens nextId).ahead.length = 0 :=
    Nat.sub_self _
  unfold place
  rw [hstop]
  rfl

/-- Every position up to the end is that of a cursor. -/
theorem exists_cursor (T : Track) {position : Nat} (h : position ≤ T.stop) (ids : Nat)
    (errors : Array SyntaxError) : ∃ c, T.Along c ∧ c.ahead.length = T.stop - position ∧
      T.place c = ⟨T.tokens, position, position, ids, errors⟩ := by
  have hstop := T.stop_lt_size
  have hlength : ((T.tokens.toList.take T.stop).drop position).length = T.stop - position := by
    rw [List.length_drop, List.length_take, Array.length_toList]
    omega
  refine ⟨⟨(T.tokens.toList.take T.stop).drop position, T.finish, ids, errors⟩,
    ⟨List.drop_suffix _ _, rfl⟩, hlength, ?_⟩
  have hposition : T.stop - (T.stop - position) = position := by omega
  unfold place
  rw [hlength, hposition]

end Track

namespace Indexed

/-- A position is the first at which an end of the input is. -/
structure FirstEnd (tokens : Array Token) (stop : Nat) : Prop where
  /-- There is an end of the input at the position. -/
  here : ∃ token, tokens[stop]? = some token ∧ token.isFinish
  /-- There is none before it. -/
  before : ∀ (i : Nat) (token : Token), i < stop → tokens[i]? = some token →
    token.isFinish = false

/-- What a declaration comes to from a position before the end: something that is read, or
nothing after a failure, at a later position that is not past the end. -/
def MovesOn (tokens : Array Token) (stop position : Nat) : Prop :=
  ∀ nextId errors, ∃ (read : Option Stmt) (after : Place),
    Settles declaration ⟨tokens, position, position, nextId, errors⟩ (.ok read, after) ∧
    after.tokens = tokens ∧ position < after.position ∧ after.position ≤ stop ∧
    after.furthest ≤ stop

/-- **Reading tokens by position ends at the first end of the input**, with the program
that the parser reads. -/
theorem program_settles (tokens : List Token) (nextId : Nat) :
    ∃ stop, FirstEnd (closed tokens) stop ∧
      Settles program (start tokens nextId)
        (.ok (parseTokens tokens nextId).statements,
          { tokens := closed tokens
            position := stop
            furthest := stop
            nextId := (parseTokens tokens nextId).nextId
            errors := (parseTokens tokens nextId).errors.toArray }) ∧
      ∀ position < stop, MovesOn (closed tokens) stop position := by
  let T := Track.ofTokens tokens
  refine ⟨T.stop, ⟨⟨T.finish, T.found, T.isFinish⟩, T.first⟩, ?_, ?_⟩
  · obtain ⟨ss, d, hok, hend⟩ := Parse.program_ends (Cursor.isFinish_ofTokens tokens nextId)
    have hparsed : parseTokens tokens nextId = ⟨ss, d.errors.toList, d.nextId⟩ := by
      rw [parseTokens, hok]
    have halong : T.Along (Cursor.ofTokens tokens nextId) := Track.along_ofTokens
    have hfollows := Track.follows_program _ halong (Nat.le_refl _)
    rcases hfollows with ⟨ss', d', hok', hsettles, -, -⟩ | ⟨e, d', herror, -⟩
    · rw [hok] at hok'
      cases hok'
      have hplace : T.place d = ⟨closed tokens, T.stop, T.stop, d.nextId, d.errors⟩ := by
        unfold Track.place
        rw [hend]
        rfl
      rw [Track.place_ofTokens, hplace] at hsettles
      rw [hparsed]
      exact hsettles
    · rw [hok] at herror
      cases herror
  · intro position hposition ids errors
    obtain ⟨c, hc, hlength, hplace⟩ := T.exists_cursor (Nat.le_of_lt hposition) ids errors
    have hahead : c.ahead ≠ [] := by
      intro hnil
      rw [hnil, List.length_nil] at hlength
      omega
    obtain ⟨o, d, hok, hlt⟩ := Parse.progresses_declaration c hc.isFinish hahead
    have hfollows := Track.follows_declaration (T := T) (by omega) c hc (Nat.le_refl _)
    rcases hfollows with ⟨o', d', hok', hsettles, -, -⟩ | ⟨e, d', herror, -⟩
    · rw [hok] at hok'
      cases hok'
      rw [hplace] at hsettles
      refine ⟨o, T.place d, hsettles, rfl, ?_, Nat.sub_le _ _, Nat.sub_le _ _⟩
      change position < T.stop - d.ahead.length
      omega
    · rw [hok] at herror
      cases herror

end Indexed

end Lox

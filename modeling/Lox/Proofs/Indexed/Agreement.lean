import Lox.Proofs.Grammar.Progress
import Lox.Proofs.Indexed

/-!
# Readers by position do what the parsers do

A cursor holds the tokens up to the first end of the input, and the parsers are bounded by
how many these are. A reader by position has neither: it stands in front of all tokens, and
nothing bounds it. The lemmas below show, rule by rule, that the two move together. The
position is always the number of tokens consumed, no access is out of range, and the calls
of a reader come to an end because a rule that calls itself has consumed a token before.
-/

namespace Lox

open Grammar

namespace Indexed

variable {α β : Type}

/-- A reader that goes on runs behind the first one, unless that one failed or came to no end. -/
theorem bind_apply (p : Indexed α) (f : α → Indexed β) (place : Place) :
    (p >>= f) place = match p place with
      | none => none
      | some (.ok a, after) => f a after
      | some (.error e, after) => some (.error e, after) := by
  change StateT.bind p (ExceptT.bindCont f) place = _
  unfold StateT.bind
  cases h : p place with
  | none => rfl
  | some result =>
    obtain ⟨outcome, after⟩ := result
    cases outcome <;> rfl

/-- A reader goes on from where the first one yielded something. -/
theorem bind_of_ok {p : Indexed α} {f : α → Indexed β} {place after : Place} {a : α}
    (h : p place = some (.ok a, after)) : (p >>= f) place = f a after := by
  rw [bind_apply, h]

/-- A reader that takes nothing stays where it is. -/
theorem pure_apply (a : α) (place : Place) : (pure a : Indexed α) place = some (.ok a, place) := rfl

namespace Settles

variable {reader : Nat → Indexed α} {place after : Place} {result : Except SyntaxError α × Place}

/-- There is no more than one thing that a reader comes to. -/
theorem unique {result' : Except SyntaxError α × Place} (h : Settles reader place result)
    (h' : Settles reader place result') : result = result' := by
  obtain ⟨least, hleast⟩ := h
  obtain ⟨least', hleast'⟩ := h'
  have hfirst := hleast (max least least') (Nat.le_max_left _ _)
  rw [hleast' _ (Nat.le_max_right _ _)] at hfirst
  exact (Option.some.inj hfirst).symm

/-- A reader that calls no other one settles as soon as it has a result. -/
theorem const {reader : Indexed α} (h : reader place = some result) :
    Settles (fun _ => reader) place result :=
  ⟨0, fun _ _ => h⟩

/-- A call is one level deeper than what it calls. -/
theorem succ (h : Settles (fun depth => reader (depth + 1)) place result) :
    Settles reader place result := by
  obtain ⟨least, hleast⟩ := h
  refine ⟨least + 1, fun depth hdepth => ?_⟩
  obtain ⟨depth, rfl⟩ : ∃ depth', depth = depth' + 1 := ⟨depth - 1, by omega⟩
  exact hleast depth (by omega)

/-- Readers that settle, one after the other, settle: the greater depth is enough for both. -/
theorem bind {next : α → Nat → Indexed β} {a : α} {result : Except SyntaxError β × Place}
    (h : Settles reader place (.ok a, after)) (hnext : Settles (next a) after result) :
    Settles (fun depth => reader depth >>= fun a => next a depth) place result := by
  obtain ⟨least, hleast⟩ := h
  obtain ⟨least', hleast'⟩ := hnext
  refine ⟨max least least', fun depth hdepth => ?_⟩
  exact (bind_of_ok (hleast depth (by omega))).trans (hleast' depth (by omega))

/-- A reader that settles on a failure leaves nothing to the one behind it. -/
theorem bind_error {next : α → Nat → Indexed β} {e : SyntaxError}
    (h : Settles reader place (.error e, after)) :
    Settles (fun depth => reader depth >>= fun a => next a depth) place (.error e, after) := by
  obtain ⟨least, hleast⟩ := h
  refine ⟨least, fun depth hdepth => (bind_apply _ _ _).trans ?_⟩
  rw [hleast depth hdepth]

end Settles

end Indexed

/-! ### Cursors along an array -/

/-- An array of tokens with its first end of the input. -/
structure Track where
  /-- All tokens. -/
  tokens : Array Token
  /-- The position of the first end of the input. -/
  stop : Nat
  /-- The first end of the input. -/
  finish : Token
  /-- It is at that position. -/
  found : tokens[stop]? = some finish
  /-- It is an end of the input. -/
  isFinish : finish.isFinish
  /-- No earlier token is one. -/
  first : ∀ (i : Nat) (token : Token), i < stop → tokens[i]? = some token → token.isFinish = false

namespace Track

open Indexed (Settles)

variable (T : Track)

/-- The place of a reader that has as many tokens before the end as a cursor has ahead. -/
def place (c : Cursor) : Indexed.Place :=
  ⟨T.tokens, T.stop - c.ahead.length, T.stop - c.ahead.length, c.nextId, c.errors⟩

/-- A cursor that some of the tokens before the end are ahead of. -/
structure Along (c : Cursor) : Prop where
  /-- What is ahead are the last tokens before the end. -/
  ahead : c.ahead <:+ T.tokens.toList.take T.stop
  /-- The end of the input is the first one. -/
  finish : c.finish = T.finish

variable {T} {c d : Cursor} {t f : Token} {rest : List Token} {n : Nat}
  {errs : Array SyntaxError}

/-- The first end of the input is one of the tokens. -/
theorem stop_lt_size : T.stop < T.tokens.size := (Array.getElem?_eq_some_iff.1 T.found).1

namespace Along

/-- A cursor along the tokens has the end of the input behind it. -/
theorem isFinish (h : T.Along c) : c.finish.isFinish := by
  rw [h.finish]
  exact T.isFinish

/-- What is ahead of a cursor are the last tokens before the end, and those before them
were taken. -/
theorem split (h : T.Along c) : ∃ before : List Token,
    before.length = T.stop - c.ahead.length ∧ c.ahead.length ≤ T.stop ∧
      before ++ c.ahead = T.tokens.toList.take T.stop := by
  obtain ⟨before, hbefore⟩ := h.ahead
  have hlength : before.length + c.ahead.length = T.stop := by
    have hstop := T.stop_lt_size
    have htake : (T.tokens.toList.take T.stop).length = T.stop := by
      rw [List.length_take, Array.length_toList]
      omega
    rw [← hbefore, List.length_append] at htake
    exact htake
  exact ⟨before, by omega, by omega, hbefore⟩

/-- The token at a position before the end. -/
theorem getElem?_cons (h : T.Along ⟨t :: rest, f, n, errs⟩) :
    T.tokens[T.stop - (rest.length + 1)]? = some t ∧ rest.length + 1 ≤ T.stop := by
  obtain ⟨before, hlength, hle, hbefore⟩ := h.split
  refine ⟨?_, hle⟩
  have hlt : T.stop - (rest.length + 1) < T.stop := by
    have : rest.length + 1 ≤ T.stop := hle
    omega
  have htake : (T.tokens.toList.take T.stop)[T.stop - (rest.length + 1)]? = some t := by
    have hlength' : before.length = T.stop - (rest.length + 1) := hlength
    rw [← hbefore, ← hlength', List.getElem?_append_right (Nat.le_refl _)]
    simp
  rw [List.getElem?_take_of_lt hlt] at htake
  simpa using htake

/-- What is ahead of a cursor is no end of the input. -/
theorem not_isFinish (h : T.Along ⟨t :: rest, f, n, errs⟩) : t.isFinish = false := by
  obtain ⟨hget, hle⟩ := h.getElem?_cons
  exact T.first _ t (by omega) hget

/-- Behind a token that was taken the cursor is still along the tokens. -/
theorem tail (h : T.Along ⟨t :: rest, f, n, errs⟩) : T.Along ⟨rest, f, n, errs⟩ :=
  ⟨(List.suffix_cons t rest).trans h.ahead, h.finish⟩

/-- Identities and errors do not matter. -/
theorem withOther (h : T.Along c) (hahead : d.ahead = c.ahead) (hfinish : d.finish = c.finish) :
    T.Along d :=
  ⟨by rw [hahead]; exact h.ahead, by rw [hfinish]; exact h.finish⟩

/-- The token at the position of a cursor is its next one: no access is out of range. -/
theorem getElem?_current (h : T.Along c) :
    T.tokens[T.stop - c.ahead.length]? = some c.current := by
  obtain ⟨ahead, finish, n, errs⟩ := c
  cases ahead with
  | nil =>
    have hfinish : finish = T.finish := h.finish
    rw [hfinish]
    exact T.found
  | cons t rest => exact h.getElem?_cons.1

/-- The next token is the end of the input exactly when nothing is ahead. -/
theorem isFinish_current (h : T.Along c) : c.current.isFinish = c.ahead.isEmpty := by
  obtain ⟨ahead, finish, n, errs⟩ := c
  cases ahead with
  | nil => exact h.isFinish
  | cons t rest => exact h.not_isFinish

/-! ### Single tokens -/

/-- To look at the next token by position finds that of the cursor. -/
theorem peek (h : T.Along c) : Indexed.peek (T.place c) = some (.ok c.current, T.place c) := by
  have hget := h.getElem?_current
  unfold Indexed.peek place
  dsimp only
  rw [hget]
  rfl

/-- To ask for the end by position finds whether anything is ahead of the cursor. -/
theorem atEnd (h : T.Along c) :
    Indexed.atEnd (T.place c) = some (.ok c.ahead.isEmpty, T.place c) := by
  rw [← h.isFinish_current]
  exact Indexed.bind_of_ok h.peek

/-- The token before the position is the one just consumed. -/
theorem previous (h : T.Along ⟨t :: rest, f, n, errs⟩) {m : Nat} {errs' : Array SyntaxError} :
    Indexed.previous (T.place ⟨rest, f, m, errs'⟩) =
      some (.ok t, T.place ⟨rest, f, m, errs'⟩) := by
  obtain ⟨hget, hle⟩ := h.getElem?_cons
  have hpos : T.stop - rest.length = T.stop - (rest.length + 1) + 1 := by omega
  unfold Indexed.previous place
  simp only [hpos, hget]
  rfl

/-- To take a token by position moves on by one, as the cursor does. -/
theorem advance_cons (h : T.Along ⟨t :: rest, f, n, errs⟩) :
    Indexed.advance (T.place ⟨t :: rest, f, n, errs⟩) =
      some (.ok t, T.place ⟨rest, f, n, errs⟩) := by
  obtain ⟨-, hle⟩ := h.getElem?_cons
  have hmove : Indexed.move (T.place ⟨t :: rest, f, n, errs⟩) =
      some (.ok (), T.place ⟨rest, f, n, errs⟩) := by
    have hpos : T.stop - (rest.length + 1) + 1 = T.stop - rest.length := by omega
    have hmax : max (T.stop - (rest.length + 1)) (T.stop - rest.length) = T.stop - rest.length := by
      omega
    simp only [Indexed.move, place, List.length_cons]
    change some (Except.ok (), Indexed.Place.mk _ _ _ _ _) = _
    simp only [hpos, hmax]
  rw [Indexed.advance, Indexed.bind_of_ok h.atEnd]
  exact (Indexed.bind_of_ok hmove).trans h.previous

/-- At the end nothing is consumed, and there is a token before it unless it is the first. -/
theorem advance_nil (h : T.Along ⟨[], f, n, errs⟩) (hstop : 0 < T.stop) :
    ∃ t, Indexed.advance (T.place ⟨[], f, n, errs⟩) = some (.ok t, T.place ⟨[], f, n, errs⟩) := by
  obtain ⟨stop, hstop⟩ : ∃ stop, T.stop = stop + 1 := ⟨T.stop - 1, by omega⟩
  obtain ⟨t, ht⟩ : ∃ t, T.tokens[stop]? = some t := by
    have hlt := T.stop_lt_size
    exact ⟨_, Array.getElem?_eq_getElem (by omega)⟩
  refine ⟨t, ?_⟩
  rw [Indexed.advance, Indexed.bind_of_ok h.atEnd]
  change Indexed.previous _ = _
  unfold Indexed.previous place
  simp only [List.length_nil, Nat.sub_zero, hstop, ht]
  rfl

/-- To ask for a symbol by position finds whether the cursor is in front of it. -/
theorem check (h : T.Along c) (symbol : Symbol) :
    Indexed.check symbol (T.place c) = some (.ok (c.current.is symbol), T.place c) := by
  rw [Indexed.check, Indexed.bind_of_ok h.atEnd]
  obtain ⟨ahead, finish, n, errs⟩ := c
  cases ahead with
  | nil =>
    have hkind : finish.kind = .finish := by simpa [Token.isFinish] using h.isFinish
    simp [Token.is, Cursor.current, hkind, Indexed.pure_apply]
  | cons t rest => exact Indexed.bind_of_ok h.peek

end Along

/-! ### Readers and parsers together -/

variable {α β : Type} {p : Parse α} {q : Nat → Indexed α}

/-- From a cursor and its place, a parser and a reader end alike: with the same value or
the same error, and at a cursor and its place again. -/
def FollowsAt (T : Track) (p : Parse α) (q : Nat → Indexed α) (c : Cursor) : Prop :=
  (∃ a d, p c = .ok a d ∧ Settles q (T.place c) (.ok a, T.place d) ∧ T.Along d ∧
    d.ahead.length ≤ c.ahead.length) ∨
  ∃ e d, p c = .error e d ∧ Settles q (T.place c) (.error e, T.place d) ∧ T.Along d ∧
    d.ahead.length ≤ c.ahead.length

/-- A reader does what a parser does wherever no more than `n` tokens are ahead. -/
def Follows (T : Track) (n : Nat) (p : Parse α) (q : Nat → Indexed α) : Prop :=
  ∀ c, T.Along c → c.ahead.length ≤ n → T.FollowsAt p q c

namespace FollowsAt

/-- A reader that takes nothing does what such a parser does. -/
theorem pure (h : T.Along c) (a : α) : T.FollowsAt (pure a) (fun _ => Pure.pure a) c :=
  .inl ⟨a, c, rfl, .const rfl, h, Nat.le_refl _⟩

/-- The second reader starts where the first one ended. -/
theorem bind {k : α → Parse β} {k' : α → Nat → Indexed β} (hp : T.FollowsAt p q c)
    (hk : ∀ a d, p c = .ok a d → T.Along d → d.ahead.length ≤ c.ahead.length →
      T.FollowsAt (k a) (k' a) d) :
    T.FollowsAt (p >>= k) (fun depth => q depth >>= fun a => k' a depth) c := by
  unfold FollowsAt
  rw [bind_apply]
  rcases hp with ⟨a, d, hp, hq, hd, hle⟩ | ⟨e, d, hp, hq, hd, hle⟩
  · rw [hp]
    rcases hk a d hp hd hle with ⟨b, d', hk, hk', hd', hle'⟩ | ⟨e, d', hk, hk', hd', hle'⟩
    · exact .inl ⟨b, d', hk, hq.bind hk', hd', by omega⟩
    · exact .inr ⟨e, d', hk, hq.bind hk', hd', by omega⟩
  · rw [hp]
    exact .inr ⟨e, d, rfl, hq.bind_error, hd, hle⟩

/-- A call takes one level of depth and changes nothing else. -/
theorem succ (h : T.FollowsAt p (fun depth => q (depth + 1)) c) : T.FollowsAt p q c := by
  rcases h with ⟨a, d, hp, hq, hrest⟩ | ⟨e, d, hp, hq, hrest⟩
  · exact .inl ⟨a, d, hp, hq.succ, hrest⟩
  · exact .inr ⟨e, d, hp, hq.succ, hrest⟩

/-- A reader that does what a parser does also does what an equal one does there. -/
theorem congr {p' : Parse α} (h : T.FollowsAt p q c) (heq : p' c = p c) : T.FollowsAt p' q c := by
  unfold FollowsAt
  rw [heq]
  exact h

/-- A reader may be replaced by one that is equal at that place. -/
theorem congr_reader {q' : Nat → Indexed α} (h : T.FollowsAt p q c)
    (heq : ∀ depth, q' depth (T.place c) = q depth (T.place c)) : T.FollowsAt p q' c := by
  unfold FollowsAt Settles
  simp only [heq]
  exact h

/-- Looking at the token at the position changes nothing. -/
theorem peek_bind {next : Nat → Token → Indexed α} (hc : T.Along c)
    (h : T.FollowsAt p (fun depth => next depth c.current) c) :
    T.FollowsAt p (fun depth => Indexed.peek >>= next depth) c :=
  h.congr_reader fun _ => Indexed.bind_of_ok hc.peek

end FollowsAt

namespace Follows

/-- Agreement with up to some number of tokens ahead is agreement with fewer. -/
theorem mono {m : Nat} (h : T.Follows n p q) (hle : m ≤ n) : T.Follows m p q :=
  fun c hc hm => h c hc (Nat.le_trans hm hle)

/-- A reader that takes nothing does what such a parser does, anywhere. -/
theorem pure (a : α) : T.Follows n (pure a) fun _ => Pure.pure a :=
  fun _ hc _ => .pure hc a

/-- Readers do, one after the other, what the parsers do. -/
theorem bind {k : α → Parse β} {k' : α → Nat → Indexed β} (hp : T.Follows n p q)
    (hk : ∀ a, T.Follows n (k a) (k' a)) :
    T.Follows n (p >>= k) fun depth => q depth >>= fun a => k' a depth :=
  fun c hc hn => (hp c hc hn).bind fun a d _ hd hle => hk a d hd (by omega)

/-- What is built of what a reader yields is what is built of what the parser yields. -/
theorem map (h : T.Follows n p q) (g : α → β) :
    T.Follows n (g <$> p) fun depth => g <$> q depth := by
  simp only [map_eq_pure_bind]
  exact h.bind fun a => .pure (g a)

/-- A call is one level deeper than what it calls. -/
theorem succ (h : T.Follows n p fun depth => q (depth + 1)) : T.Follows n p q :=
  fun c hc hn => (h c hc hn).succ

/-- A repetition that may run as often as there are tokens ahead is not cut short: without
tokens it would not run once. -/
theorem of_fuel {p : Nat → Parse α} {fuel : Nat} (hfuel : n ≤ fuel)
    (hend : ∀ c : Cursor, c.ahead = [] → p 0 c = p 1 c)
    (hstep : ∀ fuel, n ≤ fuel + 1 → T.Follows n (p (fuel + 1)) q) : T.Follows n (p fuel) q := by
  cases fuel with
  | zero =>
    refine fun c hc hn => (hstep 0 (by omega) c hc hn).congr (hend c ?_)
    exact List.length_eq_zero_iff.1 (by omega)
  | succ fuel => exact hstep fuel hfuel

end Follows

/-! ### Readers of one token -/

/-- A reader of one token at most; `taken` says of which values it has taken one. -/
def Steps (T : Track) (taken : α → Prop) (p : Parse α) (q : Indexed α) : Prop :=
  ∀ c, T.Along c →
    (∃ a d, p c = .ok a d ∧ q (T.place c) = some (.ok a, T.place d) ∧ T.Along d ∧
      (taken a ∧ d.ahead.length < c.ahead.length ∨ ¬taken a ∧ d.ahead = c.ahead)) ∨
    ∃ e d, p c = .error e d ∧ q (T.place c) = some (.error e, T.place d) ∧ T.Along d ∧
      d.ahead.length ≤ c.ahead.length

/-- Some readers take a token or fail. -/
abbrev always : α → Prop := fun _ => True

/-- Some readers take none. -/
abbrev never : α → Prop := fun _ => False

namespace Steps

variable {taken : α → Prop} {q : Indexed α} {k : α → Parse β} {k' : α → Nat → Indexed β}

/-- A reader that takes nothing and always yields something. -/
theorem still {value : Cursor → α} (hp : ∀ c, p c = .ok (value c) c)
    (hq : ∀ c, T.Along c → q (T.place c) = some (.ok (value c), T.place c)) :
    T.Steps never p q :=
  fun c hc => .inl ⟨value c, c, hp c, hq c hc, hc, .inr ⟨id, rfl⟩⟩

/-- A step does what the parser does, at any depth. -/
theorem follows (h : T.Steps taken p q) : T.Follows n p fun _ => q := by
  intro c hc _
  rcases h c hc with ⟨a, d, hp, hq, hd, htaken⟩ | ⟨e, d, hp, hq, hd, hle⟩
  · refine .inl ⟨a, d, hp, .const hq, hd, ?_⟩
    rcases htaken with ⟨-, hlt⟩ | ⟨-, hsame⟩
    · omega
    · exact Nat.le_of_eq (congrArg List.length hsame)
  · exact .inr ⟨e, d, hp, .const hq, hd, hle⟩

/-- After a token was taken, fewer are ahead. -/
theorem bind (h : T.Steps taken p q) (hnot : ∀ a, ¬taken a → T.Follows n (k a) (k' a))
    (htaken : ∀ a, taken a → ∀ m < n, T.Follows m (k a) (k' a)) :
    T.Follows n (p >>= k) fun depth => q >>= fun a => k' a depth := by
  intro c hc hn
  refine (h.follows c hc hn).bind fun a d hok hd hle => ?_
  rcases h c hc with ⟨a', d', hp, -, -, hcase⟩ | ⟨e, d', hp, -⟩
  · rw [hok] at hp
    cases hp
    rcases hcase with ⟨ha, hlt⟩ | ⟨ha, -⟩
    · exact htaken a ha d.ahead.length (by omega) d hd (Nat.le_refl _)
    · exact hnot a ha d hd (by omega)
  · rw [hok] at hp
    cases hp

/-- What is built of what a step yields tells as well whether a token was taken. -/
theorem bind_pure {taken' : β → Prop} (h : T.Steps taken p q) (g : α → β)
    (hg : ∀ a, taken' (g a) ↔ taken a) :
    T.Steps taken' (p >>= fun a => Pure.pure (g a)) (q >>= fun a => Pure.pure (g a)) := by
  intro c hc
  rcases h c hc with ⟨a, d, hp, hq, hd, hcase⟩ | ⟨e, d, hp, hq, hd⟩
  · exact .inl ⟨g a, d, bind_of_ok hp, Indexed.bind_of_ok hq, hd, by rwa [hg]⟩
  · refine .inr ⟨e, d, ?_, ?_, hd⟩
    · rw [bind_apply, hp]
    · rw [Indexed.bind_apply, hq]

/-- The same after a reader that takes a token in any case. -/
theorem andThen (h : T.Steps always p q) (hk : ∀ a, ∀ m < n, T.Follows m (k a) (k' a)) :
    T.Follows n (p >>= k) fun depth => q >>= fun a => k' a depth :=
  h.bind (fun _ hnot => absurd trivial hnot) fun a _ => hk a

end Steps

/-- To ask for the end of the input is a step that takes nothing. -/
theorem steps_atEnd : T.Steps never Parse.atEnd Indexed.atEnd :=
  .still (fun _ => rfl) fun _ hc => hc.atEnd

/-- To ask whether a symbol is next is a step that takes nothing. -/
theorem steps_check (symbol : Symbol) :
    T.Steps never (Parse.check symbol) (Indexed.check symbol) :=
  .still (fun _ => rfl) fun _ hc => hc.check symbol

/-- To report an error is a step that takes nothing. -/
theorem steps_report (error : SyntaxError) :
    T.Steps never (Parse.report error) (Indexed.report error) :=
  fun c hc => .inl ⟨(), c.report error, rfl, rfl, hc.withOther rfl rfl, .inr ⟨id, rfl⟩⟩

/-- To hand out an identity is a step that takes nothing. -/
theorem steps_freshId : T.Steps never Parse.freshId Indexed.freshId :=
  fun c hc => .inl ⟨c.nextId, { c with nextId := c.nextId + 1 }, rfl, rfl,
    hc.withOther rfl rfl, .inr ⟨id, rfl⟩⟩

/-- To take a token that may be there is a step, and it takes one when it yields something. -/
theorem steps_acceptMap (select : Token → Option α) :
    T.Steps (fun found => found.isSome) (Parse.acceptMap select) (Indexed.acceptMap select) := by
  rintro ⟨ahead, f, m, errs⟩ hc
  have hstart : ∀ next : Bool → Indexed (Option α),
      (Indexed.atEnd >>= next) (T.place ⟨ahead, f, m, errs⟩) =
        next ahead.isEmpty (T.place ⟨ahead, f, m, errs⟩) :=
    fun _ => Indexed.bind_of_ok hc.atEnd
  left
  rw [Indexed.acceptMap, hstart]
  cases ahead with
  | nil => exact ⟨none, ⟨[], f, m, errs⟩, rfl, rfl, hc, .inr ⟨nofun, rfl⟩⟩
  | cons t rest =>
    have hpeek : ∀ next : Token → Indexed (Option α),
        (Indexed.peek >>= next) (T.place ⟨t :: rest, f, m, errs⟩) =
          next t (T.place ⟨t :: rest, f, m, errs⟩) :=
      fun _ => Indexed.bind_of_ok hc.peek
    simp only [List.isEmpty_cons, Bool.false_eq_true, if_false, hpeek]
    cases hselect : select t with
    | none =>
      refine ⟨none, ⟨t :: rest, f, m, errs⟩, ?_, rfl, hc, .inr ⟨nofun, rfl⟩⟩
      exact Parse.acceptMap_none fun t' ht' => by cases ht'; exact hselect
    | some a =>
      refine ⟨some a, ⟨rest, f, m, errs⟩, Parse.acceptMap_cons hselect, ?_, hc.tail,
        .inl ⟨rfl, Nat.lt_succ_self _⟩⟩
      exact Indexed.bind_of_ok hc.advance_cons

/-- To take an operator that may be there is a step, and it takes one when it yields something. -/
theorem steps_acceptOperator (select : Symbol → Option α) :
    T.Steps (fun found => found.isSome) (Parse.acceptOperator select)
      (Indexed.acceptOperator select) :=
  steps_acceptMap _

/-- To take a token that has to be there is a step that takes one or fails. -/
theorem steps_expectMap (select : Token → Option α) (what : String) :
    T.Steps always (Parse.expectMap select what) (Indexed.expectMap select what) := by
  intro c hc
  rcases steps_acceptMap select c hc with ⟨found, d, hp, hq, hd, hcase⟩ | ⟨e, d, hp, hq, hd⟩
  · rw [Parse.expectMap, bind_of_ok hp, Indexed.expectMap, Indexed.bind_of_ok hq]
    cases found with
    | some a =>
      refine .inl ⟨a, d, rfl, rfl, hd, .inl ⟨trivial, ?_⟩⟩
      rcases hcase with ⟨-, hlt⟩ | ⟨hnot, -⟩
      · exact hlt
      · exact absurd rfl hnot
    | none =>
      refine .inr ⟨_, d, rfl, Indexed.bind_of_ok hd.peek, hd, ?_⟩
      rcases hcase with ⟨-, hlt⟩ | ⟨-, hsame⟩
      · exact Nat.le_of_lt hlt
      · exact Nat.le_of_eq (congrArg List.length hsame)
  · refine .inr ⟨e, d, ?_, ?_, hd⟩
    · rw [Parse.expectMap, bind_apply, hp]
    · rw [Indexed.expectMap, Indexed.bind_apply, hq]

/-- To take a name that has to be there is a step that takes one or fails. -/
theorem steps_expectName (what : String) :
    T.Steps always (Parse.expectName what) (Indexed.expectName what) :=
  steps_expectMap _ what

/-- Either the symbol is at the cursor, or no parser sees it there. -/
theorem Along.is_current {ahead : List Token} (h : T.Along ⟨ahead, f, n, errs⟩)
    (symbol : Symbol) : (∃ t rest, ahead = t :: rest ∧ t.is symbol) ∨
      ¬Parse.StartsWith symbol ahead ∧ (Cursor.mk ahead f n errs).current.is symbol = false := by
  cases ahead with
  | nil =>
    have hkind : f.kind = .finish := by simpa [Token.isFinish] using h.isFinish
    exact .inr ⟨by simp [Parse.StartsWith], by simp [Token.is, Cursor.current, hkind]⟩
  | cons t rest =>
    by_cases his : t.is symbol
    · exact .inl ⟨t, rest, rfl, his⟩
    · exact .inr ⟨Parse.not_startsWith_cons (by simpa using his), Bool.eq_false_iff.2 his⟩

/-- A symbol that is there is taken. -/
theorem steps_accept? (symbol : Symbol) :
    T.Steps (fun found => found.isSome) (Parse.accept? symbol) (Indexed.accept? symbol) := by
  rintro ⟨ahead, f, m, errs⟩ hc
  left
  rw [Indexed.accept?, Indexed.bind_of_ok (hc.check symbol)]
  rcases hc.is_current symbol with ⟨t, rest, rfl, his⟩ | ⟨hnot, hcurrent⟩
  · refine ⟨some t, ⟨rest, f, m, errs⟩, Parse.accept?_cons his, ?_, hc.tail,
      .inl ⟨rfl, Nat.lt_succ_self _⟩⟩
    rw [if_pos (by exact his), map_eq_pure_bind]
    exact Indexed.bind_of_ok hc.advance_cons
  · refine ⟨none, ⟨ahead, f, m, errs⟩, Parse.accept?_none hnot, ?_, hc, .inr ⟨nofun, rfl⟩⟩
    rw [hcurrent]
    rfl

/-- To ask for a symbol, and to take it, is a step, and it takes one when it says yes. -/
theorem steps_accept (symbol : Symbol) :
    T.Steps (fun found => found = true) (Parse.accept symbol) (Indexed.accept symbol) :=
  (steps_accept? symbol).bind_pure Option.isSome fun _ => .rfl

/-- To take a symbol that has to be there is a step that takes one or fails. -/
theorem steps_expect (symbol : Symbol) (what : String) :
    T.Steps always (Parse.expect symbol what) (Indexed.expect symbol what) := by
  rintro ⟨ahead, f, m, errs⟩ hc
  rw [Indexed.expect, Indexed.bind_of_ok (hc.check symbol)]
  rcases hc.is_current symbol with ⟨t, rest, rfl, his⟩ | ⟨hnot, hcurrent⟩
  · refine .inl ⟨t, ⟨rest, f, m, errs⟩, Parse.expect_cons what his, ?_, hc.tail,
      .inl ⟨trivial, Nat.lt_succ_self _⟩⟩
    rw [if_pos (by exact his)]
    exact hc.advance_cons
  · rw [hcurrent]
    refine .inr ⟨_, _, ?_, Indexed.bind_of_ok hc.peek, hc, Nat.le_refl _⟩
    exact bind_of_ok (Parse.accept?_none hnot)

/-- To report a list that is too long is a step that takes nothing. -/
theorem steps_reportSurplus (what : String) (count : Nat) :
    T.Steps never (Parse.reportSurplus what count) (Indexed.reportSurplus what count) := by
  unfold Parse.reportSurplus Indexed.reportSurplus
  split
  · intro c hc
    refine .inl ⟨(), c.report ⟨c.current, .tooMany what⟩, rfl, ?_, hc.withOther rfl rfl,
      .inr ⟨id, rfl⟩⟩
    exact Indexed.bind_of_ok hc.peek
  · exact .still (fun _ => rfl) fun _ _ => rfl

/-! ### Choices -/

namespace Follows

variable {p p' : Parse α} {q q' : Nat → Indexed α}

/-- A choice by a symbol: where it was taken, fewer tokens are ahead of what goes on. -/
theorem ifAccept (symbol : Symbol) (hyes : ∀ m < n, T.Follows m p q) (hno : T.Follows n p' q') :
    T.Follows n (do if ← Parse.accept symbol then p else p')
      (fun depth => do if ← Indexed.accept symbol then q depth else q' depth) := by
  refine (steps_accept symbol).bind (fun found hnot => ?_) fun found htaken => ?_
  · rw [Bool.not_eq_true] at hnot
    rw [hnot]
    exact hno
  · rw [htaken]
    exact hyes

/-- A choice by a symbol that is looked at: as many tokens are ahead of what goes on. -/
theorem ifCheck (symbol : Symbol) (hyes : T.Follows n p q) (hno : T.Follows n p' q') :
    T.Follows n (do if ← Parse.check symbol then p else p')
      (fun depth => do if ← Indexed.check symbol then q depth else q' depth) := by
  refine (steps_check symbol).follows.bind fun found => ?_
  cases found with
  | true => exact hyes
  | false => exact hno

/-- Repetitions end at a closing brace or at the end; otherwise there is a token ahead. -/
theorem ifClosed (hyes : T.Follows n p q)
    (hno : ∀ c, T.Along c → c.ahead.length ≤ n → c.ahead ≠ [] → T.FollowsAt p' q' c) :
    T.Follows n (do if (← Parse.check .rightBrace) || (← Parse.atEnd) then p else p')
      (fun depth => do
        if (← Indexed.check .rightBrace) || (← Indexed.atEnd) then q depth else q' depth) := by
  intro c hc hn
  refine ((steps_check .rightBrace).follows c hc hn).bind fun closed d hclosed hd hle => ?_
  cases hclosed
  refine (steps_atEnd.follows c hd hn).bind fun ended d hended hd hle => ?_
  cases hended
  by_cases hahead : c.ahead = []
  · simp only [hahead, List.isEmpty_nil, Bool.or_true]
    exact hyes c hc hn
  · cases hbrace : c.current.is .rightBrace with
    | true => exact hyes c hc hn
    | false =>
      simp only [Bool.false_or, List.isEmpty_iff, hahead]
      exact hno c hc hn hahead

end Follows

end Track

end Lox

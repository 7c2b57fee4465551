import Mathlib.Data.List.Forall2
import Mathlib.Tactic.Tauto
import Lox.Proofs.Grammar
import Lox.Proofs.Stateful

/-!
# What a parser reads

A parser moves its cursor forward only: it takes tokens from the front, hands
out identities in order, and never takes back a report. A parser that ends
without a report has read some tokens, and `Reads` says of a parser in what
relation these tokens stand to what it yields. The lemmas below state this for
the parsers that take one token or none, and `Reads.bind` carries it over to
parsers that run one after another.
-/

namespace Lox

/-- One cursor comes after another on the way of a parser. -/
structure Cursor.Advances (before after : Cursor) : Prop where
  /-- The end of the input stays. -/
  finish : after.finish = before.finish
  /-- No identity is handed out twice. -/
  nextId : before.nextId ≤ after.nextId
  /-- No report is taken back. -/
  errors : before.errors.size ≤ after.errors.size
  /-- Tokens are taken from the front. -/
  ahead : after.ahead <:+ before.ahead

namespace Cursor.Advances

/-- A cursor that stays where it is has gone on by nothing. -/
theorem refl (c : Cursor) : c.Advances c :=
  ⟨rfl, Nat.le_refl _, Nat.le_refl _, List.suffix_rfl⟩

/-- Cursors go on one after the other. -/
theorem trans {a b c : Cursor} (hab : a.Advances b) (hbc : b.Advances c) : a.Advances c :=
  ⟨hbc.finish.trans hab.finish, Nat.le_trans hab.nextId hbc.nextId,
    Nat.le_trans hab.errors hbc.errors, hbc.ahead.trans hab.ahead⟩

end Cursor.Advances

/-- The end of the input is kept as a token of its own, also where the tokens have none. -/
theorem Cursor.isFinish_ofTokens (tokens : List Token) (n : Nat) :
    (Cursor.ofTokens tokens n).finish.isFinish := by
  unfold Cursor.ofTokens
  cases hfind : tokens.find? (·.isFinish) with
  | none => rfl
  | some t => exact List.find?_some hfind

namespace Parse

variable {α β : Type}

/-- What a result of a parser, started at the cursor `c`, has to do with the
tokens it took. The relation gets the value, the identities that are free
before and after, the tokens taken and the tokens left. -/
def Outcome (c : Cursor) (R : α → Nat → List Token → Nat → List Token → Prop) :
    EStateM.Result SyntaxError Cursor α → Prop
  | .ok a after => c.Advances after ∧ (after.errors.size = c.errors.size →
      ∃ ts, c.ahead = ts ++ after.ahead ∧ R a c.nextId ts after.nextId after.ahead)
  | .error _ after => c.Advances after

/-- Whenever a parser ends without a report, what it took and what it yields
are in the given relation. -/
def Reads (p : Parse α) (R : α → Nat → List Token → Nat → List Token → Prop) : Prop :=
  ∀ c : Cursor, c.finish.isFinish → Outcome c R (p c)

/-- A parser that takes no token and hands out no identity. -/
abbrev Still (P : α → List Token → Prop) : α → Nat → List Token → Nat → List Token → Prop :=
  fun a n ts m rest => ts = [] ∧ m = n ∧ P a rest

/-- A parser that takes one token and hands out no identity. -/
abbrev One (P : α → Token → Prop) : α → Nat → List Token → Nat → List Token → Prop :=
  fun a n ts m _ => ∃ t, P a t ∧ ts = [t] ∧ m = n

/-- A relation that holds of what is read may be weakened. -/
theorem Reads.mono {p : Parse α} {R S : α → Nat → List Token → Nat → List Token → Prop}
    (hp : Reads p R) (h : ∀ a n ts m rest, R a n ts m rest → S a n ts m rest) : Reads p S := by
  intro c hc
  have hr := hp c hc
  revert hr
  cases p c with
  | error e after => exact id
  | ok a after =>
    rintro ⟨hadv, hread⟩
    refine ⟨hadv, fun hsize => ?_⟩
    obtain ⟨ts, hts, hR⟩ := hread hsize
    exact ⟨ts, hts, h _ _ _ _ _ hR⟩

/-- Parsers one after another: the tokens of the first come before those of the
second, and no report at the end means none in between. -/
theorem Reads.bind {p : Parse α} {f : α → Parse β}
    {R : α → Nat → List Token → Nat → List Token → Prop}
    {S : α → β → Nat → List Token → Nat → List Token → Prop}
    (hp : Reads p R) (hf : ∀ a, Reads (f a) (S a)) :
    Reads (p >>= f) fun b n ts m rest =>
      ∃ a ts₁ k ts₂, R a n ts₁ k (ts₂ ++ rest) ∧ S a b k ts₂ m rest ∧ ts = ts₁ ++ ts₂ := by
  intro c hc
  rw [bind_apply]
  have hr := hp c hc
  revert hr
  cases p c with
  | error e after => exact id
  | ok a middle =>
    rintro ⟨hadv, hread⟩
    have hfin : middle.finish.isFinish := by rw [hadv.finish]; exact hc
    have hs := hf a middle hfin
    revert hs
    dsimp only
    cases f a middle with
    | error e after => exact hadv.trans
    | ok b after =>
      rintro ⟨hadv', hread'⟩
      refine ⟨hadv.trans hadv', fun hsize => ?_⟩
      have hle := hadv.errors
      have hle' := hadv'.errors
      obtain ⟨ts₁, hts₁, hR⟩ := hread (by omega)
      obtain ⟨ts₂, hts₂, hS⟩ := hread' (by omega)
      refine ⟨ts₁ ++ ts₂, ?_, a, ts₁, middle.nextId, ts₂, ?_, hS, rfl⟩
      · rw [hts₁, hts₂, List.append_assoc]
      · rw [← hts₂]
        exact hR

/-- Like `Reads.bind`, for a first parser that takes nothing. -/
theorem Reads.bindStill {p : Parse α} {f : α → Parse β} {P : α → List Token → Prop}
    {S : α → β → Nat → List Token → Nat → List Token → Prop}
    (hp : Reads p (Still P)) (hf : ∀ a, Reads (f a) (S a)) :
    Reads (p >>= f) fun b n ts m rest => ∃ a, P a (ts ++ rest) ∧ S a b n ts m rest := by
  refine (hp.bind hf).mono ?_
  rintro b n ts m rest ⟨a, ts₁, k, ts₂, ⟨rfl, rfl, hP⟩, hS, rfl⟩
  exact ⟨a, hP, hS⟩

/-- What is built of what was read is in the relation with what it was built of. -/
theorem Reads.map {p : Parse α} {R : α → Nat → List Token → Nat → List Token → Prop}
    (hp : Reads p R) (f : α → β) :
    Reads (f <$> p) fun b n ts m rest => ∃ a, b = f a ∧ R a n ts m rest := by
  intro c hc
  have hr := hp c hc
  change Outcome c _ (EStateM.map f p c)
  unfold EStateM.map
  revert hr
  cases p c with
  | error e after => exact id
  | ok a after =>
    rintro ⟨hadv, hread⟩
    refine ⟨hadv, fun hsize => ?_⟩
    obtain ⟨ts, hts, hR⟩ := hread hsize
    exact ⟨ts, hts, a, rfl, hR⟩

/-- Of two parsers the one that is chosen reads under its own condition. -/
theorem Reads.ite {condition : Prop} [Decidable condition] {p q : Parse α}
    {R : α → Nat → List Token → Nat → List Token → Prop}
    (hp : condition → Reads p R) (hq : ¬condition → Reads q R) :
    Reads (if condition then p else q) R := by
  split
  · exact hp ‹_›
  · exact hq ‹_›

/-- A parser that takes nothing reads no tokens. -/
theorem reads_pure (a : α) : Reads (pure a) (Still fun b _ => b = a) :=
  fun c _ => ⟨.refl c, fun _ => ⟨[], rfl, rfl, rfl, rfl⟩⟩

/-- A parser that fails reads nothing, so any relation holds of it. -/
theorem reads_fail (cause : SyntaxCause) (R : α → Nat → List Token → Nat → List Token → Prop) :
    Reads (fail cause) R :=
  fun c _ => .refl c

/-- A report is never without a report. -/
theorem reads_report (error : SyntaxError)
    (R : Unit → Nat → List Token → Nat → List Token → Prop) : Reads (report error) R := by
  intro c _
  refine ⟨⟨rfl, Nat.le_refl _, ?_, List.suffix_rfl⟩, fun hsize => ?_⟩
  · simp [Cursor.report]
  · simp [Cursor.report] at hsize

/-- An identity is handed out without a token, and the next one is one greater. -/
theorem reads_freshId :
    Reads freshId fun id n ts m _ => id = n ∧ ts = [] ∧ m = n + 1 :=
  fun _ _ => ⟨⟨rfl, Nat.le_succ _, Nat.le_refl _, List.suffix_rfl⟩,
    fun _ => ⟨[], rfl, rfl, rfl, rfl⟩⟩

/-- Before the end of the input, the token at the cursor is the next one. -/
theorem reads_peek : Reads peek (Still fun t rest => t.kind = .finish ∨ rest.head? = some t) := by
  intro c hc
  refine ⟨.refl c, fun _ => ⟨[], rfl, rfl, rfl, ?_⟩⟩
  cases hahead : c.ahead with
  | nil =>
    left
    simpa [Cursor.current, hahead, Token.isFinish] using hc
  | cons t rest =>
    right
    simp [Cursor.current, hahead]

/-- To ask whether a symbol is next reads no token. -/
theorem reads_check (symbol : Symbol) : Reads (check symbol) (Still fun _ _ => True) :=
  fun c _ => ⟨.refl c, fun _ => ⟨[], rfl, rfl, rfl, trivial⟩⟩

/-- To count the tokens that are left reads none of them. -/
theorem reads_remaining : Reads remaining (Still fun count rest => count = rest.length) :=
  fun c _ => ⟨.refl c, fun _ => ⟨[], rfl, rfl, rfl, rfl⟩⟩

/-- To ask for the end of the input reads no token. -/
theorem reads_atEnd : Reads atEnd (Still fun b rest => b = rest.isEmpty) :=
  fun c _ => ⟨.refl c, fun _ => ⟨[], rfl, rfl, rfl, rfl⟩⟩

/-- One token is taken, unless the input is at its end. -/
theorem reads_advance :
    Reads advance fun _ n ts m rest => m = n ∧ ((∃ t, ts = [t]) ∨ ts = [] ∧ rest = []) := by
  intro c _
  refine ⟨⟨rfl, Nat.le_refl _, Nat.le_refl _, List.tail_suffix _⟩, fun _ => ?_⟩
  cases hahead : c.ahead with
  | nil => exact ⟨[], by simp [hahead], rfl, .inr ⟨rfl, by simp [hahead]⟩⟩
  | cons t rest => exact ⟨[t], by simp [hahead], rfl, .inl ⟨t, rfl⟩⟩

/-- A token that has a meaning is taken, and where none is taken the next one
has no meaning. -/
theorem reads_acceptMap (select : Token → Option α) :
    Reads (acceptMap select) fun o n ts m rest => m = n ∧
      ((∃ a t, o = some a ∧ select t = some a ∧ ts = [t]) ∨
        o = none ∧ ts = [] ∧ ∀ t, rest.head? = some t → select t = none) := by
  intro c _
  rcases c with ⟨ahead, finish, nextId, errors⟩
  cases ahead with
  | nil => exact ⟨.refl _, fun _ => ⟨[], rfl, rfl, .inr ⟨rfl, rfl, by simp⟩⟩⟩
  | cons t rest =>
    cases hs : select t with
    | none =>
      simp only [acceptMap, modifyGet_apply, hs]
      exact ⟨.refl _, fun _ => ⟨[], rfl, rfl, .inr ⟨rfl, rfl, by simpa using hs⟩⟩⟩
    | some a =>
      simp only [acceptMap, modifyGet_apply, hs]
      exact ⟨⟨rfl, Nat.le_refl _, Nat.le_refl _, List.suffix_cons t rest⟩,
        fun _ => ⟨[t], rfl, rfl, .inl ⟨a, t, rfl, hs, rfl⟩⟩⟩

/-- A token that has to be there is the one that is read. -/
theorem reads_expectMap (select : Token → Option α) (what : String) :
    Reads (expectMap select what) (One fun a t => select t = some a) := by
  refine ((reads_acceptMap select).bind (S := fun o a n ts m _ => o = some a ∧ ts = [] ∧ m = n)
    fun o => ?_).mono ?_
  · cases o with
    | none => exact reads_fail _ _
    | some a => exact (reads_pure a).mono (by rintro b n ts m rest ⟨rfl, rfl, rfl⟩; simp)
  · rintro a n ts m rest ⟨o, ts₁, k, ts₂, ⟨rfl, h⟩, ⟨rfl, rfl, rfl⟩, rfl⟩
    rcases h with ⟨b, t, hb, hs, rfl⟩ | ⟨ho, -⟩
    · cases hb
      exact ⟨t, hs, rfl, rfl⟩
    · cases ho

/-- A symbol that has to be there is the one that is read. -/
theorem reads_expect (symbol : Symbol) (what : String) :
    Reads (expect symbol what) (One fun a t => a = t ∧ t.is symbol) := by
  refine (reads_expectMap _ what).mono ?_
  rintro a n ts m rest ⟨t, ht, rfl, rfl⟩
  split at ht
  · cases ht
    exact ⟨a, ⟨rfl, ‹_›⟩, rfl, rfl⟩
  · cases ht

/-- Only an identifier is a name, and its lexeme is the text of the name. -/
theorem nameOf?_eq_some {t : Token} {name : Name} (h : nameOf? t = some name) :
    t.kind = .identifier ∧ name = t.asName := by
  unfold nameOf? at h
  split at h
  · cases h
    exact ⟨‹_›, rfl⟩
  · cases h

/-- A name that has to be there is the one that is read. -/
theorem reads_expectName (what : String) :
    Reads (expectName what) (One fun name t => t.kind = .identifier ∧ name = t.asName) := by
  refine (reads_expectMap _ what).mono ?_
  rintro name n ts m rest ⟨t, ht, rfl, rfl⟩
  exact ⟨t, nameOf?_eq_some ht, rfl, rfl⟩

/-- Whether a list of tokens starts with the given symbol. -/
def StartsWith (symbol : Symbol) (ts : List Token) : Prop := ∃ t, ts.head? = some t ∧ t.is symbol

/-- A symbol that may be there is read, or it is not the next one. -/
theorem reads_accept? (symbol : Symbol) :
    Reads (accept? symbol) fun o n ts m rest => m = n ∧
      ((∃ t, o = some t ∧ t.is symbol ∧ ts = [t]) ∨
        o = none ∧ ts = [] ∧ ¬StartsWith symbol rest) := by
  refine (reads_acceptMap _).mono ?_
  rintro o n ts m rest ⟨rfl, ⟨a, t, rfl, ht, rfl⟩ | ⟨rfl, rfl, h⟩⟩
  · split at ht
    · cases ht
      exact ⟨rfl, .inl ⟨a, rfl, ‹_›, rfl⟩⟩
    · cases ht
  · refine ⟨rfl, .inr ⟨rfl, rfl, ?_⟩⟩
    rintro ⟨t, ht, his⟩
    simpa [his] using h t ht

/-- A symbol that is asked for is read, or it is not the next one. -/
theorem reads_accept (symbol : Symbol) :
    Reads (accept symbol) fun b n ts m rest => m = n ∧
      ((b = true ∧ ∃ t, t.is symbol ∧ ts = [t]) ∨
        b = false ∧ ts = [] ∧ ¬StartsWith symbol rest) := by
  refine ((reads_accept? symbol).bind (S := fun o b n ts m _ => b = o.isSome ∧ ts = [] ∧ m = n)
    fun o => ?_).mono ?_
  · exact (reads_pure o.isSome).mono (by rintro b n ts m rest ⟨rfl, rfl, rfl⟩; simp)
  · rintro b n ts m rest ⟨o, ts₁, k, ts₂, ⟨rfl, h⟩, ⟨rfl, rfl, rfl⟩, rfl⟩
    rcases h with ⟨t, rfl, ht, rfl⟩ | ⟨rfl, rfl, h⟩
    · exact ⟨rfl, .inl ⟨rfl, t, ht, rfl⟩⟩
    · exact ⟨rfl, .inr ⟨rfl, rfl, h⟩⟩

/-- A choice by whether a symbol is there to be taken. -/
theorem Reads.ifAccept (symbol : Symbol) {p q : Parse α}
    {R S : α → Nat → List Token → Nat → List Token → Prop} (hp : Reads p R) (hq : Reads q S) :
    Reads (do if ← accept symbol then p else q) fun a n ts m rest =>
      (∃ t us, t.is symbol ∧ R a n us m rest ∧ ts = t :: us) ∨
        S a n ts m rest ∧ ¬StartsWith symbol (ts ++ rest) := by
  refine ((reads_accept symbol).bind (S := fun b a n ts m rest =>
    b = true ∧ R a n ts m rest ∨ b = false ∧ S a n ts m rest) fun b => ?_).mono ?_
  · cases b with
    | true => exact hp.mono fun a n ts m rest h => .inl ⟨rfl, h⟩
    | false => exact hq.mono fun a n ts m rest h => .inr ⟨rfl, h⟩
  · intro a n ts m rest h
    obtain ⟨b, ts₁, k, ts₂, ⟨rfl, hb⟩, h, rfl⟩ := h
    rcases hb with ⟨rfl, t, ht, rfl⟩ | ⟨rfl, rfl, hnot⟩
    · rcases h with ⟨-, h⟩ | ⟨hb, -⟩
      · exact .inl ⟨t, ts₂, ht, h, rfl⟩
      · cases hb
    · rcases h with ⟨hb, -⟩ | ⟨-, h⟩
      · cases hb
      · exact .inr ⟨h, hnot⟩

/-- A choice by whether a symbol stands at the cursor. -/
theorem Reads.ifCheck (symbol : Symbol) {p q : Parse α}
    {R : α → Nat → List Token → Nat → List Token → Prop} (hp : Reads p R) (hq : Reads q R) :
    Reads (do if ← check symbol then p else q) R := by
  refine ((reads_check symbol).bindStill (S := fun _ => R) fun b => ?_).mono ?_
  · cases b with
    | true => exact hp
    | false => exact hq
  · intro a n ts m rest h
    obtain ⟨b, -, h⟩ := h
    exact h

/-- An operator that may be there is read, with the line of its token, or nothing is. -/
theorem reads_acceptOperator (select : Symbol → Option α) :
    Reads (acceptOperator select) fun o n ts m _ => m = n ∧
      ((∃ a t s, o = some (a, t.line) ∧ t.kind = .symbol s ∧ select s = some a ∧ ts = [t]) ∨
        o = none ∧ ts = []) := by
  refine (reads_acceptMap _).mono ?_
  rintro o n ts m rest ⟨rfl, ⟨a, t, rfl, ht, rfl⟩ | ⟨rfl, rfl, -⟩⟩
  · refine ⟨rfl, .inl ?_⟩
    split at ht
    · rename_i s hs
      obtain ⟨b, hb, rfl⟩ := Option.map_eq_some_iff.1 ht
      exact ⟨b, t, s, rfl, hs, hb, rfl⟩
    · cases ht
  · exact ⟨rfl, .inr ⟨rfl, rfl⟩⟩

/-- Without a report there was room for one more. -/
theorem reads_reportSurplus (what : String) (count : Nat) :
    Reads (reportSurplus what count) (Still fun _ _ => count < maxArguments) := by
  refine Reads.ite (fun _ => ?_) (fun h => ?_)
  · exact (reads_peek.bind fun t => reads_report _ (fun _ _ _ _ _ => False)).mono (by tauto)
  · exact (reads_pure ()).mono (by rintro _ n ts m rest ⟨rfl, rfl, -⟩; exact ⟨rfl, rfl, by omega⟩)

end Parse

end Lox

import Mathlib.Data.List.Nodup
import Lox.Proofs.Scope
import Lox.Proofs.Grammar

/-!
# Programs without errors are resolved

A tree that was derived from tokens, and in which no scope error is found, is
resolved with respect to what was found. The identities of a derivation are
handed out in order, so those of two parts of a tree are apart, and what was
found about one part says nothing about the other.

The initializer of a variable is read at a place where the variable is declared
and not ready. It is resolved at the place before the declaration, because it
neither reads the variable, which is an error, nor assigns to it.
-/

namespace Lox

namespace Findings

/-- Distances of two findings are those of each. -/
theorem distances_append (a b : Findings) : (a ++ b).distances = a.distances ++ b.distances := rfl

/-- Errors of two findings are those of each. -/
theorem errors_append (a b : Findings) : (a ++ b).errors = a.errors ++ b.errors := rfl

/-- Two findings are free of errors if both are. -/
theorem errors_append_eq_nil {a b : Findings} :
    (a ++ b).errors = [] ↔ a.errors = [] ∧ b.errors = [] := by
  rw [errors_append, List.append_eq_nil_iff]

/-- An error has no distance with it. -/
theorem distances_errorIf (condition : Bool) (place : Name) (cause : ScopeCause) :
    (errorIf condition place cause).distances = [] := by
  cases condition <;> rfl

/-- There is no error where the condition for it does not hold. -/
theorem errors_errorIf {condition : Bool} {place : Name} {cause : ScopeCause} :
    (errorIf condition place cause).errors = [] ↔ condition = false := by
  cases condition <;> simp [errorIf, none]

end Findings

namespace Context

variable {Γ : Context} {ref : Ref}

/-- A name that is looked up has its distance found, if it has one. -/
theorem mem_locate {id d : Nat} :
    (id, d) ∈ (Γ.locate ref).distances ↔ id = ref.id ∧ Γ.distance? ref.name.text = some d := by
  unfold locate
  split
  · rename_i h
    simp [h, eq_comm]
  · rename_i h
    simp [h, Findings.none]

end Context

/-- What is known is what was found, on the identities from `n` to `m`. -/
structure Agrees (K : Known) (n m : Nat) (ds : List (Nat × Nat)) : Prop where
  /-- What was found is known. -/
  found : ∀ id d, (id, d) ∈ ds → K id (some d)
  /-- Where nothing was found, it is known that there is nothing. -/
  missing : ∀ id, n ≤ id → id < m → (∀ d, (id, d) ∉ ds) → K id none

/-- Distances of different identities from `n` to `m`. -/
structure Within (n m : Nat) (ds : List (Nat × Nat)) : Prop where
  /-- The identities are from `n` to `m`. -/
  range : ∀ p ∈ ds, n ≤ p.1 ∧ p.1 < m
  /-- No identity has two distances. -/
  distinct : (ds.map (·.1)).Nodup

namespace Within

variable {n k m : Nat} {a b : List (Nat × Nat)}

/-- No distances are of any identities. -/
theorem nil (n m : Nat) : Within n m [] := ⟨nofun, List.nodup_nil⟩

/-- Distances of identities one stretch after the other are of the whole stretch. -/
theorem append (ha : Within n k a) (hb : Within k m b) (hn : n ≤ k) (hm : k ≤ m) :
    Within n m (a ++ b) := by
  constructor
  · intro p hp
    rcases List.mem_append.1 hp with hp | hp
    · have h := ha.range p hp
      omega
    · have h := hb.range p hp
      omega
  · rw [List.map_append, List.nodup_append]
    refine ⟨ha.distinct, hb.distinct, fun i hi j hj hij => ?_⟩
    obtain ⟨p, hp, rfl⟩ := List.mem_map.1 hi
    obtain ⟨q, hq, rfl⟩ := List.mem_map.1 hj
    have hp' := ha.range p hp
    have hq' := hb.range q hq
    omega

/-- It does not matter which distances were found first. -/
theorem swap (h : Within n m (a ++ b)) : Within n m (b ++ a) := by
  refine ⟨fun p hp => h.range p (List.mem_append.2 (List.mem_append.1 hp).symm), ?_⟩
  rw [List.map_append]
  exact List.nodup_append_comm.1 (List.map_append ▸ h.distinct)

/-- Distances of a stretch are of every wider one. -/
theorem widen {n' m' : Nat} (h : Within n m a) (hn : n' ≤ n) (hm : m ≤ m') : Within n' m' a := by
  refine ⟨fun p hp => ?_, h.distinct⟩
  have hrange := h.range p hp
  omega

end Within

namespace Agrees

variable {K : Known} {n k m : Nat} {a b : List (Nat × Nat)}

/-- What is known does not depend on what was found first. -/
theorem swap (h : Agrees K n m (a ++ b)) : Agrees K n m (b ++ a) := by
  constructor
  · intro id d hd
    exact h.found id d (List.mem_append.2 (List.mem_append.1 hd).symm)
  · intro id hn hm hd
    exact h.missing id hn hm fun d hmem =>
      hd d (List.mem_append.2 (List.mem_append.1 hmem).symm)

/-- What is known on a whole stretch is known on its first part, about which nothing was
found later. -/
theorem left (h : Agrees K n m (a ++ b)) (hb : Within k m b) (hm : k ≤ m) :
    Agrees K n k a := by
  constructor
  · intro id d hd
    exact h.found id d (List.mem_append_left _ hd)
  · intro id hn hk hd
    refine h.missing id hn (by omega) fun d hmem => ?_
    rcases List.mem_append.1 hmem with hmem | hmem
    · exact hd d hmem
    · have hrange := (hb.range _ hmem).1
      simp only at hrange
      omega

/-- So it is on its last part. -/
theorem right (h : Agrees K n m (a ++ b)) (ha : Within n k a) (hn : n ≤ k) :
    Agrees K k m b := by
  constructor
  · intro id d hd
    exact h.found id d (List.mem_append_right _ hd)
  · intro id hk hm hd
    refine h.missing id (by omega) hm fun d hmem => ?_
    rcases List.mem_append.1 hmem with hmem | hmem
    · have hrange := (ha.range _ hmem).2
      simp only at hrange
      omega
    · exact hd d hmem

/-- What is known about one reference. -/
theorem locate {Γ : Context} {ref : Ref} (h : Agrees K n m (Γ.locate ref).distances)
    (hn : n ≤ ref.id) (hm : ref.id < m) : K ref.id (Γ.distance? ref.name.text) := by
  cases hd : Γ.distance? ref.name.text with
  | some d => exact h.found ref.id d (Context.mem_locate.2 ⟨rfl, hd⟩)
  | none =>
    refine h.missing ref.id hn hm fun d hmem => ?_
    rw [Context.mem_locate, hd] at hmem
    cases hmem.2

end Agrees

/-- A distance that is looked up is of the identity of its reference. -/
theorem Context.within_locate {Γ : Context} {ref : Ref} {n m : Nat} (hn : n ≤ ref.id)
    (hm : ref.id < m) : Within n m (Γ.locate ref).distances := by
  unfold locate
  split
  · refine ⟨fun p hp => ?_, List.nodup_singleton _⟩
    rw [List.mem_singleton.1 hp]
    exact ⟨hn, hm⟩
  · exact .nil n m

/-- So is one that is found by reading. -/
theorem Context.within_read {Γ : Context} {ref : Ref} {n m : Nat} (hn : n ≤ ref.id)
    (hm : ref.id < m) : Within n m (Γ.read ref).distances := by
  rw [Context.read, Findings.distances_append, Findings.distances_errorIf]
  exact within_locate hn hm

/-- So is one that is found for a `this`. -/
theorem Context.within_readThis {Γ : Context} {id n m : Nat} (line : Nat) (hn : n ≤ id)
    (hm : id < m) : Within n m (Γ.readThis id line).distances := by
  unfold readThis
  split
  · rw [Findings.distances_errorIf]
    exact .nil n m
  · exact within_locate hn hm

/-- So is one that is found for a `super`. -/
theorem Context.within_readSuper {Γ : Context} {id n m : Nat} (line : Nat) (hn : n ≤ id)
    (hm : id < m) : Within n m (Γ.readSuper id line).distances := by
  rw [Context.readSuper, Findings.distances_append, Findings.distances_append,
    Findings.distances_errorIf, Findings.distances_errorIf]
  exact within_locate hn hm

namespace Grammar

/-- What is found in the trees of a phrase. -/
def Phrase.resolve (Γ : Context) : Phrase → Findings
  | .primary e | .call e | .unary e | .operation _ e | .expression e => e.resolve Γ
  | .list es | .arguments es => Expr.resolveList Γ es

/-- What is found in an operator tree is found in its operands, left before right. -/
theorem Operator.resolve_tree (op : Operator) (line : Nat) (a b : Expr) (Γ : Context) :
    (op.tree line a b).resolve Γ = a.resolve Γ ++ b.resolve Γ := by
  cases op <;> rw [Operator.tree, Expr.resolve]

/-- A single argument is looked at like the expression that it is. -/
theorem resolveList_singleton (Γ : Context) (e : Expr) :
    (Expr.resolveList Γ [e]).distances = (e.resolve Γ).distances ∧
      (Expr.resolveList Γ [e]).errors = (e.resolve Γ).errors := by
  rw [Expr.resolveList, Expr.resolveList]
  exact ⟨List.append_nil _, List.append_nil _⟩

/-- What is found about a phrase is about the identities of its derivation. -/
theorem Phrase.Derives.within {p : Phrase} {n m : Nat} {ts : List Token} (h : p.Derives n ts m)
    (Γ : Context) : n ≤ m ∧ Within n m (p.resolve Γ).distances := by
  induction h with
  | literal => exact ⟨Nat.le_refl _, .nil _ _⟩
  | noArguments => exact ⟨Nat.le_refl _, .nil _ _⟩
  | name =>
    refine ⟨Nat.le_succ _, ?_⟩
    rw [Phrase.resolve, Expr.resolve]
    exact Context.within_read (Nat.le_refl _) (Nat.lt_succ_self _)
  | this =>
    refine ⟨Nat.le_succ _, ?_⟩
    rw [Phrase.resolve, Expr.resolve]
    exact Context.within_readThis _ (Nat.le_refl _) (Nat.lt_succ_self _)
  | super =>
    refine ⟨Nat.le_succ _, ?_⟩
    rw [Phrase.resolve, Expr.resolve]
    exact Context.within_readSuper _ (Nat.le_refl _) (Nat.lt_succ_self _)
  | group _ _ _ ih | property _ _ _ ih | applied _ _ _ ih =>
    rw [Phrase.resolve, Expr.resolve]
    exact ih
  | primary _ ih | operand _ ih | tightest _ ih | tighter _ ih | operation _ ih
  | someArguments _ ih => exact ih
  | last _ ih =>
    rw [Phrase.resolve, (resolveList_singleton Γ _).1]
    exact ih
  | invocation _ _ _ _ _ ihe ihes =>
    rw [Phrase.resolve, Expr.resolve]
    exact ⟨Nat.le_trans ihe.1 ihes.1, ihe.2.append ihes.2 ihe.1 ihes.1⟩
  | more _ _ _ ihe ihes =>
    rw [Phrase.resolve, Expr.resolveList]
    exact ⟨Nat.le_trans ihe.1 ihes.1, ihe.2.append ihes.2 ihe.1 ihes.1⟩
  | joined _ _ _ _ iha ihb =>
    rw [Phrase.resolve, Operator.resolve_tree]
    exact ⟨Nat.le_trans iha.1 ihb.1, iha.2.append ihb.2 iha.1 ihb.1⟩
  | @assign t _ _ _ n m _ _ _ ih =>
    rw [Phrase.resolve, Expr.resolve]
    obtain ⟨hle, hvalue⟩ := ih
    have href : Within m (m + 1) (Γ.locate ⟨m, t.asName⟩).distances :=
      Context.within_locate (Nat.le_refl _) (Nat.lt_succ_self _)
    have hwide := hvalue.widen (Nat.le_succ _) (Nat.le_refl _)
    exact ⟨by omega, hwide.append href (by omega) (Nat.le_succ _)⟩
  | set _ _ _ _ _ iho ihe =>
    rw [Phrase.resolve, Expr.resolve]
    exact ⟨Nat.le_trans iho.1 ihe.1, (iho.2.append ihe.2 iho.1 ihe.1).swap⟩

/-- Every reference in the trees of a phrase is known. -/
def Phrase.Resolved (K : Known) (Γ : Context) : Phrase → Prop
  | .primary e | .call e | .unary e | .operation _ e | .expression e => e.Resolved K Γ
  | .list es | .arguments es => Expr.ResolvedList K Γ es

/-- Whether a tree of a phrase assigns to a name. -/
def Phrase.assignsTo (text : String) : Phrase → Bool
  | .primary e | .call e | .unary e | .operation _ e | .expression e => e.assignsTo text
  | .list es | .arguments es => Expr.assignsToList text es

/-- An operator tree is resolved if its operands are. -/
theorem Operator.resolved_tree {op : Operator} {line : Nat} {a b : Expr} {K : Known} {Γ : Context}
    (ha : a.Resolved K Γ) (hb : b.Resolved K Γ) : (op.tree line a b).Resolved K Γ := by
  cases op <;> exact ⟨ha, hb⟩

/-- An operator tree assigns to a name if one of its operands does. -/
theorem Operator.assignsTo_tree (op : Operator) (line : Nat) (a b : Expr) (text : String) :
    (op.tree line a b).assignsTo text = (a.assignsTo text || b.assignsTo text) := by
  cases op <;> rw [Operator.tree, Expr.assignsTo]

/-- No identifier among some tokens is spelled like a keyword that is bound like
a name. -/
def PlainNames (ts : List Token) : Prop := ∀ t ∈ ts, t.kind = .identifier → IsPlain t.lexeme

/-- Plain names are plain in both parts of the tokens. -/
theorem PlainNames.append {ts us : List Token} :
    PlainNames (ts ++ us) ↔ PlainNames ts ∧ PlainNames us := by
  simp only [PlainNames, List.mem_append, or_imp, forall_and]

/-- Plain names are plain in the first token and in the others. -/
theorem PlainNames.cons {t : Token} {ts : List Token} :
    PlainNames (t :: ts) ↔ (t.kind = .identifier → IsPlain t.lexeme) ∧ PlainNames ts := by
  simp only [PlainNames, List.mem_cons, or_imp, forall_and, forall_eq]

/-- A place `Γ'` is the place `Γ` but for some plain names that are declared and
not ready. -/
structure Views (Γ Γ' : Context) (hidden : String → Prop) : Prop where
  /-- Names that are not hidden have the same distance. -/
  same : ∀ text, ¬hidden text → Γ'.distance? text = Γ.distance? text
  /-- Names that are hidden wait for their first value. -/
  pending : ∀ text, hidden text → Γ'.isPending text = true
  /-- Names that are hidden are no keywords. -/
  plain : ∀ text, hidden text → IsPlain text
  /-- The keywords have their scopes where a class is around. -/
  inClass : Γ'.InClass

/-- A place is itself, with nothing hidden. -/
theorem Views.refl {Γ : Context} (h : Γ.InClass) : Views Γ Γ fun _ => False :=
  ⟨fun _ _ => rfl, nofun, nofun, h⟩

section Phrases

variable {K : Known} {Γ Γ' : Context} {hidden : String → Prop} {n m : Nat}

/-- A name that is read without error is known at the place where nothing is hidden. -/
theorem Views.read (hv : Views Γ Γ' hidden) {ref : Ref} (he : (Γ'.read ref).errors = [])
    (hk : Agrees K n m (Γ'.read ref).distances) (hn : n ≤ ref.id) (hm : ref.id < m) :
    K ref.id (Γ.distance? ref.name.text) := by
  rw [Context.read, Findings.errors_append_eq_nil, Findings.errors_errorIf] at he
  rw [Context.read, Findings.distances_append, Findings.distances_errorIf, List.nil_append] at hk
  rw [← hv.same]
  · exact hk.locate hn hm
  · intro hh
    rw [hv.pending _ hh] at he
    cases he.1

/-- So is a `this`. -/
theorem Views.readThis (hv : Views Γ Γ' hidden) {id line : Nat}
    (he : (Γ'.readThis id line).errors = [])
    (hk : Agrees K n m (Γ'.readThis id line).distances) (hn : n ≤ id) (hm : id < m) :
    (Expr.this id line).Resolved K Γ := by
  have hthis : Γ'.distance? "this" = Γ.distance? "this" :=
    hv.same _ fun hh => (hv.plain _ hh).1 rfl
  have hin := hv.inClass
  unfold Context.readThis at he hk
  unfold Context.InClass at hin
  cases henclosing : Γ'.enclosing with
  | outside =>
    rw [henclosing] at he
    cases he
  | base =>
    rw [henclosing] at hk hin
    obtain ⟨d, hd⟩ := hin
    exact ⟨d, hd ▸ hk.locate hn hm, hthis ▸ hd⟩
  | derived =>
    rw [henclosing] at hk hin
    obtain ⟨d, hd, -⟩ := hin
    exact ⟨d, hd ▸ hk.locate hn hm, hthis ▸ hd⟩

/-- So is a `super`. -/
theorem Views.readSuper (hv : Views Γ Γ' hidden) {id line : Nat} (method : Name)
    (he : (Γ'.readSuper id line).errors = [])
    (hk : Agrees K n m (Γ'.readSuper id line).distances) (hn : n ≤ id) (hm : id < m) :
    (Expr.super id line method).Resolved K Γ := by
  have hthis : Γ'.distance? "this" = Γ.distance? "this" :=
    hv.same _ fun hh => (hv.plain _ hh).1 rfl
  have hsuper : Γ'.distance? "super" = Γ.distance? "super" :=
    hv.same _ fun hh => (hv.plain _ hh).2 rfl
  have hin := hv.inClass
  rw [Context.readSuper, Findings.errors_append_eq_nil, Findings.errors_append_eq_nil,
    Findings.errors_errorIf, Findings.errors_errorIf] at he
  rw [Context.readSuper, Findings.distances_append, Findings.distances_append,
    Findings.distances_errorIf, Findings.distances_errorIf, List.nil_append, List.nil_append] at hk
  unfold Context.InClass at hin
  cases henclosing : Γ'.enclosing with
  | outside =>
    rw [henclosing] at he
    simp at he
  | base =>
    rw [henclosing] at he
    simp at he
  | derived =>
    rw [henclosing] at hin
    obtain ⟨d, hd, hs⟩ := hin
    exact ⟨d, hs ▸ hk.locate hn hm, hsuper ▸ hs, hthis ▸ hd⟩

end Phrases

/-- A phrase without errors is resolved. -/
theorem Phrase.Derives.resolved {p : Phrase} {n m : Nat} {ts : List Token} (h : p.Derives n ts m)
    {K : Known} {Γ Γ' : Context} {hidden : String → Prop} (hv : Views Γ Γ' hidden)
    (hts : PlainNames ts) (ha : ∀ text, hidden text → p.assignsTo text = false)
    (he : (p.resolve Γ').errors = []) (hk : Agrees K n m (p.resolve Γ').distances) :
    p.Resolved K Γ := by
  induction h with
  | literal => trivial
  | noArguments => trivial
  | name =>
    rw [Phrase.resolve, Expr.resolve] at he hk
    exact hv.read he hk (Nat.le_refl _) (Nat.lt_succ_self _)
  | this =>
    rw [Phrase.resolve, Expr.resolve] at he hk
    exact hv.readThis he hk (Nat.le_refl _) (Nat.lt_succ_self _)
  | @super _ _ t =>
    rw [Phrase.resolve, Expr.resolve] at he hk
    exact hv.readSuper t.asName he hk (Nat.le_refl _) (Nat.lt_succ_self _)
  | group _ _ _ ih =>
    rw [PlainNames.cons, PlainNames.append] at hts
    rw [Phrase.resolve, Expr.resolve] at he hk
    exact ih hts.2.1 ha he hk
  | property _ _ _ ih =>
    rw [PlainNames.append] at hts
    rw [Phrase.resolve, Expr.resolve] at he hk
    exact ih hts.1 ha he hk
  | applied _ _ _ ih =>
    rw [PlainNames.cons] at hts
    rw [Phrase.resolve, Expr.resolve] at he hk
    exact ih hts.2 ha he hk
  | primary _ ih | operand _ ih | tightest _ ih | tighter _ ih | operation _ ih
  | someArguments _ ih => exact ih hts ha he hk
  | last _ ih =>
    rw [Phrase.resolve, (resolveList_singleton Γ' _).2] at he
    rw [Phrase.resolve, (resolveList_singleton Γ' _).1] at hk
    refine ⟨ih hts (fun text hh => ?_) he hk, trivial⟩
    have hfree := ha text hh
    rw [Phrase.assignsTo, Expr.assignsToList, Bool.or_eq_false_iff] at hfree
    exact hfree.1
  | invocation hd _ hds _ _ ihe ihes =>
    rw [PlainNames.append, PlainNames.cons, PlainNames.append] at hts
    rw [Phrase.resolve, Expr.resolve] at he hk
    rw [Findings.errors_append_eq_nil] at he
    have hwithin := hd.within Γ'
    have hwithin' := hds.within Γ'
    have hfree : ∀ text, hidden text → _ := fun text hh => Bool.or_eq_false_iff.1 (ha text hh)
    exact ⟨ihe hts.1 (fun text hh => (hfree text hh).1) he.1 (hk.left hwithin'.2 hwithin'.1),
      ihes hts.2.2.1 (fun text hh => (hfree text hh).2) he.2 (hk.right hwithin.2 hwithin.1)⟩
  | more hd _ hds ihe ihes =>
    rw [PlainNames.append, PlainNames.cons] at hts
    rw [Phrase.resolve, Expr.resolveList] at he hk
    rw [Findings.errors_append_eq_nil] at he
    have hwithin := hd.within Γ'
    have hwithin' := hds.within Γ'
    have hfree : ∀ text, hidden text → _ := fun text hh => Bool.or_eq_false_iff.1 (ha text hh)
    exact ⟨ihe hts.1 (fun text hh => (hfree text hh).1) he.1 (hk.left hwithin'.2 hwithin'.1),
      ihes hts.2.2 (fun text hh => (hfree text hh).2) he.2 (hk.right hwithin.2 hwithin.1)⟩
  | @joined _ _ op _ _ a b _ _ _ _ _ hd _ _ hds iha ihb =>
    rw [PlainNames.append, PlainNames.cons] at hts
    rw [Phrase.resolve, Operator.resolve_tree] at he hk
    rw [Findings.errors_append_eq_nil] at he
    have hwithin := hd.within Γ'
    have hwithin' := hds.within Γ'
    have hfree : ∀ text, hidden text → a.assignsTo text = false ∧ b.assignsTo text = false := by
      intro text hh
      have h := ha text hh
      rwa [Phrase.assignsTo, Operator.assignsTo_tree, Bool.or_eq_false_iff] at h
    exact Operator.resolved_tree
      (iha hts.1 (fun text hh => (hfree text hh).1) he.1 (hk.left hwithin'.2 hwithin'.1))
      (ihb hts.2.2 (fun text hh => (hfree text hh).2) he.2 (hk.right hwithin.2 hwithin.1))
  | @assign t _ e _ n m ht _ hd ih =>
    rw [PlainNames.cons, PlainNames.cons] at hts
    rw [Phrase.resolve, Expr.resolve] at he hk
    rw [Findings.errors_append_eq_nil] at he
    have hwithin := hd.within Γ'
    have hwithin' : Within m (m + 1) (Γ'.locate ⟨m, t.asName⟩).distances :=
      Context.within_locate (Nat.le_refl _) (Nat.lt_succ_self _)
    have hvalue : Agrees K (n + 1) m (e.resolve Γ').distances :=
      ⟨(hk.left hwithin' (Nat.le_succ _)).found, fun id hn hm =>
        (hk.left hwithin' (Nat.le_succ _)).missing id (by omega) hm⟩
    have href : Agrees K m (m + 1) (Γ'.locate ⟨m, t.asName⟩).distances := by
      exact hk.right (hwithin.2.widen (Nat.le_succ _) (Nat.le_refl _)) (by omega)
    have hfree : ∀ text, hidden text → (t.lexeme == text) = false ∧ e.assignsTo text = false :=
      fun text hh => Bool.or_eq_false_iff.1 (ha text hh)
    refine ⟨ih hts.2.2 (fun text hh => (hfree text hh).2) he.1 hvalue, ?_, hts.1 ht⟩
    rw [← hv.same]
    · exact href.locate (Nat.le_refl _) (Nat.lt_succ_self _)
    · intro hh
      exact beq_eq_false_iff_ne.1 (hfree _ hh).1 rfl
  | set hd _ _ _ hds iho ihe =>
    rw [PlainNames.append, PlainNames.cons, PlainNames.cons, PlainNames.cons] at hts
    rw [Phrase.resolve, Expr.resolve] at he hk
    rw [Findings.errors_append_eq_nil] at he
    have hwithin := hd.within Γ'
    have hwithin' := hds.within Γ'
    have hfree : ∀ text, hidden text → _ := fun text hh => Bool.or_eq_false_iff.1 (ha text hh)
    exact ⟨iho hts.1 (fun text hh => (hfree text hh).1) he.2
        (hk.swap.left hwithin'.2 hwithin'.1),
      ihe hts.2.2.2.2 (fun text hh => (hfree text hh).2) he.1
        (hk.swap.right hwithin.2 hwithin.1)⟩

/-! ### Statements -/

/-- A declaration finds no distance. -/
theorem Context.distances_introduce (Γ : Context) (name : Name) :
    (Γ.introduce name).distances = [] :=
  Findings.distances_errorIf _ _ _

/-- Parameters find no distance. -/
theorem Context.distances_parameters (Γ : Context) (params : List Name) :
    (Γ.parameters params).distances = [] := by
  induction params generalizing Γ with
  | nil => rfl
  | cons name params ih =>
    rw [Context.parameters, Findings.distances_append, distances_introduce, ih]
    rfl

/-- A `return` finds no distance. -/
theorem Context.distances_returned (Γ : Context) (line : Nat) (hasValue : Bool) :
    (Γ.returned line hasValue).distances = [] := by
  rw [Context.returned, Findings.distances_append, Findings.distances_errorIf,
    Findings.distances_errorIf]
  rfl

/-- What is found in an optional expression is of the identities of its derivation. -/
theorem Optional.within {value : Option Expr} {n m : Nat} {ts : List Token}
    (h : Optional value n ts m) (Γ : Context) :
    n ≤ m ∧ Within n m (resolveOption Γ value).distances := by
  cases h with
  | none => exact ⟨Nat.le_refl _, .nil _ _⟩
  | some h => exact h.within Γ

/-- So is what is found in an initializer. -/
theorem Initial.within {value : Option Expr} {n m : Nat} {ts : List Token}
    (h : Initial value n ts m) (Γ : Context) :
    n ≤ m ∧ Within n m (resolveOption Γ value).distances := by
  cases h with
  | none => exact ⟨Nat.le_refl _, .nil _ _⟩
  | some _ h => exact h.within Γ

/-- So is what is found in a declaration of a variable. -/
theorem Variable.within {s : Stmt} {n m : Nat} {ts : List Token} (h : Variable s n ts m)
    (Γ : Context) : n ≤ m ∧ Within n m (s.resolve Γ).distances := by
  cases h with
  | mk _ hvalue _ =>
    rw [Stmt.resolve, Findings.distances_append, Context.distances_introduce]
    exact hvalue.within _

/-- So is what is found in an expression with a semicolon behind it. -/
theorem Plain.within {e : Expr} {n m : Nat} {ts : List Token} (h : Plain e n ts m) (Γ : Context) :
    n ≤ m ∧ Within n m (e.resolve Γ).distances := by
  cases h with
  | mk he _ => exact he.within Γ

/-- So is what is found for the name of a superclass. -/
theorem Parent.within {parent : Option Ref} {n m : Nat} {ts : List Token}
    (h : Parent parent n ts m) (Γ : Context) (name : Name) :
    n ≤ m ∧ Within n m (Γ.superclass name parent).distances := by
  cases h with
  | none => exact ⟨Nat.le_refl _, .nil _ _⟩
  | some =>
    refine ⟨Nat.le_succ _, ?_⟩
    rw [Context.superclass, Findings.distances_append, Findings.distances_errorIf]
    exact Context.within_read (Nat.le_refl _) (Nat.lt_succ_self _)

/-- What is found about a condition that holds if it is missing. -/
theorem resolve_condition (Γ : Context) (condition : Option Expr) :
    (condition.getD (.literal (.bool true))).resolve Γ = resolveOption Γ condition := by
  cases condition with
  | none => rw [Option.getD_none, Expr.resolve, resolveOption]
  | some e => rfl

/-- What is found in two statements is found in the first one, and then in the second one
at the place behind it. -/
theorem resolveList_pair (Γ : Context) (s t : Stmt) :
    (Stmt.resolveList Γ [s, t]).distances =
        (s.resolve Γ).distances ++ (t.resolve (Γ.after s)).distances ∧
      (Stmt.resolveList Γ [s, t]).errors =
        (s.resolve Γ).errors ++ (t.resolve (Γ.after s)).errors := by
  rw [Stmt.resolveList, Stmt.resolveList, Stmt.resolveList]
  simp only [Findings.distances_append, Findings.errors_append]
  exact ⟨by rw [Findings.none, List.append_nil], by rw [Findings.none, List.append_nil]⟩

/-- What is found in a loop with an increment, the increment being read first. -/
theorem within_followedBy {body : Stmt} {increment : Option Expr} {n k m : Nat}
    (hi : ∀ Γ, n ≤ k ∧ Within n k (resolveOption Γ increment).distances)
    (hb : ∀ Γ, k ≤ m ∧ Within k m (body.resolve Γ).distances) (Γ : Context) :
    Within n m ((followedBy body increment).resolve Γ).distances := by
  have hle := (hi Γ).1
  have hle' := (hb Γ).1
  cases increment with
  | none => exact (hb Γ).2.widen hle (Nat.le_refl _)
  | some e =>
    rw [followedBy, Stmt.resolve, (resolveList_pair _ _ _).1, Stmt.resolve]
    exact ((hi _).2.append (hb _).2 hle hle').swap

/-- What is found about a sentence is about the identities of its derivation. -/
def Sentence.FoundWithin (n m : Nat) : Sentence → Prop
  | .declaration s | .statement _ s => ∀ Γ, Within n m (s.resolve Γ).distances
  | .declarations ss => ∀ Γ, Within n m (Stmt.resolveList Γ ss).distances
  | .function f => ∀ Γ b, Within n m (FunDecl.resolve Γ b f).distances
  | .functions fs => ∀ Γ, Within n m (FunDecl.resolveList Γ fs).distances

/-- What is found in a sentence is of the identities of its derivation, which are handed
out in order. -/
theorem Sentence.Derives.within {nearest : Bool} {p : Sentence} {n m : Nat} {ts : List Token}
    (h : p.Derives nearest n ts m) : n ≤ m ∧ p.FoundWithin n m := by
  induction h with
  | statement _ ih => exact ih
  | varDecl _ h => exact ⟨(h.within .top).1, fun Γ => (h.within Γ).2⟩
  | funDecl _ _ ih =>
    refine ⟨ih.1, fun Γ => ?_⟩
    rw [Stmt.resolve, Findings.distances_append, Context.distances_introduce]
    exact ih.2 _ _
  | @classDecl _ t _ _ parent _ _ _ _ _ _ _ _ hp _ _ _ ih =>
    have hparent := fun Γ => hp.within Γ t.asName
    have hle := (hparent .top).1
    refine ⟨Nat.le_trans hle ih.1, fun Γ => ?_⟩
    rw [Stmt.resolve, Findings.distances_append, Findings.distances_append,
      Context.distances_introduce, List.nil_append]
    exact (hparent _).2.append (ih.2 _) hle ih.1
  | noMethods => exact ⟨Nat.le_refl _, fun Γ => .nil _ _⟩
  | methods _ _ ihf ihfs =>
    refine ⟨Nat.le_trans ihf.1 ihfs.1, fun Γ => ?_⟩
    rw [FunDecl.resolveList, Findings.distances_append]
    exact (ihf.2 _ _).append (ihfs.2 _) ihf.1 ihfs.1
  | functionWithout _ _ _ _ _ _ ih | functionWith _ _ _ _ _ _ _ _ ih =>
    refine ⟨ih.1, fun Γ b => ?_⟩
    rw [FunDecl.resolve, Findings.distances_append, Context.distances_parameters]
    exact ih.2 _
  | noDeclarations => exact ⟨Nat.le_refl _, fun Γ => .nil _ _⟩
  | declarations _ _ ihs ihss =>
    refine ⟨Nat.le_trans ihs.1 ihss.1, fun Γ => ?_⟩
    rw [Stmt.resolveList, Findings.distances_append]
    exact (ihs.2 _).append (ihss.2 _) ihs.1 ihss.1
  | expression h =>
    refine ⟨(h.within .top).1, fun Γ => ?_⟩
    rw [Stmt.resolve]
    exact (h.within Γ).2
  | print _ h =>
    refine ⟨(h.within .top).1, fun Γ => ?_⟩
    rw [Stmt.resolve]
    exact (h.within Γ).2
  | result _ h _ =>
    refine ⟨(h.within .top).1, fun Γ => ?_⟩
    rw [Stmt.resolve, Findings.distances_append, Context.distances_returned]
    exact (h.within Γ).2
  | block _ _ _ ih =>
    refine ⟨ih.1, fun Γ => ?_⟩
    rw [Stmt.resolve]
    exact ih.2 _
  | branch _ _ he _ _ ih =>
    have hle := (he.within .top).1
    refine ⟨Nat.le_trans hle ih.1, fun Γ => ?_⟩
    rw [Stmt.resolve, Findings.distances_append]
    exact (he.within Γ).2.append (ih.2 Γ) hle ih.1
  | branchElse _ _ he _ _ _ _ _ ihy ihn =>
    have hle := (he.within .top).1
    have hle' := Nat.le_trans hle ihy.1
    refine ⟨Nat.le_trans hle' ihn.1, fun Γ => ?_⟩
    rw [Stmt.resolve, Findings.distances_append, Findings.distances_append]
    exact ((he.within Γ).2.append (ihy.2 Γ) hle ihy.1).append (ihn.2 Γ) hle' ihn.1
  | loop _ _ he _ _ ih =>
    have hle := (he.within .top).1
    refine ⟨Nat.le_trans hle ih.1, fun Γ => ?_⟩
    rw [Stmt.resolve, Findings.distances_append]
    exact (he.within Γ).2.append (ih.2 Γ) hle ih.1
  | @forLoop _ _ _ _ first condition increment _ body _ _ _ _ n m k j i _ _ hf hc _ hi _ _ ih =>
    have hle := (hc.within .top).1
    have hle' := (hi.within .top).1
    have hloop : ∀ Γ, Within m i ((Stmt.loop (condition.getD (.literal (.bool true)))
        (followedBy body increment)).resolve Γ).distances := by
      intro Γ
      rw [Stmt.resolve, Findings.distances_append, resolve_condition]
      refine (hc.within Γ).2.append ?_ hle (Nat.le_trans hle' ih.1)
      exact within_followedBy (fun Γ => hi.within Γ) (fun Γ => ⟨ih.1, ih.2 Γ⟩) Γ
    have hle'' := ih.1
    cases hf with
    | none => exact ⟨by omega, hloop⟩
    | varDecl _ h =>
      have hfirst := (h.within .top).1
      refine ⟨by omega, fun Γ => ?_⟩
      rw [precededBy, Stmt.resolve, (resolveList_pair _ _ _).1]
      exact (h.within _).2.append (hloop _) hfirst (by omega)
    | expression h =>
      have hfirst := (h.within .top).1
      refine ⟨by omega, fun Γ => ?_⟩
      rw [precededBy, Stmt.resolve, (resolveList_pair _ _ _).1, Stmt.resolve]
      exact (h.within _).2.append (hloop _) hfirst (by omega)

/-- A statement on the top level has no scope around it. -/
structure Fits (isLocal : Bool) (Γ : Context) : Prop where
  /-- The keywords have their scopes where a class is around. -/
  inClass : Γ.InClass
  /-- A statement on the top level is in no scope. -/
  top : isLocal = false → Γ.scopes = []

/-- An optional expression without errors is resolved. -/
theorem Optional.resolved {value : Option Expr} {n m : Nat} {ts : List Token}
    (h : Optional value n ts m) {K : Known} {Γ : Context} (hΓ : Γ.InClass) (hts : PlainNames ts)
    (he : (resolveOption Γ value).errors = [])
    (hk : Agrees K n m (resolveOption Γ value).distances) : ResolvedOption K Γ value := by
  cases h with
  | none => trivial
  | some h => exact h.resolved (.refl hΓ) hts nofun he hk

/-- An expression with a semicolon behind it is resolved if it has no errors. -/
theorem Plain.resolved {e : Expr} {n m : Nat} {ts : List Token} (h : Plain e n ts m) {K : Known}
    {Γ : Context} (hΓ : Γ.InClass) (hts : PlainNames ts) (he : (e.resolve Γ).errors = [])
    (hk : Agrees K n m (e.resolve Γ).distances) : e.Resolved K Γ := by
  cases h with
  | mk h _ => exact h.resolved (.refl hΓ) (PlainNames.append.1 hts).1 nofun he hk

/-- The place of an initializer, when it does not assign to its variable. -/
theorem Fits.views {isLocal : Bool} {Γ : Context} (hΓ : Fits isLocal Γ) {text : String}
    (hfree : Γ.isTaken text = false) (hplain : IsPlain text) :
    Views Γ (Γ.declare text) fun other => isLocal = true ∧ Γ.scopes ≠ [] ∧ other = text := by
  obtain ⟨scopes, b, e⟩ := Γ
  cases scopes with
  | nil => exact ⟨fun _ _ => rfl, fun _ h => absurd rfl h.2.1, fun _ h => absurd rfl h.2.1,
      hΓ.inClass⟩
  | cons scope scopes =>
    have hlocal : isLocal = true := by
      cases isLocal with
      | true => rfl
      | false => cases hΓ.top rfl
    refine ⟨fun other hother => ?_, fun other hother => ?_, fun other hother => ?_, ?_⟩
    · exact Context.distance?_declare fun h => hother ⟨hlocal, by simp, h⟩
    · obtain ⟨-, -, rfl⟩ := hother
      exact Scope.isPending_declare hfree
    · obtain ⟨-, -, rfl⟩ := hother
      exact hplain
    · refine hΓ.inClass.congr (Context.enclosing_onInnermost _) ⟨0, fun other hother => ?_⟩
      have hne : other ≠ text := by
        rcases hother with rfl | rfl
        · exact hplain.1.symm
        · exact hplain.2.symm
      rw [Context.distance?_declare hne]
      simp

/-- A declaration of a variable without errors is resolved, unless a local one assigns to
itself. -/
theorem Variable.resolved {s : Stmt} {n m : Nat} {ts : List Token} (h : Variable s n ts m)
    {K : Known} {Γ : Context} {isLocal : Bool} (hΓ : Fits isLocal Γ) (hts : PlainNames ts)
    (ha : s.assignsOwnInitializer isLocal = false) (he : (s.resolve Γ).errors = [])
    (hk : Agrees K n m (s.resolve Γ).distances) : s.Resolved K Γ := by
  cases h with
  | mk ht hvalue _ =>
    rw [PlainNames.cons, PlainNames.append] at hts
    rw [Stmt.resolve] at he hk
    rw [Findings.errors_append_eq_nil, Context.introduce, Findings.errors_errorIf] at he
    rw [Findings.distances_append, Context.distances_introduce, List.nil_append] at hk
    refine ⟨⟨he.1, hts.1 ht⟩, ?_⟩
    cases hvalue with
    | none => trivial
    | some _ hvalue =>
      refine hvalue.resolved (hΓ.views he.1 (hts.1 ht)) (PlainNames.cons.1 hts.2.1).2 ?_ he.2 hk
      intro other hother
      obtain ⟨rfl, -, rfl⟩ := hother
      exact ha

/-- A statement is no declaration. -/
theorem after_of_statement {nearest o : Bool} {s : Stmt} {n m : Nat} {ts : List Token}
    (h : (Sentence.statement o s).Derives nearest n ts m) (Γ : Context) : Γ.after s = Γ := by
  cases h with
  | @forLoop _ _ _ _ first => cases first <;> rfl
  | _ => rfl

/-- The place after a resolved statement is again inside what it was inside. -/
theorem Fits.after {isLocal : Bool} {Γ : Context} (hΓ : Fits isLocal Γ) {K : Known} {s : Stmt}
    (hs : s.Resolved K Γ) : Fits isLocal (Γ.after s) := by
  have hdefine : ∀ text, IsPlain text → Fits isLocal (Γ.define text) := by
    intro text htext
    refine ⟨hΓ.inClass.define htext, fun htop => ?_⟩
    have hscopes := hΓ.top htop
    rw [Context.define, Context.onInnermost, hscopes]
    exact hscopes
  cases s with
  | varDecl name value => exact hdefine _ hs.1.plain
  | funDecl f => exact hdefine _ hs.1.plain
  | classDecl name parent methods => exact hdefine _ hs.1.plain
  | _ => exact hΓ

/-- A block has a scope around it. -/
theorem Fits.block {isLocal : Bool} {Γ : Context} (hΓ : Fits isLocal Γ) :
    Fits true (Γ.enter []) :=
  ⟨hΓ.inClass.enter ⟨rfl, rfl⟩, nofun⟩

/-- Parameters without errors are different names. -/
theorem nodup_of_parameters {Γ : Context} {scope : Scope} {params : List Name}
    (h : ((Γ.enter scope).parameters params).errors = []) :
    (params.map (·.text)).Nodup ∧ ∀ name ∈ params, scope.has name.text = false := by
  induction params generalizing scope with
  | nil => exact ⟨.nil, nofun⟩
  | cons name params ih =>
    rw [Context.parameters, Findings.errors_append_eq_nil, Context.introduce,
      Findings.errors_errorIf] at h
    obtain ⟨hfree, hrest⟩ := h
    change ((Γ.enter (scope.define name.text)).parameters params).errors = [] at hrest
    obtain ⟨hnodup, hapart⟩ := ih hrest
    have hapart' : ∀ other ∈ params, name.text ≠ other.text ∧ scope.has other.text = false := by
      intro other hother
      have hno := hapart other hother
      rw [Scope.has_define, Bool.or_eq_false_iff] at hno
      exact ⟨beq_eq_false_iff_ne.1 hno.1, hno.2⟩
    constructor
    · rw [List.map_cons, List.nodup_cons]
      refine ⟨fun hmem => ?_, hnodup⟩
      obtain ⟨other, hother, heq⟩ := List.mem_map.1 hmem
      exact (hapart' other hother).1 heq.symm
    · intro other hother
      rcases List.mem_cons.1 hother with rfl | hother
      · exact hfree
      · exact (hapart' other hother).2

/-- Parameters of plain names are plain. -/
theorem Parameters.plain {names : List Name} {ts : List Token} (h : Parameters names ts)
    (hts : PlainNames ts) : ∀ name ∈ names, IsPlain name.text := by
  induction h with
  | last ht =>
    intro name hname
    rw [List.mem_singleton.1 hname]
    exact (PlainNames.cons.1 hts).1 ht
  | more ht _ _ ih =>
    rw [PlainNames.cons, PlainNames.cons] at hts
    intro name hname
    rcases List.mem_cons.1 hname with rfl | hname
    · exact hts.1 ht
    · exact ih hts.2.2 name hname

/-- A superclass that is read without error is resolved. -/
theorem Parent.resolved {parent : Option Ref} {n m : Nat} {ts : List Token}
    (h : Parent parent n ts m) {K : Known} {Γ : Context} (hΓ : Γ.InClass) {name : Name}
    (he : (Γ.superclass name parent).errors = [])
    (hk : Agrees K n m (Γ.superclass name parent).distances) : Γ.ResolvedParent K parent := by
  cases h with
  | none => trivial
  | some =>
    rw [Context.superclass] at he hk
    rw [Findings.errors_append_eq_nil] at he
    rw [Findings.distances_append, Findings.distances_errorIf, List.nil_append] at hk
    exact (Views.refl hΓ).read he.2 hk (Nat.le_refl _) (Nat.lt_succ_self _)

/-- A sentence without errors is resolved, whatever the place and the findings
about other sentences. -/
def Sentence.Sound (K : Known) (n m : Nat) : Sentence → Prop
  | .declaration s | .statement _ s => ∀ Γ isLocal, Fits isLocal Γ →
      s.assignsOwnInitializer isLocal = false → (s.resolve Γ).errors = [] →
      Agrees K n m (s.resolve Γ).distances → s.Resolved K Γ
  | .declarations ss => ∀ Γ isLocal, Fits isLocal Γ →
      Stmt.assignsOwnInitializerList isLocal ss = false → (Stmt.resolveList Γ ss).errors = [] →
      Agrees K n m (Stmt.resolveList Γ ss).distances → Stmt.ResolvedList K Γ ss
  | .function f => ∀ Γ b, Γ.InClass → FunDecl.assignsOwnInitializer f = false →
      (FunDecl.resolve Γ b f).errors = [] → Agrees K n m (FunDecl.resolve Γ b f).distances →
      FunDecl.Resolved K Γ b f
  | .functions fs => ∀ Γ, Γ.InClass → FunDecl.assignsOwnInitializerList fs = false →
      (FunDecl.resolveList Γ fs).errors = [] →
      Agrees K n m (FunDecl.resolveList Γ fs).distances → FunDecl.ResolvedList K Γ fs

section Sound

variable {K : Known} {nearest : Bool} {n m k j i : Nat} {ts us : List Token}

/-- A function is sound if its body is: its parameters are in one scope with it. -/
theorem sound_function {name : Name} {params : List Name} {ss : List Stmt}
    (hp : ∀ name ∈ params, IsPlain name.text) (ih : (Sentence.declarations ss).Sound K n m) :
    (Sentence.function ⟨name, params, ss⟩).Sound K n m := by
  intro Γ b hΓ ha he hk
  rw [FunDecl.resolve] at he hk
  rw [Findings.errors_append_eq_nil] at he
  rw [Findings.distances_append, Context.distances_parameters, List.nil_append] at hk
  rw [FunDecl.assignsOwnInitializer] at ha
  exact ⟨(nodup_of_parameters he.1).1, hp, ih _ true ⟨hΓ.inFunction b hp, nofun⟩ ha he.2 hk⟩

/-- A class is sound if its methods are: the scopes of the keywords are around them. -/
theorem sound_classDecl {t : Token} {parent : Option Ref} {fs : List FunDecl}
    (ht : IsPlain t.lexeme) (hp : Parent parent n us m)
    (hd : (Sentence.functions fs).Derives nearest m ts k)
    (ih : (Sentence.functions fs).Sound K m k) :
    (Sentence.declaration (.classDecl t.asName parent fs)).Sound K n k := by
  intro Γ isLocal hΓ ha he hk
  rw [Stmt.resolve] at he hk
  rw [Findings.errors_append_eq_nil, Findings.errors_append_eq_nil, Context.introduce,
    Findings.errors_errorIf] at he
  rw [Findings.distances_append, Findings.distances_append, Context.distances_introduce,
    List.nil_append] at hk
  obtain ⟨⟨hfree, heparent⟩, hemethods⟩ := he
  have hparent := hp.within (Γ.define t.lexeme) t.asName
  have hmethods := hd.within
  have hinside : (Γ.define t.lexeme).InClass := hΓ.inClass.define ht
  refine ⟨⟨hfree, ht⟩, hp.resolved hinside heparent (hk.left (hmethods.2 _) hmethods.1), ?_⟩
  exact ih _ (Context.inClass_inClass _ _) ha hemethods (hk.right hparent.2 hparent.1)

/-- Declarations are sound one after the other, the second one at the place behind the first. -/
theorem sound_declarations {s : Stmt} {ss : List Stmt}
    (hs : (Sentence.declaration s).Derives nearest n ts m)
    (hss : (Sentence.declarations ss).Derives nearest m us k)
    (ihs : (Sentence.declaration s).Sound K n m) (ihss : (Sentence.declarations ss).Sound K m k) :
    (Sentence.declarations (s :: ss)).Sound K n k := by
  intro Γ isLocal hΓ ha he hk
  rw [Stmt.resolveList] at he hk
  rw [Findings.errors_append_eq_nil] at he
  rw [Stmt.assignsOwnInitializerList, Bool.or_eq_false_iff] at ha
  have hwithin := hs.within
  have hwithin' := hss.within
  have hfirst := ihs Γ isLocal hΓ ha.1 he.1 (hk.left (hwithin'.2 _) hwithin'.1)
  exact ⟨hfirst, ihss _ isLocal (hΓ.after hfirst) ha.2 he.2 (hk.right (hwithin.2 _) hwithin.1)⟩

/-- A conditional without `else` is sound if its branch is. -/
theorem sound_branch {e : Expr} {o : Bool} {yes : Stmt} (hts : PlainNames ts)
    (he : (Phrase.expression e).Derives n ts m)
    (hy : (Sentence.statement o yes).Derives nearest m us k)
    (ih : (Sentence.statement o yes).Sound K m k) :
    (Sentence.statement true (.branch e yes none)).Sound K n k := by
  intro Γ isLocal hΓ ha herrors hk
  rw [Stmt.resolve] at herrors hk
  rw [Findings.errors_append_eq_nil] at herrors
  have hwithin := he.within Γ
  have hwithin' := hy.within
  exact ⟨he.resolved (.refl hΓ.inClass) hts nofun herrors.1 (hk.left (hwithin'.2 Γ) hwithin'.1),
    ih Γ isLocal hΓ ha herrors.2 (hk.right hwithin.2 hwithin.1), after_of_statement hy Γ⟩

/-- A conditional is sound if both of its branches are. -/
theorem sound_branchElse {e : Expr} {o o' : Bool} {yes no : Stmt} {vs : List Token}
    (hts : PlainNames ts) (he : (Phrase.expression e).Derives n ts m)
    (hy : (Sentence.statement o yes).Derives nearest m us k)
    (hn : (Sentence.statement o' no).Derives nearest k vs j)
    (ihy : (Sentence.statement o yes).Sound K m k) (ihn : (Sentence.statement o' no).Sound K k j) :
    (Sentence.statement o' (.branch e yes (some no))).Sound K n j := by
  intro Γ isLocal hΓ ha herrors hk
  rw [Stmt.resolve] at herrors hk
  rw [Findings.errors_append_eq_nil, Findings.errors_append_eq_nil] at herrors
  rw [Stmt.assignsOwnInitializer, Bool.or_eq_false_iff] at ha
  rw [Findings.distances_append] at hk
  have hwithin := he.within Γ
  have hwithin' := hy.within
  have hwithin'' := hn.within
  have hfirst : Agrees K n k _ := hk.left (hwithin''.2 Γ) hwithin''.1
  have hsecond : Agrees K k j (no.resolve Γ).distances := by
    refine hk.right ?_ (Nat.le_trans hwithin.1 hwithin'.1)
    exact hwithin.2.append (hwithin'.2 Γ) hwithin.1 hwithin'.1
  exact ⟨he.resolved (.refl hΓ.inClass) hts nofun herrors.1.1
      (hfirst.left (hwithin'.2 Γ) hwithin'.1),
    ⟨ihy Γ isLocal hΓ ha.1 herrors.1.2 (hfirst.right hwithin.2 hwithin.1),
      after_of_statement hy Γ⟩,
    ihn Γ isLocal hΓ ha.2 herrors.2 hsecond, after_of_statement hn Γ⟩

/-- A loop is sound if its body is. -/
theorem sound_loop {e : Expr} {o : Bool} {body : Stmt} (hts : PlainNames ts)
    (he : (Phrase.expression e).Derives n ts m)
    (hb : (Sentence.statement o body).Derives nearest m us k)
    (ih : (Sentence.statement o body).Sound K m k) :
    (Sentence.statement o (.loop e body)).Sound K n k := by
  intro Γ isLocal hΓ ha herrors hk
  rw [Stmt.resolve] at herrors hk
  rw [Findings.errors_append_eq_nil] at herrors
  have hwithin := he.within Γ
  have hwithin' := hb.within
  exact ⟨he.resolved (.refl hΓ.inClass) hts nofun herrors.1 (hk.left (hwithin'.2 Γ) hwithin'.1),
    ih Γ isLocal hΓ ha herrors.2 (hk.right hwithin.2 hwithin.1), after_of_statement hb Γ⟩

/-- The body of a loop with its increment, the increment being read first. -/
theorem sound_followedBy {o : Bool} {body : Stmt} {increment : Option Expr} (hus : PlainNames us)
    (hi : Optional increment n us k) (hb : (Sentence.statement o body).Derives nearest k ts m)
    (ih : (Sentence.statement o body).Sound K k m) :
    (Sentence.statement o (followedBy body increment)).Sound K n m := by
  intro Γ isLocal hΓ ha he hk
  have hwithin := hi.within
  have hwithin' := hb.within
  cases increment with
  | none =>
    refine ih Γ isLocal hΓ ha he ⟨hk.found, fun id hn => hk.missing id ?_⟩
    exact Nat.le_trans (hwithin Γ).1 hn
  | some e =>
    rw [followedBy, Stmt.resolve, (resolveList_pair _ _ _).2, after_of_statement hb,
      List.append_eq_nil_iff] at he
    rw [followedBy, Stmt.resolve, (resolveList_pair _ _ _).1, after_of_statement hb] at hk
    rw [followedBy, Stmt.assignsOwnInitializer, Stmt.assignsOwnInitializerList,
      Bool.or_eq_false_iff] at ha
    rw [Stmt.resolve] at he hk
    have hafter := after_of_statement hb (Γ.enter [])
    have hbody := ih (Γ.enter []) true hΓ.block ha.1 he.1
      (hk.swap.right (hwithin (Γ.enter [])).2 (hwithin (Γ.enter [])).1)
    have hincrement := hi.resolved hΓ.block.inClass hus he.2
      (hk.swap.left (hwithin'.2 (Γ.enter [])) hwithin'.1)
    refine ⟨hbody, ?_, trivial⟩
    rw [hafter]
    exact hincrement

/-- A body with an increment behind it declares nothing. -/
theorem after_followedBy {o : Bool} {body : Stmt}
    (hb : (Sentence.statement o body).Derives nearest n ts m) (increment : Option Expr)
    (Γ : Context) : Γ.after (followedBy body increment) = Γ := by
  cases increment with
  | none => exact after_of_statement hb Γ
  | some e => rfl

/-- The loop of a `for` is sound if its body is. -/
theorem sound_repeated {o : Bool} {body : Stmt} {condition increment : Option Expr}
    {vs : List Token} (hus : PlainNames us) (hvs : PlainNames vs) (hc : Optional condition n us m)
    (hi : Optional increment m vs k) (hb : (Sentence.statement o body).Derives nearest k ts j)
    (ih : (Sentence.statement o body).Sound K k j) :
    (Sentence.statement o (.loop (condition.getD (.literal (.bool true)))
      (followedBy body increment))).Sound K n j := by
  intro Γ isLocal hΓ ha he hk
  rw [Stmt.resolve, resolve_condition] at he hk
  rw [Findings.errors_append_eq_nil] at he
  have hwithin := hc.within Γ
  have hbody : Within m j ((followedBy body increment).resolve Γ).distances :=
    within_followedBy hi.within (fun Γ => ⟨hb.within.1, hb.within.2 Γ⟩) Γ
  have hle : m ≤ j := Nat.le_trans (hi.within Γ).1 hb.within.1
  refine ⟨?_, ?_, after_followedBy hb increment Γ⟩
  · have hcondition := hc.resolved hΓ.inClass hus he.1 (hk.left hbody hle)
    cases condition with
    | none => trivial
    | some e => exact hcondition
  · exact sound_followedBy hvs hi hb ih Γ isLocal hΓ ha he.2 (hk.right hwithin.2 hwithin.1)

/-- A loop in a scope with what runs once before it. -/
theorem sound_precededBy {o : Bool} {first loop : Stmt}
    (hfirst : ∀ Γ, n ≤ m ∧ Within n m (first.resolve Γ).distances)
    (hloop : ∀ Γ, m ≤ k ∧ Within m k (loop.resolve Γ).distances)
    (hf : ∀ Γ, Fits true Γ → first.assignsOwnInitializer true = false →
      (first.resolve Γ).errors = [] → Agrees K n m (first.resolve Γ).distances →
      first.Resolved K Γ)
    (hl : (Sentence.statement o loop).Sound K m k) :
    (Sentence.statement o (.block [first, loop])).Sound K n k := by
  intro Γ isLocal hΓ ha he hk
  rw [Stmt.resolve, (resolveList_pair _ _ _).2, List.append_eq_nil_iff] at he
  rw [Stmt.resolve, (resolveList_pair _ _ _).1] at hk
  rw [Stmt.assignsOwnInitializer, Stmt.assignsOwnInitializerList, Bool.or_eq_false_iff,
    Stmt.assignsOwnInitializerList, Bool.or_eq_false_iff] at ha
  have hresolved := hf (Γ.enter []) hΓ.block ha.1 he.1 (hk.left (hloop _).2 (hloop .top).1)
  refine ⟨hresolved, ?_, trivial⟩
  exact hl _ true (hΓ.block.after hresolved) ha.2.1 he.2 (hk.right (hfirst _).2 (hfirst .top).1)

end Sound

/-- A sentence that is derived from tokens with plain names is resolved if no
error is found in it and no initializer assigns to its variable. -/
theorem Sentence.Derives.sound {nearest : Bool} {p : Sentence} {n m : Nat} {ts : List Token}
    (h : p.Derives nearest n ts m) (hts : PlainNames ts) (K : Known) : p.Sound K n m := by
  induction h with
  | statement _ ih => exact ih hts
  | varDecl _ h =>
    intro Γ isLocal hΓ ha he hk
    exact h.resolved hΓ (PlainNames.cons.1 hts).2 ha he hk
  | @funDecl _ f ts _ _ _ h ih =>
    intro Γ isLocal hΓ ha he hk
    have hplain : IsPlain f.name.text := by
      cases h with
      | functionWithout ht => exact (PlainNames.cons.1 (PlainNames.cons.1 hts).2).1 ht
      | functionWith ht => exact (PlainNames.cons.1 (PlainNames.cons.1 hts).2).1 ht
    rw [Stmt.resolve] at he hk
    rw [Findings.errors_append_eq_nil, Context.introduce, Findings.errors_errorIf] at he
    rw [Findings.distances_append, Context.distances_introduce, List.nil_append] at hk
    exact ⟨⟨he.1, hplain⟩, ih (PlainNames.cons.1 hts).2 _ _ (hΓ.inClass.define hplain) ha he.2 hk⟩
  | classDecl _ ht hp _ h _ ih =>
    simp only [PlainNames.cons, PlainNames.append] at hts
    exact sound_classDecl (hts.2.1 ht) hp h (ih hts.2.2.2.2.1)
  | noMethods => exact fun _ _ _ _ _ => trivial
  | methods hf hfs ihf ihfs =>
    rw [PlainNames.append] at hts
    intro Γ hΓ ha he hk
    rw [FunDecl.resolveList] at he hk
    rw [Findings.errors_append_eq_nil] at he
    rw [FunDecl.assignsOwnInitializerList, Bool.or_eq_false_iff] at ha
    have hwithin := hf.within
    have hwithin' := hfs.within
    exact ⟨ihf hts.1 _ _ hΓ ha.1 he.1 (hk.left (hwithin'.2 _) hwithin'.1),
      ihfs hts.2 _ hΓ ha.2 he.2 (hk.right (hwithin.2 _ _) hwithin.1)⟩
  | functionWithout _ _ _ _ _ _ ih =>
    simp only [PlainNames.cons, PlainNames.append] at hts
    exact sound_function nofun (ih hts.2.2.2.2.1)
  | functionWith _ _ hps _ _ _ _ _ ih =>
    simp only [PlainNames.cons, PlainNames.append] at hts
    exact sound_function (hps.plain hts.2.2.1) (ih hts.2.2.2.2.2.1)
  | noDeclarations => exact fun _ _ _ _ _ _ => trivial
  | declarations hs hss ihs ihss =>
    rw [PlainNames.append] at hts
    exact sound_declarations hs hss (ihs hts.1) (ihss hts.2)
  | expression h =>
    intro Γ isLocal hΓ _ he hk
    rw [Stmt.resolve] at he hk
    exact h.resolved hΓ.inClass hts he hk
  | print _ h =>
    intro Γ isLocal hΓ _ he hk
    rw [Stmt.resolve] at he hk
    exact h.resolved hΓ.inClass (PlainNames.cons.1 hts).2 he hk
  | result _ h _ =>
    simp only [PlainNames.cons, PlainNames.append] at hts
    intro Γ isLocal hΓ _ he hk
    rw [Stmt.resolve] at he hk
    rw [Findings.errors_append_eq_nil] at he
    rw [Findings.distances_append, Context.distances_returned, List.nil_append] at hk
    exact h.resolved hΓ.inClass hts.2.1 he.2 hk
  | block _ _ _ ih =>
    simp only [PlainNames.cons, PlainNames.append] at hts
    intro Γ isLocal hΓ ha he hk
    rw [Stmt.resolve] at he hk
    exact ih hts.2.1 _ true hΓ.block ha he hk
  | branch _ _ he _ hy ih =>
    simp only [PlainNames.cons, PlainNames.append] at hts
    exact sound_branch hts.2.2.1 he hy (ih hts.2.2.2.2)
  | branchElse _ _ he _ hy _ _ hn ihy ihn =>
    simp only [PlainNames.cons, PlainNames.append] at hts
    exact sound_branchElse hts.2.2.1 he hy hn (ihy hts.2.2.2.2.1) (ihn hts.2.2.2.2.2.2)
  | loop _ _ he _ hb ih =>
    simp only [PlainNames.cons, PlainNames.append] at hts
    exact sound_loop hts.2.2.1 he hb (ih hts.2.2.2.2)
  | forLoop hw hl hf hc hs hi hr hb ih =>
    simp only [PlainNames.cons, PlainNames.append] at hts
    obtain ⟨-, -, hfirst, hcondition, -, hincrement, -, hbody⟩ := hts
    have hloop := sound_repeated hcondition hincrement hc hi hb (ih hbody)
    have hnone := (Sentence.Derives.forLoop hw hl (First.none hs) hc hs hi hr hb).within
    cases hf with
    | none => exact hloop
    | varDecl _ h =>
      refine sound_precededBy h.within (fun Γ => ⟨hnone.1, hnone.2 Γ⟩) ?_ hloop
      intro Γ hΓ ha he hk
      exact h.resolved hΓ (PlainNames.cons.1 hfirst).2 ha he hk
    | expression h =>
      refine sound_precededBy (fun Γ => ?_) (fun Γ => ⟨hnone.1, hnone.2 Γ⟩) ?_ hloop
      · rw [Stmt.resolve]
        exact h.within Γ
      · intro Γ hΓ _ he hk
        rw [Stmt.resolve] at he hk
        exact h.resolved hΓ.inClass hfirst he hk

end Grammar

end Lox

import Lox.Proofs.Session.Lines
import Lox.Proofs.Tokens.Trivia
import Lox.Proofs.Tree.Words

/-!
# Texts of trees tell trees apart

The text of a program determines its trees up to identities and lines, if no strings and
only finite numbers are written down in it. A form can be read from the front of a text in
one way only: what its first character is tells a word from a node, and the character behind
a word tells whether parameters follow. The form of a tree is found again like this, and
with it the tree.
-/

namespace Lox

/-! ### Forms -/

mutual

/-- A form whose words can be told from their texts. -/
def Form.Legible : Form → Prop
  | .word w => w.Legible
  | .signature name params => IsName name ∧ ∀ param ∈ params, IsName param
  | .node head parts => head.text.all isInWord = true ∧ Form.LegibleList parts

/-- Forms whose words can be told from their texts. -/
def Form.LegibleList : List Form → Prop
  | [] => True
  | form :: rest => form.Legible ∧ Form.LegibleList rest

end

/-- A form may be at the end of a text. -/
theorem endsForm_nil : EndsForm [] := fun c hc => by cases hc

/-- A form may be at the end of a node. -/
theorem endsForm_close (rest : List Char) : EndsForm (')' :: rest) := by
  intro c hc
  cases hc
  exact .inr rfl

/-- A word ends where a node starts. -/
theorem endsWord_open (rest : List Char) : EndsWord ('(' :: rest) := by
  intro c hc
  cases hc
  rfl

/-- A form ends where further parts of a node follow, or the end of the node. -/
theorem endsForm_textList (forms : List Form) (rest : List Char) :
    EndsForm (Form.textList forms ++ ')' :: rest) := by
  cases forms with
  | nil => exact endsForm_close rest
  | cons form forms =>
    intro c hc
    cases hc
    exact .inl rfl

/-- A name ends where further names follow, or the end of the parameters. -/
theorem endsForm_names (names : List String) (rest : List Char) :
    EndsForm ((names.flatMap fun name => ' ' :: name.toList) ++ ')' :: rest) := by
  cases names with
  | nil => exact endsForm_close rest
  | cons name names =>
    intro c hc
    cases hc
    exact .inl rfl

/-- Names behind blanks can be read in one way. -/
theorem names_unique {names names' : List String} (h : ∀ name ∈ names, IsName name)
    (h' : ∀ name ∈ names', IsName name) {rest rest' : List Char}
    (heq : (names.flatMap fun name => ' ' :: name.toList) ++ ')' :: rest =
      (names'.flatMap fun name => ' ' :: name.toList) ++ ')' :: rest') :
    names = names' ∧ rest = rest' := by
  induction names generalizing names' with
  | nil =>
    cases names' with
    | nil => exact ⟨rfl, (List.cons.inj heq).2⟩
    | cons name' names' => cases (List.cons.inj heq).1
  | cons name names ih =>
    cases names' with
    | nil => cases (List.cons.inj heq).1
    | cons name' names' =>
      rw [List.forall_mem_cons] at h h'
      simp only [List.flatMap_cons, List.cons_append, List.append_assoc, List.cons.injEq,
        true_and] at heq
      obtain ⟨hname, heq⟩ := word_unique h.1.isInWord h'.1.isInWord
        (endsForm_names names rest).endsWord (endsForm_names names' rest').endsWord heq
      obtain ⟨rfl, hrest⟩ := ih h.2 h'.2 heq
      exact ⟨by rw [String.toList_inj.mp hname], hrest⟩

/-- Parameters can be read in one way. -/
theorem namesText_unique {names names' : List String} (h : ∀ name ∈ names, IsName name)
    (h' : ∀ name ∈ names', IsName name) {rest rest' : List Char}
    (heq : namesText names ++ ')' :: rest = namesText names' ++ ')' :: rest') :
    names = names' ∧ rest = rest' := by
  cases names with
  | nil =>
    cases names' with
    | nil => exact ⟨rfl, (List.cons.inj heq).2⟩
    | cons name' names' =>
      rw [List.forall_mem_cons] at h'
      rw [namesText, namesText, List.append_assoc] at heq
      exact absurd heq.symm (word_ne_cons h'.1.ne_nil h'.1.isInWord rfl)
  | cons name names =>
    rw [List.forall_mem_cons] at h
    cases names' with
    | nil =>
      rw [namesText, namesText, List.append_assoc] at heq
      exact absurd heq (word_ne_cons h.1.ne_nil h.1.isInWord rfl)
    | cons name' names' =>
      rw [← List.forall_mem_cons] at h
      apply names_unique h h'
      simpa [namesText] using heq

/-- A word is no signature: it is not followed by a parenthesis. -/
theorem word_ne_signature {word name rest rest' : List Char}
    (hword : ∀ c ∈ word, isInWord c = true) (hname : ∀ c ∈ name, isInWord c = true)
    (hrest : EndsForm rest) : word ++ rest ≠ name ++ '(' :: rest' := by
  intro heq
  obtain ⟨-, rfl⟩ := word_unique hword hname hrest.endsWord (endsWord_open rest') heq
  rcases hrest '(' rfl with h | h <;> cases h

mutual

/-- A form can be read from the front of a text in one way. -/
theorem Form.unique : ∀ (form form' : Form) {rest rest' : List Char}, form.Legible →
    form'.Legible → EndsForm rest → EndsForm rest' → form.text ++ rest = form'.text ++ rest' →
    form = form' ∧ rest = rest'
  | .word w, .word w', rest, rest', h, h', hrest, hrest', heq => by
    obtain ⟨htext, hsame⟩ :=
      word_unique h.isInWord h'.isInWord hrest.endsWord hrest'.endsWord heq
    exact ⟨by rw [h.eq h' htext], hsame⟩
  | .word w, .signature name' params', rest, rest', h, h', hrest, _, heq => by
    -- Both start with a word, but only a signature goes on with a parenthesis.
    simp only [Form.text, List.append_assoc, List.cons_append] at heq
    exact absurd heq (word_ne_signature h.isInWord h'.1.isInWord hrest)
  | .word w, .node head' parts', rest, rest', h, _, _, _, heq =>
    -- Only a node starts with a parenthesis.
    absurd heq (word_ne_cons h.ne_nil h.isInWord rfl)
  | .signature name params, .word w', rest, rest', h, h', _, hrest', heq => by
    simp only [Form.text, List.append_assoc, List.cons_append] at heq
    exact absurd heq.symm (word_ne_signature h'.isInWord h.1.isInWord hrest')
  | .signature name params, .signature name' params', rest, rest', h, h', _, _, heq => by
    simp only [Form.text, List.append_assoc, List.cons_append, List.nil_append] at heq
    obtain ⟨hname, heq⟩ :=
      word_unique h.1.isInWord h'.1.isInWord (endsWord_open _) (endsWord_open _) heq
    obtain ⟨rfl, hsame⟩ := namesText_unique h.2 h'.2 (List.cons.inj heq).2
    exact ⟨by rw [String.toList_inj.mp hname], hsame⟩
  | .signature name params, .node head' parts', rest, rest', h, _, _, _, heq => by
    simp only [Form.text, List.append_assoc] at heq
    exact absurd heq (word_ne_cons h.1.ne_nil h.1.isInWord rfl)
  | .node head parts, .word w', rest, rest', _, h', _, _, heq =>
    absurd heq.symm (word_ne_cons h'.ne_nil h'.isInWord rfl)
  | .node head parts, .signature name' params', rest, rest', _, h', _, _, heq => by
    simp only [Form.text, List.append_assoc] at heq
    exact absurd heq.symm (word_ne_cons h'.1.ne_nil h'.1.isInWord rfl)
  | .node head parts, .node head' parts', rest, rest', h, h', _, _, heq => by
    simp only [Form.text, List.append_assoc, List.cons_append, List.nil_append, List.cons.injEq,
      true_and] at heq
    obtain ⟨hhead, heq⟩ := word_unique (List.all_eq_true.mp h.1) (List.all_eq_true.mp h'.1)
      (endsForm_textList parts rest).endsWord (endsForm_textList parts' rest').endsWord heq
    obtain ⟨rfl, hsame⟩ := Form.uniqueList parts parts' h.2 h'.2 heq
    exact ⟨by rw [Head.text_inj hhead], hsame⟩

/-- Parts of a node can be read from the front of a text in one way only. -/
theorem Form.uniqueList : ∀ (forms forms' : List Form) {rest rest' : List Char},
    Form.LegibleList forms → Form.LegibleList forms' →
    Form.textList forms ++ ')' :: rest = Form.textList forms' ++ ')' :: rest' →
    forms = forms' ∧ rest = rest'
  | [], [], rest, rest', _, _, heq => ⟨rfl, (List.cons.inj heq).2⟩
  | [], _ :: _, _, _, _, _, heq => by cases (List.cons.inj heq).1
  | _ :: _, [], _, _, _, _, heq => by cases (List.cons.inj heq).1
  | form :: forms, form' :: forms', rest, rest', h, h', heq => by
    simp only [Form.textList, List.cons_append, List.append_assoc, List.cons.injEq,
      true_and] at heq
    obtain ⟨rfl, hlater⟩ := Form.unique form form' h.1 h'.1 (endsForm_textList forms rest)
      (endsForm_textList forms' rest') heq
    obtain ⟨rfl, hsame⟩ := Form.uniqueList forms forms' h.2 h'.2 hlater
    exact ⟨rfl, hsame⟩

end

/-! ### Forms of programs -/

/-- An operator before one operand is written as a word. -/
theorem UnaryOp.isInWord_symbol (op : UnaryOp) :
    (Head.symbol op.symbol).text.all isInWord = true := by
  cases op <;> rfl

/-- An operator between two operands is written as a word. -/
theorem BinaryOp.isInWord_symbol (op : BinaryOp) :
    (Head.symbol op.symbol).text.all isInWord = true := by
  cases op <;> rfl

/-- A logical operator is written as a word. -/
theorem LogicalOp.isInWord_symbol (op : LogicalOp) :
    (Head.symbol op.symbol).text.all isInWord = true := by
  cases op <;> rfl

/-- Forms that can be told from their texts may be put behind one another. -/
theorem Form.legibleList_append {forms forms' : List Form} (h : Form.LegibleList forms)
    (h' : Form.LegibleList forms') : Form.LegibleList (forms ++ forms') := by
  induction forms with
  | nil => exact h'
  | cons form forms ih => exact ⟨h.1, ih h.2⟩

/-- The names that tokens spell are names that a program can choose. -/
def SpellNames (M : Token → Prop) : Prop := ∀ name : Name, name.IsOf M → IsName name.text

section Legible

variable {M : Token → Prop}

mutual

/-- The form of an expression over tokens can be told from its text, if its literals can. -/
theorem Expr.legible_form (hM : SpellNames M) : ∀ e : Expr, e.Over M →
    (∀ v ∈ e.literals, v.isLegible = true) → e.form.Legible
  | .literal value, _, h => h value (.head _)
  | .group inner, hover, h => ⟨rfl, inner.legible_form hM hover h, trivial⟩
  | .unary op _ operand, hover, h =>
    ⟨op.isInWord_symbol, operand.legible_form hM hover.2 h, trivial⟩
  | .binary op _ left right, hover, h =>
    have h := List.forall_mem_append.mp h
    ⟨op.isInWord_symbol, left.legible_form hM hover.2.1 h.1, right.legible_form hM hover.2.2 h.2,
      trivial⟩
  | .logical op _ left right, hover, h =>
    have h := List.forall_mem_append.mp h
    ⟨op.isInWord_symbol, left.legible_form hM hover.2.1 h.1, right.legible_form hM hover.2.2 h.2,
      trivial⟩
  | .var ref, hover, _ => hM ref.name hover
  | .assign ref value, hover, h =>
    ⟨rfl, hM ref.name hover.1, value.legible_form hM hover.2 h, trivial⟩
  | .call callee arguments _, hover, h =>
    have h := List.forall_mem_append.mp h
    ⟨rfl, callee.legible_form hM hover.1 h.1,
      Expr.legible_formList hM arguments hover.2.1 h.2⟩
  | .get object name, hover, h =>
    ⟨rfl, object.legible_form hM hover.1 h, hM name hover.2, trivial⟩
  | .set object name value, hover, h =>
    have h := List.forall_mem_append.mp h
    ⟨rfl, ⟨rfl, object.legible_form hM hover.1 h.1, hM name hover.2.1, trivial⟩,
      value.legible_form hM hover.2.2 h.2, trivial⟩
  | .this _ _, _, _ => trivial
  | .super _ _ method, hover, _ => ⟨rfl, hM method hover.2, trivial⟩

/-- The forms of expressions over tokens can be told from their texts. -/
theorem Expr.legible_formList (hM : SpellNames M) : ∀ es : List Expr, Expr.OverList M es →
    (∀ v ∈ Expr.literalsList es, v.isLegible = true) → Form.LegibleList (Expr.formList es)
  | [], _, _ => trivial
  | e :: rest, hover, h =>
    have h := List.forall_mem_append.mp h
    ⟨e.legible_form hM hover.1 h.1, Expr.legible_formList hM rest hover.2 h.2⟩

end

/-- The form of an expression that may be missing can be told from its text. -/
theorem legible_formOption (hM : SpellNames M) {e : Option Expr} (hover : OverOption M e)
    (h : ∀ v ∈ literalsOption e, v.isLegible = true) : Form.LegibleList (formOption e) := by
  cases e with
  | none => trivial
  | some e => exact ⟨e.legible_form hM hover h, trivial⟩

/-- The forms of a superclass can be told from their texts. -/
theorem legible_formParent (hM : SpellNames M) {parent : Option Ref} (hover : OverParent M parent) :
    Form.LegibleList (formParent parent) := by
  cases parent with
  | none => trivial
  | some ref => exact ⟨trivial, hM ref.name hover, trivial⟩

mutual

/-- The form of a statement over tokens can be told from its text, if its literals can. -/
theorem Stmt.legible_form (hM : SpellNames M) : ∀ s : Stmt, s.Over M →
    (∀ v ∈ s.literals, v.isLegible = true) → s.form.Legible
  | .expression e, hover, h => ⟨rfl, e.legible_form hM hover h, trivial⟩
  | .print e, hover, h => ⟨rfl, e.legible_form hM hover h, trivial⟩
  | .varDecl name _, hover, h =>
    ⟨rfl, hM name hover.1, legible_formOption hM hover.2 h⟩
  | .block body, hover, h => ⟨rfl, Stmt.legible_formList hM body hover h⟩
  | .branch condition yes none, hover, h =>
    have h := List.forall_mem_append.mp h
    ⟨rfl, condition.legible_form hM hover.1 h.1, yes.legible_form hM hover.2 h.2, trivial⟩
  | .branch condition yes (some no), hover, h =>
    have h := List.forall_mem_append.mp h
    have h' := List.forall_mem_append.mp h.1
    ⟨rfl, condition.legible_form hM hover.1 h'.1, yes.legible_form hM hover.2.1 h'.2,
      no.legible_form hM hover.2.2 h.2, trivial⟩
  | .loop condition body, hover, h =>
    have h := List.forall_mem_append.mp h
    ⟨rfl, condition.legible_form hM hover.1 h.1, body.legible_form hM hover.2 h.2, trivial⟩
  | .funDecl function, hover, h => FunDecl.legible_form hM function hover h
  | .result _ _, hover, h => ⟨rfl, legible_formOption hM hover.2 h⟩
  | .classDecl name _ methods, hover, h =>
    ⟨rfl, hM name hover.1, Form.legibleList_append (legible_formParent hM hover.2.1)
      (FunDecl.legible_formList hM methods hover.2.2 h)⟩

/-- The forms of statements over tokens can be told from their texts. -/
theorem Stmt.legible_formList (hM : SpellNames M) : ∀ ss : List Stmt, Stmt.OverList M ss →
    (∀ v ∈ Stmt.literalsList ss, v.isLegible = true) → Form.LegibleList (Stmt.formList ss)
  | [], _, _ => trivial
  | s :: rest, hover, h =>
    have h := List.forall_mem_append.mp h
    ⟨s.legible_form hM hover.1 h.1, Stmt.legible_formList hM rest hover.2 h.2⟩

/-- The form of a function over tokens can be told from its text. -/
theorem FunDecl.legible_form (hM : SpellNames M) : ∀ f : FunDecl, FunDecl.Over M f →
    (∀ v ∈ FunDecl.literals f, v.isLegible = true) → (FunDecl.form f).Legible
  | ⟨name, params, body⟩, hover, h => by
    refine ⟨rfl, ⟨hM name hover.1, ?_⟩, Stmt.legible_formList hM body hover.2.2 h⟩
    intro text htext
    obtain ⟨param, hparam, rfl⟩ := List.mem_map.mp htext
    exact hM param (hover.2.1 param hparam)

/-- The forms of methods over tokens can be told from their texts. -/
theorem FunDecl.legible_formList (hM : SpellNames M) : ∀ fs : List FunDecl, FunDecl.OverList M fs →
    (∀ v ∈ FunDecl.literalsList fs, v.isLegible = true) →
    Form.LegibleList (FunDecl.formList fs)
  | [], _, _ => trivial
  | f :: rest, hover, h =>
    have h := List.forall_mem_append.mp h
    ⟨FunDecl.legible_form hM f hover.1 h.1, FunDecl.legible_formList hM rest hover.2 h.2⟩

end

end Legible

/-! ### Faithful texts -/

/-- The identifiers of a source spell names that a program can choose. -/
theorem spellNames_scan (source : String) : SpellNames (· ∈ Item.tokens (scan source)) := by
  rintro name ⟨t, ht, hkind, rfl⟩
  have hfinish : t.isFinish = false := by simp [Token.isFinish, hkind]
  have hspells := spells_of_mem_scanFrom _ 1 t (Item.token_mem_of_mem_tokens ht) hfinish
  rw [hkind] at hspells
  exact hspells

/-- Lists of forms with the same texts are the same. -/
theorem Form.eq_of_map_text {forms forms' : List Form} (h : Form.LegibleList forms)
    (h' : Form.LegibleList forms') (heq : forms.map Form.text = forms'.map Form.text) :
    forms = forms' := by
  induction forms generalizing forms' with
  | nil =>
    cases forms' with
    | nil => rfl
    | cons form' forms' => cases heq
  | cons form forms ih =>
    cases forms' with
    | nil => cases heq
    | cons form' forms' =>
      obtain ⟨htext, hlater⟩ := List.cons.inj heq
      have hform : form = form' := (Form.unique form form' h.1 h'.1 endsForm_nil endsForm_nil
        (congrArg (· ++ []) htext)).1
      rw [hform, ih h.2 h'.2 hlater]

/-- Two programs that are read from sources, with no strings and with finite numbers only,
are the same but for identities and lines if their texts are the same. -/
theorem rendering_faithful (first second : String) (n m : Nat)
    (hfirst : ∀ v ∈ Stmt.literalsList (Program.ofSource first n).statements, v.isLegible = true)
    (hsecond : ∀ v ∈ Stmt.literalsList (Program.ofSource second m).statements,
      v.isLegible = true)
    (h : Stmt.renderList (Program.ofSource first n).statements =
      Stmt.renderList (Program.ofSource second m).statements) :
    Stmt.bareList (Program.ofSource first n).statements =
      Stmt.bareList (Program.ofSource second m).statements := by
  apply Stmt.bareList_eq
  apply Form.eq_of_map_text
  · exact Stmt.legible_formList (spellNames_scan first) _ (Program.over first n) hfirst
  · exact Stmt.legible_formList (spellNames_scan second) _ (Program.over second m) hsecond
  · rw [← Stmt.map_renderList, ← Stmt.map_renderList, h]

/-- Blanks, lines and the zeros of a fraction are not in the trees. -/
theorem rendering_faithful_respaced :
    Stmt.renderList
          (Program.ofSource "class A<B\x7bm(x)\x7breturn -x.y*(1.5);\x7d\x7d" 0).statements =
        ["(class A < B (fun m(x) (return (* (- (. x y)) (group 1.5)))))"] ∧
      Stmt.bareList
          (Program.ofSource "class A<B\x7bm(x)\x7breturn -x.y*(1.5);\x7d\x7d" 0).statements =
        Stmt.bareList (Program.ofSource
          "class A < B \x7b\n m(x) \x7b return -x.y\n * (1.50); \x7d // m\n\x7d" 5).statements :=
  ⟨by decide +kernel, rendering_faithful _ _ _ _ (by decide +kernel) (by decide +kernel)
    (by decide +kernel)⟩

end Lox

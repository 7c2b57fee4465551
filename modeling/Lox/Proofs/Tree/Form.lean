import Mathlib.Data.List.Basic
import Lox.Proofs.Tree

/-!
# Nested words

The texts of trees are words in parentheses, nested. Here they come about in two steps:
a tree is turned into a form, which has the words and the nesting, and a form is written
out. The first step forgets nothing but identities and lines, because a node starts with
its operator or keyword and the number of its parts tells apart what this leaves open.
-/

namespace Lox

/-- A word that is part of a form. -/
inductive Word where
  /-- A value written down. -/
  | literal (value : Literal)
  /-- A name that a program chose. -/
  | name (text : String)
  /-- The keyword that stands for an object. -/
  | this
  /-- The sign between a class and its superclass. -/
  | below

/-- The word that a node starts with. -/
inductive Head where
  /-- An operator or keyword of the language. -/
  | symbol (symbol : Symbol)
  /-- Parentheses in the source. -/
  | group
  /-- A call. -/
  | call
  /-- Statements in braces. -/
  | block

/-- Words in parentheses, nested. -/
inductive Form where
  /-- A word. -/
  | word (word : Word)
  /-- The name of a function and its parameters. -/
  | signature (name : String) (params : List String)
  /-- A word and what follows it, in parentheses. -/
  | node (head : Head) (parts : List Form)

/-! ### Writing forms -/

/-- A word as text. -/
def Word.text : Word → List Char
  | .literal value => value.render.toList
  | .name text => text.toList
  | .this => "this".toList
  | .below => "<".toList

/-- The first word of a node as text. -/
def Head.text : Head → List Char
  | .symbol s => s.spelling.toList
  | .group => "group".toList
  | .call => "call".toList
  | .block => "block".toList

/-- Names with blanks between them. -/
def namesText : List String → List Char
  | [] => []
  | name :: rest => name.toList ++ rest.flatMap fun other => ' ' :: other.toList

mutual

/-- A form as text. -/
def Form.text : Form → List Char
  | .word w => w.text
  | .signature name params => name.toList ++ '(' :: (namesText params ++ [')'])
  | .node head parts => '(' :: (head.text ++ (Form.textList parts ++ [')']))

/-- Forms as text, with a blank before each. -/
def Form.textList : List Form → List Char
  | [] => []
  | form :: rest => ' ' :: (form.text ++ Form.textList rest)

end

/-! ### Trees as forms -/

mutual

/-- An expression as a form. -/
def Expr.form : Expr → Form
  | .literal value => .word (.literal value)
  | .group inner => .node .group [inner.form]
  | .unary op _ operand => .node (.symbol op.symbol) [operand.form]
  | .binary op _ left right => .node (.symbol op.symbol) [left.form, right.form]
  | .logical op _ left right => .node (.symbol op.symbol) [left.form, right.form]
  | .var ref => .word (.name ref.name.text)
  | .assign ref value => .node (.symbol .equal) [.word (.name ref.name.text), value.form]
  | .call callee arguments _ => .node .call (callee.form :: Expr.formList arguments)
  | .get object name => .node (.symbol .dot) [object.form, .word (.name name.text)]
  | .set object name value =>
    .node (.symbol .equal)
      [.node (.symbol .dot) [object.form, .word (.name name.text)], value.form]
  | .this _ _ => .word .this
  | .super _ _ method => .node (.symbol .superWord) [.word (.name method.text)]

/-- Expressions as forms. -/
def Expr.formList : List Expr → List Form
  | [] => []
  | e :: rest => e.form :: Expr.formList rest

end

/-- The forms of an expression that may be missing. -/
def formOption (e : Option Expr) : List Form := (e.map Expr.form).toList

/-- The forms that name a superclass. -/
def formParent : Option Ref → List Form
  | none => []
  | some ref => [.word .below, .word (.name ref.name.text)]

mutual

/-- A statement as a form. -/
def Stmt.form : Stmt → Form
  | .expression e => .node (.symbol .semicolon) [e.form]
  | .print e => .node (.symbol .printWord) [e.form]
  | .varDecl name initializer =>
    .node (.symbol .varWord) (.word (.name name.text) :: formOption initializer)
  | .block body => .node .block (Stmt.formList body)
  | .branch condition yes none => .node (.symbol .ifWord) [condition.form, yes.form]
  | .branch condition yes (some no) =>
    .node (.symbol .ifWord) [condition.form, yes.form, no.form]
  | .loop condition body => .node (.symbol .whileWord) [condition.form, body.form]
  | .funDecl function => FunDecl.form function
  | .result _ value => .node (.symbol .returnWord) (formOption value)
  | .classDecl name superclass methods =>
    .node (.symbol .classWord)
      (.word (.name name.text) :: (formParent superclass ++ FunDecl.formList methods))

/-- Statements as forms. -/
def Stmt.formList : List Stmt → List Form
  | [] => []
  | s :: rest => s.form :: Stmt.formList rest

/-- A function as a form. -/
def FunDecl.form : FunDecl → Form
  | ⟨name, params, body⟩ =>
    .node (.symbol .funWord)
      (.signature name.text (params.map (·.text)) :: Stmt.formList body)

/-- Functions as forms. -/
def FunDecl.formList : List FunDecl → List Form
  | [] => []
  | f :: rest => FunDecl.form f :: FunDecl.formList rest

end

/-! ### Texts of trees are texts of their forms -/

/-- Names are joined by blanks. -/
theorem toList_intercalate_blank (words : List String) :
    (String.intercalate " " words).toList = namesText words := by
  induction words with
  | nil => rfl
  | cons word rest ih =>
    cases rest with
    | nil => simp [String.intercalate_singleton, namesText]
    | cons next rest =>
      rw [String.intercalate_cons_cons, String.toList_append, String.toList_append, ih]
      simp [namesText]

/-- The text of parts is that of each one behind a blank. -/
theorem Form.textList_eq (parts : List Form) :
    Form.textList parts = parts.flatMap fun part => ' ' :: part.text := by
  induction parts with
  | nil => rfl
  | cons part rest ih => rw [Form.textList, ih, List.flatMap_cons, List.cons_append]

/-- Words in parentheses are a node, if the words are its first word and its parts. -/
theorem toList_parenthesize {first : String} {words : List String} {head : Head}
    {parts : List Form} (hhead : first.toList = head.text)
    (hwords : words.map String.toList = parts.map Form.text) :
    (parenthesize (first :: words)).toList = (Form.node head parts).text := by
  have hflat : words.flatMap (fun word => ' ' :: word.toList) = Form.textList parts := by
    rw [Form.textList_eq, ← List.flatMap_map String.toList, hwords, List.flatMap_map]
  rw [parenthesize, String.toList_append, String.toList_append, toList_intercalate_blank, namesText,
    hflat, hhead]
  simp [Form.text]

mutual

/-- The text of an expression is that of its form. -/
theorem Expr.toList_render : ∀ e : Expr, e.render.toList = e.form.text
  | .literal _ => rfl
  | .group inner => toList_parenthesize rfl (by simp [inner.toList_render])
  | .unary _ _ operand => toList_parenthesize rfl (by simp [operand.toList_render])
  | .binary _ _ left right =>
    toList_parenthesize rfl (by simp [left.toList_render, right.toList_render])
  | .logical _ _ left right =>
    toList_parenthesize rfl (by simp [left.toList_render, right.toList_render])
  | .var _ => rfl
  | .assign _ value =>
    toList_parenthesize rfl (by simp [value.toList_render, Form.text, Word.text])
  | .call callee arguments _ =>
    toList_parenthesize rfl (by simp [callee.toList_render, Expr.map_renderList arguments])
  | .get object _ =>
    toList_parenthesize rfl (by simp [object.toList_render, Form.text, Word.text])
  | .set object name value => by
    have hget : (parenthesize [".", object.render, name.text]).toList =
        (Form.node (.symbol .dot) [object.form, .word (.name name.text)]).text :=
      toList_parenthesize rfl (by simp [object.toList_render, Form.text, Word.text])
    exact toList_parenthesize rfl (by simp [hget, value.toList_render])
  | .this _ _ => rfl
  | .super _ _ _ => toList_parenthesize rfl (by simp [Form.text, Word.text])

/-- The texts of expressions are those of their forms. -/
theorem Expr.map_renderList : ∀ es : List Expr,
    (Expr.renderList es).map String.toList = (Expr.formList es).map Form.text
  | [] => rfl
  | e :: rest => by
    simp [Expr.renderList, Expr.formList, e.toList_render, Expr.map_renderList rest]

end

/-- The text of an expression that may be missing is that of its form, where there is one. -/
theorem map_renderOption (e : Option Expr) :
    (renderOption e).map String.toList = (formOption e).map Form.text := by
  cases e with
  | none => rfl
  | some e => simp [renderOption, formOption, e.toList_render]

/-- The text of a superclass is that of its forms. -/
theorem map_renderSuperclass (superclass : Option Ref) :
    (renderSuperclass superclass).map String.toList = (formParent superclass).map Form.text := by
  cases superclass with
  | none => rfl
  | some ref => rfl

mutual

/-- The text of a statement is that of its form. -/
theorem Stmt.toList_render : ∀ s : Stmt, s.render.toList = s.form.text
  | .expression e => toList_parenthesize rfl (by simp [e.toList_render])
  | .print e => toList_parenthesize rfl (by simp [e.toList_render])
  | .varDecl _ initializer =>
    toList_parenthesize rfl (by simp [map_renderOption initializer, Form.text, Word.text])
  | .block body => toList_parenthesize rfl (Stmt.map_renderList body)
  | .branch condition yes none =>
    toList_parenthesize rfl (by simp [condition.toList_render, yes.toList_render])
  | .branch condition yes (some no) =>
    toList_parenthesize rfl (by simp [condition.toList_render, yes.toList_render, no.toList_render])
  | .loop condition body =>
    toList_parenthesize rfl (by simp [condition.toList_render, body.toList_render])
  | .funDecl function => FunDecl.toList_render function
  | .result _ value => toList_parenthesize rfl (map_renderOption value)
  | .classDecl _ superclass methods =>
    toList_parenthesize rfl (by
      simp [map_renderSuperclass superclass, FunDecl.map_renderList methods, Form.text, Word.text])

/-- The texts of statements are those of their forms. -/
theorem Stmt.map_renderList : ∀ ss : List Stmt,
    (Stmt.renderList ss).map String.toList = (Stmt.formList ss).map Form.text
  | [] => rfl
  | s :: rest => by
    simp [Stmt.renderList, Stmt.formList, s.toList_render, Stmt.map_renderList rest]

/-- The text of a function is that of its form. -/
theorem FunDecl.toList_render : ∀ f : FunDecl, (FunDecl.render f).toList = (FunDecl.form f).text
  | ⟨name, params, body⟩ => by
    have hsignature : (name.text ++ "(" ++ String.intercalate " " (params.map (·.text)) ++
        ")").toList = (Form.signature name.text (params.map (·.text))).text := by
      rw [String.toList_append, String.toList_append, String.toList_append,
        toList_intercalate_blank, Form.text, List.append_assoc, List.append_assoc]
      rfl
    refine toList_parenthesize rfl ?_
    rw [List.map_cons, List.map_cons, hsignature, Stmt.map_renderList body]

/-- The texts of methods are those of their forms. -/
theorem FunDecl.map_renderList : ∀ fs : List FunDecl,
    (FunDecl.renderList fs).map String.toList = (FunDecl.formList fs).map Form.text
  | [] => rfl
  | f :: rest => by
    simp [FunDecl.renderList, FunDecl.formList, FunDecl.toList_render f,
      FunDecl.map_renderList rest]

end

/-! ### Forms tell trees apart -/

section Operators

/-- An operator before one operand is known by its symbol. -/
@[grind =] theorem UnaryOp.symbol_inj {op op' : UnaryOp} : op.symbol = op'.symbol ↔ op = op' := by
  cases op <;> cases op' <;> decide

/-- An operator between two operands is known by its symbol. -/
@[grind =] theorem BinaryOp.symbol_inj {op op' : BinaryOp} :
    op.symbol = op'.symbol ↔ op = op' := by
  cases op <;> cases op' <;> decide

/-- A logical operator is known by its symbol. -/
@[grind =] theorem LogicalOp.symbol_inj {op op' : LogicalOp} :
    op.symbol = op'.symbol ↔ op = op' := by
  cases op <;> cases op' <;> decide

/-- No other node with one part starts like an operator before one operand. -/
@[grind .] theorem UnaryOp.symbol_ne (op : UnaryOp) : op.symbol ≠ .superWord := by
  cases op <;> decide

/-- No other node with two parts starts like an operator between two operands. -/
@[grind .] theorem BinaryOp.symbol_ne (op : BinaryOp) :
    op.symbol ≠ .equal ∧ op.symbol ≠ .dot ∧ op.symbol ≠ .andWord ∧ op.symbol ≠ .orWord := by
  cases op <;> decide

/-- A logical operator is written `and` or `or`. -/
@[grind .] theorem LogicalOp.symbol_eq (op : LogicalOp) :
    op.symbol = .andWord ∨ op.symbol = .orWord := by
  cases op <;> decide

end Operators

mutual

/-- Expressions of one form are the same but for identities and lines. -/
theorem Expr.bare_eq : ∀ e e' : Expr, e.form = e'.form → e.bare = e'.bare
  | .literal _, e', h => by cases e' <;> grind [Expr.form, Expr.bare]
  | .group inner, e', h => by
    cases e' with
    | group other => grind [Expr.form, Expr.bare, Expr.bare_eq inner other]
    | _ => grind [Expr.form]
  | .unary _ _ operand, e', h => by
    cases e' with
    | unary _ _ other => grind [Expr.form, Expr.bare, Expr.bare_eq operand other]
    | _ => grind [Expr.form]
  | .binary _ _ left right, e', h => by
    cases e' with
    | binary _ _ left' right' =>
      grind [Expr.form, Expr.bare, Expr.bare_eq left left', Expr.bare_eq right right']
    | _ => grind [Expr.form]
  | .logical _ _ left right, e', h => by
    cases e' with
    | logical _ _ left' right' =>
      grind [Expr.form, Expr.bare, Expr.bare_eq left left', Expr.bare_eq right right']
    | _ => grind [Expr.form]
  | .var _, e', h => by cases e' <;> grind [Expr.form, Expr.bare, Ref.bare, Name.bare]
  | .assign _ value, e', h => by
    cases e' with
    | assign _ other =>
      grind [Expr.form, Expr.bare, Ref.bare, Name.bare, Expr.bare_eq value other]
    | _ => grind [Expr.form]
  | .call callee arguments _, e', h => by
    cases e' with
    | call callee' arguments' _ =>
      grind [Expr.form, Expr.bare, Expr.bare_eq callee callee',
        Expr.bareList_eq arguments arguments']
    | _ => grind [Expr.form]
  | .get object _, e', h => by
    cases e' with
    | get object' _ => grind [Expr.form, Expr.bare, Name.bare, Expr.bare_eq object object']
    | _ => grind [Expr.form]
  | .set object _ value, e', h => by
    cases e' with
    | set object' _ other =>
      grind [Expr.form, Expr.bare, Name.bare, Expr.bare_eq object object',
        Expr.bare_eq value other]
    | _ => grind [Expr.form]
  | .this _ _, e', h => by cases e' <;> grind [Expr.form, Expr.bare]
  | .super _ _ _, e', h => by cases e' <;> grind [Expr.form, Expr.bare, Name.bare]

/-- Expressions with the same forms are the same but for identities and lines. -/
theorem Expr.bareList_eq : ∀ es es' : List Expr, Expr.formList es = Expr.formList es' →
    Expr.bareList es = Expr.bareList es'
  | [], es', h => by cases es' <;> grind [Expr.formList]
  | e :: rest, es', h => by
    cases es' with
    | nil => grind [Expr.formList]
    | cons e' rest' =>
      grind [Expr.formList, Expr.bareList, Expr.bare_eq e e', Expr.bareList_eq rest rest']

end

/-- Expressions that may be missing, with the same forms, are both there or both missing,
and the same but for identities and lines. -/
theorem bareOption_eq {e e' : Option Expr} (h : formOption e = formOption e') :
    e.map Expr.bare = e'.map Expr.bare := by
  cases e with
  | none => cases e' <;> grind [formOption]
  | some e =>
    cases e' with
    | none => grind [formOption]
    | some e' => grind [formOption, Expr.bare_eq e e']

/-- A method is a node and not the sign before a superclass. -/
theorem bareParent_eq {parent parent' : Option Ref} {methods methods' : List FunDecl}
    (h : formParent parent ++ FunDecl.formList methods =
      formParent parent' ++ FunDecl.formList methods') :
    parent.map Ref.bare = parent'.map Ref.bare ∧
      FunDecl.formList methods = FunDecl.formList methods' := by
  have hsign (fs : List FunDecl) (rest : List Form) :
      FunDecl.formList fs ≠ .word .below :: rest := by
    cases fs with
    | nil => nofun
    | cons f fs => cases f; nofun
  cases parent <;> cases parent' <;> grind [formParent, Ref.bare, Name.bare]

/-- The word that the form of a statement starts with. -/
def Stmt.head : Stmt → Head
  | .expression _ => .symbol .semicolon
  | .print _ => .symbol .printWord
  | .varDecl _ _ => .symbol .varWord
  | .block _ => .block
  | .branch _ _ _ => .symbol .ifWord
  | .loop _ _ => .symbol .whileWord
  | .funDecl _ => .symbol .funWord
  | .result _ _ => .symbol .returnWord
  | .classDecl _ _ _ => .symbol .classWord

/-- A statement is a node: its text is in parentheses. -/
theorem Stmt.form_eq_node (s : Stmt) : ∃ parts, s.form = .node s.head parts := by
  cases s with
  | branch condition yes no => cases no <;> exact ⟨_, rfl⟩
  | funDecl function =>
    cases function
    exact ⟨_, rfl⟩
  | _ => exact ⟨_, rfl⟩

/-- Statements with the same form are of the same kind. -/
theorem Stmt.head_eq {s s' : Stmt} (h : s.form = s'.form) : s.head = s'.head := by
  obtain ⟨parts, hparts⟩ := s.form_eq_node
  obtain ⟨parts', hparts'⟩ := s'.form_eq_node
  rw [hparts, hparts'] at h
  exact (Form.node.inj h).1

mutual

/-- Statements of one form are the same but for identities and lines. Those of different
kinds start with different words, so one case is left of each kind. -/
theorem Stmt.bare_eq : ∀ s s' : Stmt, s.form = s'.form → s.bare = s'.bare
  | .expression e, s', h => by
    cases s' with
    | expression e' => grind [Stmt.form, Stmt.bare, Expr.bare_eq e e']
    | _ => cases Stmt.head_eq h
  | .print e, s', h => by
    cases s' with
    | print e' => grind [Stmt.form, Stmt.bare, Expr.bare_eq e e']
    | _ => cases Stmt.head_eq h
  | .varDecl name initializer, s', h => by
    cases s' with
    | varDecl name' initializer' =>
      grind [Stmt.form, Stmt.bare, Name.bare, bareOption_eq]
    | _ => cases Stmt.head_eq h
  | .block body, s', h => by
    cases s' with
    | block body' => grind [Stmt.form, Stmt.bare, Stmt.bareList_eq body body']
    | _ => cases Stmt.head_eq h
  | .branch condition yes none, s', h => by
    cases s' with
    | branch condition' yes' no' =>
      cases no' <;>
        grind [Stmt.form, Stmt.bare, Expr.bare_eq condition condition', Stmt.bare_eq yes yes']
    | _ => cases Stmt.head_eq h
  | .branch condition yes (some no), s', h => by
    cases s' with
    | branch condition' yes' no' =>
      cases no' with
      | none => grind [Stmt.form]
      | some no' =>
        grind [Stmt.form, Stmt.bare, Expr.bare_eq condition condition', Stmt.bare_eq yes yes',
          Stmt.bare_eq no no']
    | _ => cases Stmt.head_eq h
  | .loop condition body, s', h => by
    cases s' with
    | loop condition' body' =>
      grind [Stmt.form, Stmt.bare, Expr.bare_eq condition condition', Stmt.bare_eq body body']
    | _ => cases Stmt.head_eq h
  | .funDecl function, s', h => by
    cases s' with
    | funDecl function' => grind [Stmt.form, Stmt.bare, FunDecl.bare_eq function function']
    | _ => cases Stmt.head_eq h
  | .result _ value, s', h => by
    cases s' with
    | result _ value' => grind [Stmt.form, Stmt.bare, bareOption_eq]
    | _ => cases Stmt.head_eq h
  | .classDecl name parent methods, s', h => by
    cases s' with
    | classDecl name' parent' methods' =>
      simp only [Stmt.form, Form.node.injEq, List.cons.injEq, Form.word.injEq,
        Word.name.injEq, true_and] at h
      obtain ⟨hparent, hmethods⟩ := bareParent_eq h.2
      rw [Stmt.bare, Stmt.bare, hparent, FunDecl.bareList_eq methods methods' hmethods,
        Name.bare, Name.bare, h.1]
    | _ => cases Stmt.head_eq h

/-- Statements with the same forms are the same but for identities and lines. -/
theorem Stmt.bareList_eq : ∀ ss ss' : List Stmt, Stmt.formList ss = Stmt.formList ss' →
    Stmt.bareList ss = Stmt.bareList ss'
  | [], ss', h => by cases ss' <;> grind [Stmt.formList]
  | s :: rest, ss', h => by
    cases ss' with
    | nil => grind [Stmt.formList]
    | cons s' rest' =>
      grind [Stmt.formList, Stmt.bareList, Stmt.bare_eq s s', Stmt.bareList_eq rest rest']

/-- Functions with the same form are the same but for identities and lines. -/
theorem FunDecl.bare_eq : ∀ f f' : FunDecl, FunDecl.form f = FunDecl.form f' →
    FunDecl.bare f = FunDecl.bare f'
  | ⟨name, params, body⟩, ⟨name', params', body'⟩, h => by
    simp only [FunDecl.form, Form.node.injEq, List.cons.injEq, Form.signature.injEq,
      true_and] at h
    have hbare (names : List Name) :
        names.map Name.bare = (names.map (·.text)).map fun text => ⟨text, 0⟩ := by
      rw [List.map_map]
      rfl
    have hparams : params.map Name.bare = params'.map Name.bare := by
      rw [hbare, hbare, h.1.2]
    rw [FunDecl.bare, FunDecl.bare, hparams, Stmt.bareList_eq body body' h.2, Name.bare,
      Name.bare, h.1.1]

/-- Methods with the same forms are the same but for identities and lines. -/
theorem FunDecl.bareList_eq : ∀ fs fs' : List FunDecl,
    FunDecl.formList fs = FunDecl.formList fs' → FunDecl.bareList fs = FunDecl.bareList fs'
  | [], fs', h => by cases fs' <;> grind [FunDecl.formList]
  | f :: rest, fs', h => by
    cases fs' with
    | nil => grind [FunDecl.formList]
    | cons f' rest' =>
      grind [FunDecl.formList, FunDecl.bareList, FunDecl.bare_eq f f',
        FunDecl.bareList_eq rest rest']

end

end Lox

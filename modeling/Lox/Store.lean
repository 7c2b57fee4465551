import Lox.Value

/-!
# The store

The changeable part of a running program: the bindings of every frame and the
fields of every object. Frames and objects are numbered in the order of their
creation and are never removed. An environment is a list of frame numbers, so
which frame encloses which never changes, and two environments that share a
frame see each other's assignments to it.

A name is found in two ways: by searching the frames from the inside out, or
in the one frame a given number of steps out. The second fails only when the
number does not fit the frames, which is a fault and not an error of the
program.
-/

namespace Lox

/-- Names with their values; a name occurs once. -/
abbrev Bindings (ε : Type := Env) := List (String × Value ε)

namespace Bindings

/-- The value of a name. -/
def get? {ε : Type} (bindings : Bindings ε) (text : String) : Option (Value ε) :=
  match bindings with
  | [] => none
  | (other, value) :: rest => if other == text then some value else get? rest text

/-- Binds a name, replacing the value it has. -/
def insert {ε : Type} (bindings : Bindings ε) (text : String) (value : Value ε) : Bindings ε :=
  match bindings with
  | [] => [(text, value)]
  | (other, old) :: rest =>
    if other == text then (text, value) :: rest else (other, old) :: insert rest text value

/-- Binding a name gives it the value and leaves all other names alone. -/
theorem get?_insert {ε : Type} (bindings : Bindings ε) (text other : String)
    (value : Value ε) :
    (bindings.insert text value).get? other =
      if other = text then some value else bindings.get? other := by
  induction bindings with
  | nil => grind [insert, get?]
  | cons head rest ih =>
    obtain ⟨name, old⟩ := head
    by_cases h : name = text <;> grind [insert, get?]

/-- Binds several names one after the other. -/
def insertAll {ε : Type} (bindings : Bindings ε) (added : List (String × Value ε)) :
    Bindings ε :=
  added.foldl (fun all (text, value) => insert all text value) bindings

end Bindings

/-- A disagreement between a program and the distances found for it. -/
inductive Fault where
  /-- The frame at the distance of a name does not have the name. -/
  | missingBinding (text : String)
  /-- There are too few frames for the distance of a name. -/
  | missingFrame (steps : Nat) (text : String)
  /-- A `super` without a distance, at a method name on the given line. -/
  | unresolvedSuper (line : Nat)
  /-- A `super` with no frame inside the one that binds it. -/
  | superInnermost
  /-- A `super` whose binding is no class. -/
  | superNotClass
  deriving DecidableEq, Repr

/-- The wording of a fault. -/
def Fault.message : Fault → String
  | .missingBinding text => "resolved binding '" ++ text ++ "' missing from its scope"
  | .missingFrame steps text =>
    "no enclosing scope " ++ toString steps ++ " hops out for '" ++ text ++ "'"
  | .unresolvedSuper line => "'super' at line " ++ toString line ++ " was never resolved"
  | .superInnermost => "attempt to subtract with overflow"
  | .superNotClass => "'super' bound to a non-class value"

/-- Frames, fields and identities. -/
structure Store where
  /-- The bindings of every frame. -/
  frames : Array Bindings
  /-- The fields of every object. -/
  fields : Array Bindings
  /-- The next identity of a function or class. -/
  nextId : Nat

namespace Store

/-- A store with nothing in it. -/
def empty : Store := ⟨#[], #[], 0⟩

/-- The bindings of a frame. -/
def frame (store : Store) (i : Nat) : Bindings := store.frames.getD i []

/-- Binds a name in a frame, replacing the value it has there. -/
def bindIn (store : Store) (i : Nat) (text : String) (value : Value) : Store :=
  { store with frames := store.frames.modify i (Bindings.insert · text value) }

/-- A new frame inside an environment. -/
def newFrame (store : Store) (enclosing : Env) (bindings : Bindings) : Env × Store :=
  (store.frames.size :: enclosing, { store with frames := store.frames.push bindings })

/-- A new object without fields, by its number. -/
def newObject (store : Store) : Nat × Store :=
  (store.fields.size, { store with fields := store.fields.push [] })

/-- A new identity. -/
def freshId (store : Store) : Nat × Store :=
  (store.nextId, { store with nextId := store.nextId + 1 })

/-- The field of an object. -/
def field? (store : Store) (object : Nat) (text : String) : Option Value :=
  Bindings.get? (store.fields.getD object []) text

/-- Sets a field of an object. -/
def setField (store : Store) (object : Nat) (text : String) (value : Value) : Store :=
  { store with fields := store.fields.modify object (Bindings.insert · text value) }

/-- Binds a name in the innermost frame. -/
def define (store : Store) (env : Env) (text : String) (value : Value) : Store :=
  match env with
  | [] => store
  | i :: _ => store.bindIn i text value

/-- The value of a name in the nearest frame that has it. -/
def get? (store : Store) (env : Env) (text : String) : Option Value :=
  match env with
  | [] => none
  | i :: rest => (Bindings.get? (store.frame i) text).or (store.get? rest text)

/-- The nearest frame that has a name. -/
def holder? (store : Store) (env : Env) (text : String) : Option Nat :=
  env.find? fun i => (Bindings.get? (store.frame i) text).isSome

/-- Changes the value of a name in the nearest frame that has it; a name that
no frame has is not bound. -/
def assign? (store : Store) (env : Env) (text : String) (value : Value) : Option Store :=
  (store.holder? env text).map fun i => store.bindIn i text value

/-- The frame a number of steps out, provided that it has a name. -/
def frameAt (store : Store) (env : Env) (distance : Nat) (text : String) :
    Except Fault (Nat × Value) :=
  match env.drop distance with
  | [] => .error (.missingFrame (distance + 1 - env.length) text)
  | i :: _ =>
    match Bindings.get? (store.frame i) text with
    | some value => .ok (i, value)
    | none => .error (.missingBinding text)

/-- The value of a name in the frame a number of steps out. -/
def getAt (store : Store) (env : Env) (distance : Nat) (text : String) : Except Fault Value :=
  (·.2) <$> store.frameAt env distance text

/-- Changes the value of a name in the frame a number of steps out. -/
def assignAt (store : Store) (env : Env) (distance : Nat) (text : String) (value : Value) :
    Except Fault Store :=
  (fun found => store.bindIn found.1 text value) <$>
    store.frameAt env distance text

end Store

end Lox

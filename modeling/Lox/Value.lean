import Lox.Tree

/-!
# Values

The values that a running program computes with. Functions, classes and
objects are compared by identity, so each carries a number that no other of
its kind has. A function remembers the environment that was in effect where it
was declared; an object's fields are kept in the store and not in the value.

What an environment is does not matter to values, so their types take it as a
parameter. Where none is given, an environment is a list of frames.
-/

namespace Lox

/-- The frames in effect at a place of a running program, innermost first. -/
abbrev Env := List Nat

/-- A declared function together with the environment it closes over. -/
structure Closure (ε : Type := Env) where
  /-- The function as declared. -/
  decl : FunDecl
  /-- The environment in effect where it was declared. -/
  env : ε
  /-- Whether it is the method that sets up a new object. -/
  isInitializer : Bool

namespace Closure

/-- The name a function was declared with. -/
def name {ε : Type} (closure : Closure ε) : String := closure.decl.name.text

/-- How many arguments a function takes. -/
def arity {ε : Type} (closure : Closure ε) : Nat := closure.decl.params.length

end Closure

/-- A class with the methods it declares itself; where two have one name, the
later is the one that counts. -/
structure Class (ε : Type := Env) where
  /-- The identity of the class. -/
  id : Nat
  /-- The name it was declared with. -/
  name : String
  /-- The class it inherits from. -/
  superclass : Option (Class ε)
  /-- Its own methods, latest first. -/
  methods : List (Closure ε)

namespace Class

/-- The method of the given name that a class declares itself. -/
def ownMethod? {ε : Type} (methods : List (Closure ε)) (text : String) : Option (Closure ε) :=
  methods.find? (·.name == text)

/-- The method of the given name: the class's own, or else the nearest one up
the chain of superclasses. -/
def findMethod? {ε : Type} (text : String) : Class ε → Option (Closure ε)
  | ⟨_, _, none, methods⟩ => ownMethod? methods text
  | ⟨_, _, some superclass, methods⟩ => (ownMethod? methods text).or (findMethod? text superclass)

/-- The method that sets up a new object of the class. -/
def initializer? {ε : Type} (cls : Class ε) : Option (Closure ε) := cls.findMethod? initializerName

/-- How many arguments creating an object of the class takes. -/
def arity {ε : Type} (cls : Class ε) : Nat :=
  match cls.initializer? with
  | some method => method.arity
  | none => 0

end Class

/-- Functions that every program finds in its globals. -/
inductive Native where
  /-- The seconds since some fixed point in time. -/
  | clock
  deriving DecidableEq, Repr

namespace Native

/-- The global name of a native function. -/
def name : Native → String
  | .clock => "clock"

/-- How many arguments a native function takes. -/
def arity : Native → Nat
  | .clock => 0

end Native

/-- The values of the language. -/
inductive Value (ε : Type := Env) where
  | nil
  | bool (value : Bool)
  | number (value : Float)
  | string (value : String)
  | native (id : Nat) (function : Native)
  | function (id : Nat) (closure : Closure ε)
  | cls (cls : Class ε)
  | object (id : Nat) (cls : Class ε)

/-- The value that a literal denotes. -/
def Literal.value {ε : Type} : Literal → Value ε
  | .nil => .nil
  | .bool value => .bool value
  | .number value => .number value
  | .string value => .string value

namespace Value

/-- Everything but `nil` and `false` counts as true. -/
def isTruthy {ε : Type} : Value ε → Bool
  | .nil => false
  | .bool value => value
  | _ => true

/-- Equality of values: plain values by what they are, all others by identity.
Values of different kinds are never equal, and neither is not-a-number to
itself. -/
def equals {ε : Type} : Value ε → Value ε → Bool
  | .nil, .nil => true
  | .bool a, .bool b => a == b
  | .number a, .number b => a == b
  | .string a, .string b => a == b
  | .native a _, .native b _ => a == b
  | .function a _, .function b _ => a == b
  | .cls a, .cls b => a.id == b.id
  | .object a _, .object b _ => a == b
  | _, _ => false

/-- Printed numbers: a leading exponent from -4 to 15 is written positionally,
any other with a point and at least two digits of exponent. -/
def numberFormat : NumberFormat where
  tie := .up
  positional := some (-4, 15)
  wholePoint := false
  mantissaPoint := true
  exponentWidth := 2
  nan := "NaN"
  infinity := "Infinity"

/-- The text that printing a value writes. -/
def display {ε : Type} : Value ε → String
  | .nil => "nil"
  | .bool value => if value then "true" else "false"
  | .number value => numberFormat.text value
  | .string value => value
  | .native _ _ => "<native fn>"
  | .function _ closure => "<fn " ++ closure.name ++ ">"
  | .cls c => c.name
  | .object _ c => c.name ++ " instance"

/-- The name that a function or class was declared with. -/
def declaredName? {ε : Type} : Value ε → Option String
  | .function _ closure => some closure.name
  | .cls c => some c.name
  | _ => none

end Value

/-- Values that can be called. -/
inductive Callable (ε : Type := Env) where
  | native (function : Native)
  | function (closure : Closure ε)
  | cls (cls : Class ε)

/-- How many arguments a call takes. -/
def Callable.arity {ε : Type} : Callable ε → Nat
  | .native f => f.arity
  | .function closure => closure.arity
  | .cls c => c.arity

/-- A value as something to call, if it can be called. -/
def Value.callable? {ε : Type} : Value ε → Option (Callable ε)
  | .native _ f => some (.native f)
  | .function _ closure => some (.function closure)
  | .cls c => some (.cls c)
  | _ => none

end Lox

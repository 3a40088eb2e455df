/-!
# Symbols

What a method body talks about: variables, nested functions, methods and fields. A symbol carries an
identity of its own, so two symbols may share a name, a type and all their flags and still be two.

Symbols that come with a body are `given`. The others are made by the conversion, and their identity
says what they are for: the copy of a variable, the holder of an environment, the field for a
hoisted variable.
-/

namespace Unnest

/-- Scopes, closures and environments of one graph are numbered in order of creation. -/
abbrev ScopeId := Nat

@[inherit_doc ScopeId]
abbrev ClosureId := Nat

@[inherit_doc ScopeId]
abbrev EnvId := Nat

/-! ## Variables -/

inductive VariableRole where
  /-- Declared by a statement. -/
  | declared
  /-- Formal parameter of the method or of a nested function. -/
  | parameter
  /-- The receiver of the enclosing method. -/
  | receiver
  deriving DecidableEq, Repr, Inhabited

/-- What tells one variable from another. The serial numbers of made variables are never reused. -/
inductive VariableId where
  /-- Comes with the body. -/
  | given (n : Nat)
  /-- Stands for another variable inside a lowered method. -/
  | copy (serial : Nat) (of : VariableId)
  /-- Holds an environment: a local where it is created, a parameter where it is passed. -/
  | holder (serial : Nat) (env : EnvId)
  deriving DecidableEq, Repr, Inhabited

structure Variable where
  id : VariableId
  role : VariableRole
  name : String
  type : String
  /-- Passed by reference. -/
  byRef : Bool := false
  deriving DecidableEq, Repr, Inhabited

def Variable.isReceiver (v : Variable) : Bool := v.role = .receiver

/-- Made by the conversion. -/
def Variable.isMade (v : Variable) : Bool :=
  match v.id with
  | .given _ => false
  | _ => true

/-! ## Nested functions -/

inductive FunctionForm where
  | lambda
  | localFunction
  deriving DecidableEq, Repr, Inhabited

/-- A lambda or a local function. A parameter may be missing; such a function is malformed. -/
structure NestedFunction where
  id : Nat
  form : FunctionForm
  name : String
  returnType : String
  params : List (Option Variable) := []
  /-- Known from the start to be used as a value. -/
  isDelegate : Bool := false
  isAsync : Bool := false
  isIterator : Bool := false
  deriving DecidableEq, Repr, Inhabited

def NestedFunction.isLambda (f : NestedFunction) : Bool := f.form = .lambda

/-! ## Methods -/

inductive MethodId where
  | given (n : Nat)
  /-- The method a nested function becomes. -/
  | lowered (closure : ClosureId)
  deriving DecidableEq, Repr, Inhabited

/-- A method of some type: the one being converted, one it calls, or one made for a nested
function. -/
structure Method where
  id : MethodId
  name : String
  /-- The type the method belongs to. -/
  owner : String
  isStatic : Bool := false
  typeParams : List String := []
  params : List (Option Variable) := []
  returnType : String
  deriving DecidableEq, Repr, Inhabited

def Method.fullName (m : Method) : String := m.owner ++ "." ++ m.name

/-! ## Fields -/

inductive FieldId where
  | given (n : Nat)
  /-- The place of a variable in an environment. -/
  | hoisted (env : EnvId) (of : VariableId)
  /-- The link from an environment to the one around it, or to the enclosing receiver. -/
  | parent (env : EnvId)
  deriving DecidableEq, Repr, Inhabited

structure Field where
  id : FieldId
  name : String
  type : String
  /-- The type the field belongs to. -/
  owner : String
  deriving DecidableEq, Repr, Inhabited

/-! ## Making symbols -/

/-- How many symbols a run has made so far. No step makes a nested function. -/
structure Supply where
  vars : Nat := 0
  functions : Nat := 0
  deriving DecidableEq, Repr, Inhabited

namespace Supply

/-- A new variable; `id` turns the next serial number into its identity. -/
def fresh (s : Supply) (id : Nat → VariableId) (role : VariableRole) (name type : String)
    (byRef : Bool := false) : Variable × Supply :=
  (⟨id s.vars, role, name, type, byRef⟩, { s with vars := s.vars + 1 })

/-- A variable that stands for `v` where types are spelled differently. -/
def copy (s : Supply) (v : Variable) (role : VariableRole) (type : String) : Variable × Supply :=
  s.fresh (.copy · v.id) role v.name type

/-- The local that holds an environment in the frame that creates it. -/
def holder (s : Supply) (env : EnvId) (type : String) : Variable × Supply :=
  s.fresh (.holder · env) .declared ("__env" ++ toString env) type

/-- The parameter through which a lowered method is handed an environment. -/
def holderParam (s : Supply) (env : EnvId) (type : String) : Variable × Supply :=
  s.fresh (.holder · env) .parameter ("__env" ++ toString env) type true

end Supply

end Unnest

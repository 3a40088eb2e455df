import Unnest.Graph.Basic
import Unnest.TypeName

/-!
# Declared types and methods

What the conversion of one method adds to the program: a type for each live environment and a method
for each nested function, in the order of their numbers. The bodies of the methods come last.
-/

namespace Unnest

/-- The type of an environment. -/
structure EnvType where
  name : String
  kind : EnvKind
  env : EnvId
  /-- The renamed type parameters of the enclosing method. -/
  typeParams : List String := []
  /-- The hoisted variables in order, then the parent link. -/
  fields : List Field := []
  link : Option Field := none
  /-- The field of each hoisted variable. The receiver has one only in a value; a heap environment
  reaches it along the parent links. -/
  fieldOf : List (Variable × Option Field) := []
  /-- The methods of the closures hosted here. -/
  methods : List Method := []
  deriving Inhabited

namespace EnvType

def isValue (t : EnvType) : Bool := t.kind = .value

def field? (t : EnvType) (v : Variable) : Option Field := (t.fieldOf.lookup v).join

/-- Puts a variable into a field, or nowhere. -/
def setField (t : EnvType) (v : Variable) (f : Option Field) : EnvType :=
  { t with fieldOf := t.fieldOf.filter (·.1 ≠ v) ++ [(v, f)] }

/-- The type as it is spelled where the given type arguments are in scope. -/
def reference (t : EnvType) (args : List String) : String := TypeName.reference t.name args

end EnvType

/-- The method that a nested function becomes. -/
structure LoweredMethod where
  symbol : Method
  closure : ClosureId
  /-- The environment whose type has the method; otherwise the enclosing type has it. -/
  host : Option EnvId := none
  /-- The parameters of the nested function and those that stand for them, last one first. -/
  copies : List (Variable × Variable) := []
  /-- The environments taken by reference and the parameters that hold them. -/
  envParams : List (EnvId × Variable) := []
  body : Option Block := none
  deriving Inhabited

structure Declarations where
  types : List EnvType := []
  methods : List LoweredMethod := []
  deriving Inhabited

namespace Declarations

def isEmpty (d : Declarations) : Bool := d.types.isEmpty && d.methods.isEmpty

def typeOf? (d : Declarations) (e : EnvId) : Option EnvType := d.types.find? (·.env = e)

def typeName (d : Declarations) (e : EnvId) : String := ((d.typeOf? e).map (·.name)).getD ""

/-- The method of a closure. Methods are declared in the order of the closures. -/
def methodOf? (d : Declarations) (c : ClosureId) : Option LoweredMethod := d.methods[c]?

def modifyType (d : Declarations) (i : Nat) (f : EnvType → EnvType) : Declarations :=
  { d with types := d.types.modify i f }

/-- Adds a method, also to the type of its host. -/
def push (d : Declarations) (m : LoweredMethod) : Declarations :=
  { types := d.types.map fun t =>
      if m.host = some t.env then { t with methods := t.methods ++ [m.symbol] } else t
    methods := d.methods ++ [m] }

end Declarations

end Unnest

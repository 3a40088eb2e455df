/-!
# Type names

Types are known by their spelling only. A method on an environment type cannot see the type
parameters of the method it was cut out of; it sees the environment's own, spelled with a leading
`$`. `TypeName.renameParams` respells a type for that purpose. It works on identifiers, the
longest runs of ASCII letters, digits, `_` and `$`; everything else is copied.
-/

namespace Unnest.TypeName

/-- The characters an identifier is made of. No character outside ASCII is one. -/
def isNameChar (c : Char) : Bool := c.isAlphanum || c == '_' || c == '$'

/-- Respells the identifier `ident` if it is one of the type parameters. -/
def renameIdent (params : List String) (ident : List Char) : List Char :=
  if String.ofList ident ∈ params then '$' :: ident else ident

/-- Respells `cs`, where `ident` is the identifier read so far, last character first. -/
def renameFrom (params : List String) (ident : List Char) : List Char → List Char
  | [] => if ident.isEmpty then [] else renameIdent params ident.reverse
  | c :: cs =>
    if isNameChar c then renameFrom params (c :: ident) cs
    else
      (if ident.isEmpty then [] else renameIdent params ident.reverse) ++
        c :: renameFrom params [] cs

/-- Every identifier of `type` that is a type parameter gets a leading `$`. -/
def renameParams (params : List String) (type : String) : String :=
  String.ofList (renameFrom params [] type.toList)

/-- The renamed spelling of a type parameter. -/
def renamedParam (param : String) : String := "$" ++ param

/-- The type `name` applied to type arguments. -/
def reference (name : String) (args : List String) : String :=
  if args.isEmpty then name else name ++ "<" ++ String.intercalate ", " args ++ ">"

/-- The six blanks of ASCII. -/
def isBlank (c : Char) : Bool :=
  c == ' ' || c == '\t' || c == '\n' || c == '\x0b' || c == '\x0c' || c == '\r'

/-- The name in front of the type arguments, without blanks behind it. -/
def base (type : String) : String :=
  String.ofList ((type.toList.takeWhile (· != '<')).reverse.dropWhile isBlank).reverse

end Unnest.TypeName

import Unnest.Syntax.Basic

/-!
# Failures

Why a conversion stopped. A `Cause` says what was found, `Cause.message` words it and `Cause.kind`
sorts it: the body breaks the rules of its binder, the capture sets did not settle within the
allowed number of visits, or the graph and the declarations do not fit together.
-/

namespace Unnest

inductive CauseKind where
  | malformedInput
  | nonConvergentCaptures
  | invalidGraph
  deriving DecidableEq, Repr, Inhabited

inductive Cause where
  -- Building the graph
  | alreadyBuilt
  | incompleteBody
  | declarationWithoutVariable
  | missingParameter
  | variableDeclaredTwice (variableName : String)
  | functionWithoutSymbol
  | functionDeclaredTwice (functionName : String)
  -- Collecting captures
  | receiverInStaticMethod
  | blockNotInGraph
  | functionNotInGraph
  | unknownFunction (functionName : Option String)
  | referenceWithoutVariable
  | undeclaredVariable (variableName : String)
  | outOfScope (variableName : String)
  | notConverged (visits : Nat)
  -- Laying out environments
  | alreadyAllocated
  | unreachableEnv (functionName : String) (env : EnvId)
  -- Declaring types and methods
  | alreadyDeclared
  | removedHost (functionName : String)
  | cannotTakeReferences (functionName : String)
  | valueEnvInField (type owner fieldName : String)
  -- Checking the declarations
  | undeclaredEnv (env : EnvId)
  | noParentField (type : String)
  | hoistedElsewhere (variableName type : String)
  | typeCountMismatch
  | hoistedTwice (variableName first second : String)
  | methodCountMismatch
  | ineligibleForReferences (method : String)
  | deadHost (method type : String)
  | paramNotByReference (param method : String)
  -- Lowering the trees
  | scopelessBlock
  | untypedEnv (env : EnvId)
  | parentNotCurrent (type : String)
  | valueEnvOutOfReach (env : EnvId)
  | envWithoutHost (env : EnvId)
  | envOffChain (env : EnvId) (host : String)
  | noReceiver
  | receiverNotHeld (type : String)
  | staticReadsReceiver (method : String)
  | receiverOffChain (host : String)
  | noField (variableName : String)
  | unknownNestedFunction
  | unknownCallee
  | loweredTwice (functionName : String)
  | neverLowered (functionName : String)
  deriving DecidableEq, Repr

namespace Cause

def kind : Cause → CauseKind
  | incompleteBody | declarationWithoutVariable | missingParameter | variableDeclaredTwice _
  | functionWithoutSymbol | functionDeclaredTwice _ | receiverInStaticMethod | blockNotInGraph
  | functionNotInGraph | unknownFunction _ | referenceWithoutVariable | undeclaredVariable _
  | outOfScope _ => .malformedInput
  | notConverged _ => .nonConvergentCaptures
  | _ => .invalidGraph

private def q (s : String) : String := "'" ++ s ++ "'"

private def envNumber (env : EnvId) : String := "environment #" ++ toString env

def message : Cause → String
  | alreadyBuilt => "scope tree is already built"
  | incompleteBody => "method body without a method symbol or a block"
  | declarationWithoutVariable => "variable declaration without a symbol"
  | missingParameter => "null parameter symbol"
  | variableDeclaredTwice v => "variable " ++ q v ++ " is declared twice"
  | functionWithoutSymbol => "nested function without a symbol"
  | functionDeclaredTwice f => "nested function " ++ q f ++ " is declared twice"
  | receiverInStaticMethod => "receiver referenced in a static method"
  | blockNotInGraph => "block without a scope"
  | functionNotInGraph => "nested function without a scope"
  | unknownFunction f => "reference to unknown local function " ++ q (f.getD "<null>")
  | referenceWithoutVariable => "variable reference without a symbol"
  | undeclaredVariable v => "reference to undeclared variable " ++ q v
  | outOfScope v => "variable " ++ q v ++ " is referenced outside the scope that declares it"
  | notConverged visits => "capture sets did not converge after " ++ toString visits ++ " visits"
  | alreadyAllocated => "environments are already allocated"
  | unreachableEnv f env =>
    "closure " ++ q f ++ " cannot reach " ++ envNumber env ++ " through its parent chain"
  | alreadyDeclared => "declarations are already synthesized"
  | removedHost f => "closure " ++ q f ++ " is hosted on a removed environment"
  | cannotTakeReferences f => "closure " ++ q f ++ " cannot take environments by reference"
  | valueEnvInField type owner fieldName =>
    "struct environment " ++ q type ++ " is stored in field " ++ q (owner ++ "." ++ fieldName)
  | undeclaredEnv env => envNumber env ++ " has no synthesized type"
  | noParentField type => q type ++ " captures its parent but has no parent field"
  | hoistedElsewhere v type =>
    q v ++ " is hoisted into " ++ q type ++ " but declared in another scope"
  | typeCountMismatch => "synthesized types do not match live environments"
  | hoistedTwice v first second =>
    q v ++ " is hoisted into both " ++ q first ++ " and " ++ q second
  | methodCountMismatch => "synthesized methods do not match nested functions"
  | ineligibleForReferences m =>
    q m ++ " takes environments by reference but is not eligible for it"
  | deadHost m type =>
    q m ++ " is hosted on " ++ q type ++ ", which is not a live class environment"
  | paramNotByReference p m =>
    "environment parameter " ++ q p ++ " of " ++ q m ++ " is not by reference"
  | scopelessBlock => "block without a scope"
  | untypedEnv env => envNumber env ++ " has no type"
  | parentNotCurrent type => "parent of " ++ q type ++ " is not the current frame pointer"
  | valueEnvOutOfReach env =>
    "struct " ++ envNumber env ++ " is neither a local nor a parameter here"
  | envWithoutHost env => envNumber env ++ " is not reachable from a method without an environment"
  | envOffChain env host => envNumber env ++ " is not on the parent chain of " ++ q host
  | noReceiver => "static method has no receiver"
  | receiverNotHeld type => q type ++ " does not hold the receiver"
  | staticReadsReceiver m => "static method " ++ q m ++ " reads the receiver"
  | receiverOffChain host => "receiver is not reachable from " ++ q host
  | noField v => q v ++ " has no field"
  | unknownNestedFunction => "unknown nested function"
  | unknownCallee => "call to unknown local function"
  | loweredTwice f => "nested function " ++ q f ++ " is rewritten twice"
  | neverLowered f => "nested function " ++ q f ++ " was never rewritten"

end Cause

/-- A cause and the place it was found at; the place is unknown when no node is to blame. -/
structure Failure where
  cause : Cause
  loc : Loc := {}
  deriving DecidableEq, Repr

def Failure.kind (f : Failure) : CauseKind := f.cause.kind

def Failure.message (f : Failure) : String := f.cause.message

end Unnest

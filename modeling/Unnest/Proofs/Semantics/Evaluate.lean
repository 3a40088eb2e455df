import Unnest.Conversion
import Unnest.Proofs.Semantics.Store
import Unnest.Proofs.Syntax.Sites

/-!
# Running a body

A fuel-indexed evaluator of the tree language. It serves bodies as they are bound and lowered ones:
a `Program` knows nested functions by the block that declares them, and methods by their parameters
and bodies. What a program does not know as a method is outside, and calling it is an event.

Calls and loop iterations use up fuel, each call level one unit. A run that gets `stuck` has no
meaning; one that is `exhausted` would go on with more fuel.

## Main definitions

* `Expr.eval`, `Stmt.eval`, `Block.eval` : evaluation in an instance of the block around.
* `Program.activate` : running the body of a function or method.
* `MethodBody.run`, `LoweredBody.run` : running a body before and after lowering.
-/

namespace Unnest

/-- Why a run ends without a result. -/
inductive Halt where
  | stuck
  | exhausted
  deriving DecidableEq, Repr

/-- A computation on the store. A failed one keeps the store it failed in. -/
abbrev Eval := ExceptT Halt (StateM Store)

/-- A body about to be run, where `outer` is around it. -/
structure Activation where
  body : Block
  args : List (Variable × Argument)
  outer : Instance

structure Program where
  /-- The block that declares a nested function, and the body of the function. -/
  function? : NestedFunction → Option (BlockId × Block)
  /-- The parameters and the body of a method. -/
  method? : Method → Option (List Variable × Block)

/-- What is fixed while a body runs: how often a loop may go round, and how to run other bodies. -/
structure Machine where
  world : World
  program : Program
  fuel : Nat
  activate : Activation → Eval Value

namespace Eval

variable {α : Type}

def ofOption : Option α → Eval α
  | some a => pure a
  | none => throw .stuck

/-- The cell of a variable in scope. -/
def cell (i : Nat) (v : Option Variable) : Eval Cell := do
  ofOption (v.bind ((← get).instances i).cells)

def load (p : Slot) : Eval Content := do
  ofOption ((← get).load p)

def put (p : Slot) (x : Content) : Eval Unit := do
  set (← ofOption ((← get).put p x))

/-- Records are no operands. -/
def scalar : Content → Eval Value
  | .value x => pure x
  | .record _ => throw .stuck

def enter (b : BlockId) (declared : List Variable) (args : List (Variable × Argument))
    (outer : Instance) : Eval Nat := do
  let σ ← get
  set (σ.enter b declared args outer)
  return σ.entered

def make (c : Callable) : Eval Content := do
  let σ ← get
  set (σ.make c)
  return .value (.callable σ.made)

/-- Goes round while the test holds, at most as often as the fuel allows, until the body
returns. -/
def loop (test : Eval Bool) (body : Eval (Option Value)) : Nat → Eval (Option Value)
  | 0 => throw .exhausted
  | fuel + 1 => do
    if ← test then
      match ← body with
      | some x => return some x
      | none => loop test body fuel
    else return none

end Eval

namespace Machine

variable (M : Machine)

/-- The instance that a nested function closes over, seen from instance `i`. -/
def home (f : NestedFunction) (i : Nat) : Eval Nat := do
  let σ ← get
  Eval.ofOption ((M.program.function? f).bind fun b => (σ.instances i).around b.1)

/-- Calls a nested function closed over instance `home`. -/
def callFunction (f : NestedFunction) (home : Nat) (args : List Value) : Eval Value := do
  let b ← Eval.ofOption (M.program.function? f)
  let params := f.params.reduceOption
  if params.length = args.length then
    let σ ← get
    M.activate
      { body := b.2
        args := params.zip (args.map fun x => .value (.value x))
        outer := σ.instances home }
  else throw .stuck

/-- Calls a method that has a body. -/
def callMethod (params : List Variable) (body : Block) (receiver : Option Value)
    (args : List Argument) : Eval Value :=
  if params.length = args.length then
    M.activate { body, args := params.zip args, outer := { self := receiver } }
  else throw .stuck

/-- Calls a method from outside. -/
def perform (e : Event) : Eval Value := do
  modify (·.record e)
  return M.world.reply (← get).history

/-- Calls a callable value. -/
def invoke (k : Nat) (args : List Value) : Eval Value := do
  let σ ← get
  if k < σ.made then
    match σ.callables k with
    | .closure f home => M.callFunction f home args
    | .bound method receiver => do
      let (params, body) ← Eval.ofOption (M.program.method? method)
      M.callMethod params body receiver (args.map fun x => .value (.value x))
  else throw .stuck

end Machine

/-- The slot of field `f` of what `r` denotes. An object is denoted by a value, a record only by the
cell it is in. -/
def Expr.fieldSlot (i : Nat) (f : Field) (value : Eval Content) : Expr → Eval Slot
  | .ref _ target => do
    let c ← Eval.cell i target
    match (← get).cells c with
    | .value (.object o) => return .field o f.id
    | .value _ => throw .stuck
    | .record _ => return .part c f.id
  | _ => do
    match ← value with
    | .value (.object o) => return .field o f.id
    | _ => throw .stuck

mutual

/-- The content that an expression evaluates to in instance `i`. -/
def Expr.eval (M : Machine) (i : Nat) : Expr → Eval Content
  | .literal _ value type => return .value (M.world.literal value type)
  | .ref _ target => do Eval.load (.cell (← Eval.cell i target))
  | .self .. => do
    return .value (← Eval.ofOption ((← get).instances i).self)
  | .assign _ target value => do
    let p ← target.slot M i
    let x ← value.eval M i
    Eval.put p x
    return x
  | .binary _ op lhs rhs => do
    let x ← Eval.scalar (← lhs.eval M i)
    let y ← Eval.scalar (← rhs.eval M i)
    return .value (M.world.operator op x y)
  | .lambda _ fn _ => do
    let f ← Eval.ofOption fn
    Eval.make (.closure f (← M.home f i))
  | .functionRef _ fn => do
    let f ← Eval.ofOption fn
    Eval.make (.closure f (← M.home f i))
  | .localCall _ f args => do
    let home ← M.home f i
    if f.params.reduceOption.length = args.length then
      return .value (← M.callFunction f home (← Expr.evalAll M i args))
    else throw .stuck
  | .call _ method receiver args => do
    let r ← match receiver with
      | some e => some <$> (e.eval M i >>= Eval.scalar)
      | none => pure none
    match M.program.method? method with
    | some (params, body) =>
      if params.length = args.length then
        return .value (← M.callMethod params body r (← Expr.evalArgs M i params args))
      else throw .stuck
    | none => return .value (← M.perform ⟨method, r, ← Expr.evalAll M i args⟩)
  | .invoke _ callee args => do
    let c ← Eval.scalar (← callee.eval M i)
    let xs ← Expr.evalAll M i args
    match c with
    | .callable k => return .value (← M.invoke k xs)
    | _ => throw .stuck
  | .field _ r f => do Eval.load (← r.fieldSlot i f (r.eval M i))
  | .newEnv .. => do
    let σ ← get
    set σ.allocate
    return .value (.object σ.allocated)
  | .zero .. => return .record fun _ => .zero
  | .delegate _ receiver method => do
    let r ← match receiver with
      | some e => some <$> (e.eval M i >>= Eval.scalar)
      | none => pure none
    Eval.make (.bound method r)

/-- The slot that an expression denotes. -/
def Expr.slot (M : Machine) (i : Nat) : Expr → Eval Slot
  | .ref _ target => return .cell (← Eval.cell i target)
  | .field _ r f => r.fieldSlot i f (r.eval M i)
  | _ => throw .stuck

def Expr.evalAll (M : Machine) (i : Nat) : List Expr → Eval (List Value)
  | [] => return []
  | e :: es => do
    let x ← Eval.scalar (← e.eval M i)
    return x :: (← Expr.evalAll M i es)

/-- What is passed for the parameters of a method. By reference goes only the cell of a variable. -/
def Expr.evalArgs (M : Machine) (i : Nat) : List Variable → List Expr → Eval (List Argument)
  | p :: ps, e :: es => do
    let x : Argument ←
      if p.byRef then
        match e with
        | .ref _ target => Argument.reference <$> Eval.cell i target
        | _ => throw .stuck
      else Argument.value <$> e.eval M i
    return x :: (← Expr.evalArgs M i ps es)
  | _, _ => return []

end

/-- The receiver of a call, if there is one. -/
def Expr.evalReceiver (M : Machine) (i : Nat) : Option Expr → Eval (Option Value)
  | some e => some <$> (e.eval M i >>= Eval.scalar)
  | none => pure none

mutual

/-- Runs a statement in instance `i` of the block around it; a value ends the body. -/
def Stmt.eval (M : Machine) (i : Nat) : Stmt → Eval (Option Value)
  | .block b => b.eval M i
  | .declare _ target init => do
    let v ← Eval.ofOption target
    match init with
    | some e => do
      Eval.put (.cell ⟨i, v⟩) (← e.eval M i)
      return none
    | none => return none
  | .expr _ e => do
    let _ ← e.eval M i
    return none
  | .ret _ value =>
    match value with
    | some e => do return some (← Eval.scalar (← e.eval M i))
    | none => return some .zero
  | .cond _ test thenBlock elseBlock => do
    if M.world.truth (← Eval.scalar (← test.eval M i)) then thenBlock.eval M i
    else
      match elseBlock with
      | some b => b.eval M i
      | none => return none
  | .loop _ test body =>
    Eval.loop (return M.world.truth (← Eval.scalar (← test.eval M i))) (body.eval M i) M.fuel
  | .localFunction .. => return none

def Stmt.evalAll (M : Machine) (i : Nat) : List Stmt → Eval (Option Value)
  | [] => return none
  | s :: ss => do
    match ← s.eval M i with
    | some x => return some x
    | none => Stmt.evalAll M i ss

/-- Runs a block in a new instance of it. -/
def Block.eval (M : Machine) (i : Nat) : Block → Eval (Option Value)
  | .mk id loc stmts => do
    let j ← Eval.enter id (Block.declared (.mk id loc stmts)) [] ((← get).instances i)
    Stmt.evalAll M j stmts

end

namespace Program

variable (P : Program) (w : World)

/-- Runs a body with a bound on the depth of calls. One that ends without returning gives zero. -/
def activate : Nat → Activation → Eval Value
  | 0, _ => throw .exhausted
  | fuel + 1, a => do
    let i ← Eval.enter a.body.id a.body.declared a.args a.outer
    let x ← Stmt.evalAll ⟨w, P, fuel, activate fuel⟩ i a.body.stmts
    return x.getD .zero

/-- Runs the body of a method; what can be observed is its result and the history. -/
def run (m : MethodBody) (fuel : Nat) (receiver : Value) (args : List Value) :
    Except Halt Value × List Event :=
  let params := (m.method.map (·.params.reduceOption)).getD []
  match m.block with
  | some body =>
    if params.length = args.length then
      let (x, σ) := P.activate w fuel
        { body
          args := params.zip (args.map fun x => .value (.value x))
          outer := { self := m.receiver.map fun _ => receiver } } {}
      (x, σ.history)
    else (.error .stuck, [])
  | none => (.error .stuck, [])

end Program

/-- A body with its nested functions. -/
def MethodBody.program (m : MethodBody) : Program where
  function? f := m.sites.findSome? fun s =>
    match s.2.nested? with
    | some (g, body) => if g = some f then s.1.blocks.head?.map (·, body) else none
    | none => none
  method? _ := none

/-- The methods of a lowered body. -/
def Declarations.program (d : Declarations) : Program where
  function? _ := none
  method? m := d.methods.findSome? fun lm =>
    if lm.symbol = m then lm.body.map (m.params.reduceOption, ·) else none

/-- The meaning of a body. -/
def MethodBody.run (m : MethodBody) (w : World) : Nat → Value → List Value →
    Except Halt Value × List Event := m.numbered.program.run w m.numbered

/-- The meaning of a lowered body. -/
def LoweredBody.run (r : LoweredBody) (w : World) : Nat → Value → List Value →
    Except Halt Value × List Event := r.declarations.program.run w r.body

/-! ## One step after the other -/

namespace Eval

variable {α β : Type} {σ σ' : Store} {i : Nat} {p : Slot} {x : Content}

theorem bind_ok {x : Eval α} {f : α → Eval β} {a : α} (hx : x σ = (.ok a, σ')) :
    (x >>= f) σ = f a σ' := by
  simp only [bind, ExceptT.bind, ExceptT.mk, StateT.bind, hx]
  rfl

theorem bind_error {x : Eval α} {f : α → Eval β} {e : Halt} (hx : x σ = (.error e, σ')) :
    (x >>= f) σ = (.error e, σ') := by
  simp only [bind, ExceptT.bind, ExceptT.mk, StateT.bind, hx]
  rfl

theorem bind_get (f : Store → Eval β) : (get >>= f) σ = f σ σ := rfl

theorem cell_eq {v : Variable} {c : Cell} (h : (σ.instances i).cells v = some c) :
    cell i (some v) σ = (.ok c, σ) := by
  change ofOption ((σ.instances i).cells v) σ = _
  rw [h]
  rfl

theorem load_eq (h : σ.load p = some x) : load p σ = (.ok x, σ) := by
  change ofOption (σ.load p) σ = _
  rw [h]
  rfl

theorem put_eq (h : σ.put p x = some σ') : put p x σ = (.ok (), σ') := by
  change (ofOption (σ.put p x) >>= set) σ = _
  rw [h]
  rfl

end Eval

theorem Expr.eval_ref {i : Nat} {σ : Store} {v : Variable} {c : Cell}
    (h : (σ.instances i).cells v = some c) (M : Machine) (loc : Loc) :
    (Expr.ref loc (some v)).eval M i σ = (.ok (σ.cells c), σ) := by
  rw [eval, Eval.bind_ok (Eval.cell_eq h)]
  rfl

theorem Block.eval_eq (M : Machine) (i : Nat) (b : Block) (σ : Store) : b.eval M i σ =
    Stmt.evalAll M σ.entered b.stmts (σ.enter b.id b.declared [] (σ.instances i)) := by
  cases b
  rfl

theorem Expr.evalReceiver_some {M : Machine} {i : Nat} {σ : Store} {e : Expr} {x : Value}
    (h : e.eval M i σ = (.ok (.value x), σ)) :
    Expr.evalReceiver M i (some e) σ = (.ok (some x), σ) := by
  have hx : (e.eval M i >>= Eval.scalar) σ = (.ok x, σ) := Eval.bind_ok h
  rw [evalReceiver, map_eq_pure_bind, Eval.bind_ok hx]
  rfl

end Unnest

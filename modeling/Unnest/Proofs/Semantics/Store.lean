import Mathlib.Logic.Function.Basic
import Unnest.Syntax.Basic
import Unnest.TypeName

/-!
# Stores

What a running body works on. Every entry to a block makes a new instance of it, with a cell for
each variable declared there; an instance also knows the cells of the variables around it and the
instances of the blocks around it. Environments are objects on the heap or records in cells, and
callable values are numbered in the order they are made.

What the tree language leaves open is a `World`: the meaning of literals, operators and conditions,
and the replies of the methods that are called. A call of such a method is an event, and its reply
may depend on all events so far.

## Main definitions

* `World` : what a body is run in.
* `Store` : cells, objects, callable values and the history.
* `Store.enter` : entering a block.
* `Store.load`, `Store.put` : reading and writing a slot.
-/

namespace Unnest

/-! ## Values -/

/-- What a body computes with. -/
inductive Value where
  /-- What every cell and field holds at first. -/
  | zero
  | data (n : Nat)
  /-- A callable value, by its number. -/
  | callable (k : Nat)
  /-- An environment on the heap, by its number. -/
  | object (o : Nat)
  deriving DecidableEq, Repr, Inhabited

/-- The cell of a variable in one instance of the block that declares it. -/
structure Cell where
  inst : Nat
  var : Variable
  deriving DecidableEq, Repr

/-- What a cell holds. -/
inductive Content where
  | value (x : Value)
  /-- An environment in place, field by field. -/
  | record (fields : FieldId → Value)

/-- What can be read and written. -/
inductive Slot where
  | cell (c : Cell)
  /-- A field of an object. -/
  | field (o : Nat) (f : FieldId)
  /-- A field of the record in a cell. -/
  | part (c : Cell) (f : FieldId)

/-- How a parameter gets its cell: a new one with the given content, or the one it is handed. -/
inductive Argument where
  | value (x : Content)
  | reference (c : Cell)

/-- What a callable value calls. -/
inductive Callable where
  /-- A nested function, closed over an instance of the block that declares it. -/
  | closure (f : NestedFunction) (home : Nat)
  /-- A method, bound to a receiver. -/
  | bound (method : Method) (receiver : Option Value)

/-- A call that can be observed. -/
structure Event where
  method : Method
  receiver : Option Value
  args : List Value
  deriving DecidableEq, Repr

/-- What a body is run in. The name of a type parameter does not matter. -/
structure World where
  literal : String → String → Value
  operator : String → Value → Value → Value
  truth : Value → Bool
  /-- The reply to the last event of a history, which comes first. -/
  reply : List Event → Value
  literal_renameParams : ∀ params value type,
    literal value (TypeName.renameParams params type) = literal value type

/-! ## Stores -/

/-- One entry to a block. -/
structure Instance where
  self : Option Value := none
  /-- The cells of the variables in scope. -/
  cells : Variable → Option Cell := fun _ => none
  /-- The instances of the block and the blocks around it. -/
  around : BlockId → Option Nat := fun _ => none

structure Store where
  instances : Nat → Instance := fun _ => {}
  /-- How many blocks were entered so far; the number of the next instance. -/
  entered : Nat := 0
  cells : Cell → Content := fun _ => .value .zero
  objects : Nat → FieldId → Value := fun _ _ => .zero
  allocated : Nat := 0
  callables : Nat → Callable := fun _ => .closure default 0
  made : Nat := 0
  /-- The events so far, last one first. -/
  history : List Event := []

namespace Store

variable (σ : Store)

/-- Enters block `b`, which declares the given variables, where `outer` is around it. -/
def enter (b : BlockId) (declared : List Variable) (args : List (Variable × Argument))
    (outer : Instance) : Store where
  instances := Function.update σ.instances σ.entered
    { self := outer.self
      cells := fun v =>
        match args.lookup v with
        | some (.reference c) => some c
        | some (.value _) => some ⟨σ.entered, v⟩
        | none => if v ∈ declared then some ⟨σ.entered, v⟩ else outer.cells v
      around := Function.update outer.around b (some σ.entered) }
  entered := σ.entered + 1
  cells c :=
    if c.inst = σ.entered then
      match args.lookup c.var with
      | some (.value x) => x
      | _ => .value .zero
    else σ.cells c
  objects := σ.objects
  allocated := σ.allocated
  callables := σ.callables
  made := σ.made
  history := σ.history

/-- A new object, all of whose fields are zero. -/
def allocate : Store :=
  { σ with
    objects := Function.update σ.objects σ.allocated fun _ => .zero
    allocated := σ.allocated + 1 }

/-- A new callable value. -/
def make (c : Callable) : Store :=
  { σ with callables := Function.update σ.callables σ.made c, made := σ.made + 1 }

def record (e : Event) : Store := { σ with history := e :: σ.history }

/-- What a slot holds. Only a record has parts. -/
def load : Slot → Option Content
  | .cell c => some (σ.cells c)
  | .field o f => some (.value (σ.objects o f))
  | .part c f =>
    match σ.cells c with
    | .record fields => some (.value (fields f))
    | .value _ => none

/-- Writes a slot. A field does not hold records. -/
def put : Slot → Content → Option Store
  | .cell c, x => some { σ with cells := Function.update σ.cells c x }
  | .field o f, .value x =>
    some { σ with objects := Function.update σ.objects o (Function.update (σ.objects o) f x) }
  | .part c f, .value x =>
    match σ.cells c with
    | .record fields =>
      some { σ with cells := Function.update σ.cells c (.record (Function.update fields f x)) }
    | .value _ => none
  | _, _ => none

end Store

/-! ## Entering a block -/

section Enter

variable (σ : Store) (b : BlockId) (declared : List Variable) (args : List (Variable × Argument))
  (outer : Instance)

@[simp] theorem Store.enter_self :
    ((σ.enter b declared args outer).instances σ.entered).self = outer.self := by simp [enter]

@[simp] theorem Store.enter_around :
    ((σ.enter b declared args outer).instances σ.entered).around =
      Function.update outer.around b (some σ.entered) := by simp [enter]

theorem Store.enter_cells (v : Variable) :
    ((σ.enter b declared args outer).instances σ.entered).cells v =
      match args.lookup v with
      | some (.reference c) => some c
      | some (.value _) => some ⟨σ.entered, v⟩
      | none => if v ∈ declared then some ⟨σ.entered, v⟩ else outer.cells v := by simp [enter]

/-- Other instances stay as they are. -/
theorem Store.enter_instances {i : Nat} (hi : i ≠ σ.entered) :
    (σ.enter b declared args outer).instances i = σ.instances i := Function.update_of_ne hi ..

theorem Store.enter_contents {c : Cell} (hc : c.inst ≠ σ.entered) :
    (σ.enter b declared args outer).cells c = σ.cells c := if_neg hc

end Enter

/-! ## Writing a slot -/

/-- Writing the second slot leaves the first as it is. -/
def Slot.Apart : Slot → Slot → Prop
  | .cell c, .cell d | .cell c, .part d _ | .part c _, .cell d => c ≠ d
  | .part c f, .part d g => c ≠ d ∨ f ≠ g
  | .field o f, .field q g => o ≠ q ∨ f ≠ g
  | _, _ => True

/-- The store `σ'` comes from `σ` by writing value `x` to slot `p`. -/
structure Store.Puts (σ : Store) (p : Slot) (x : Value) (σ' : Store) : Prop where
  load : σ'.load p = some (.value x)
  apart : ∀ q : Slot, q.Apart p → σ'.load q = σ.load q
  record : ∀ c F, σ.cells c = .record F → p ≠ .cell c → ∃ F', σ'.cells c = .record F'
  instances : σ'.instances = σ.instances
  entered : σ'.entered = σ.entered
  allocated : σ'.allocated = σ.allocated
  callables : σ'.callables = σ.callables
  made : σ'.made = σ.made
  history : σ'.history = σ.history

namespace Store

variable {σ : Store} {x y : Value} {c : Cell} {f : FieldId} {o : Nat} {F : FieldId → Value}

theorem puts_cell (σ : Store) (c : Cell) (x : Value) :
    σ.Puts (.cell c) x { σ with cells := Function.update σ.cells c (.value x) } where
  load := by simp [load]
  apart q hq := by
    cases q with
    | cell d => simp [load, Function.update_of_ne (show d ≠ c from hq)]
    | field => rfl
    | part d g => simp [load, Function.update_of_ne (show d ≠ c from hq)]
  record d F hd hne := by
    have hdc : d ≠ c := by
      rintro rfl
      exact hne rfl
    exact ⟨F, by simp [Function.update_of_ne hdc, hd]⟩
  instances := rfl
  entered := rfl
  allocated := rfl
  callables := rfl
  made := rfl
  history := rfl

theorem puts_field (σ : Store) (o : Nat) (f : FieldId) (x : Value) :
    σ.Puts (.field o f) x
      { σ with objects := Function.update σ.objects o (Function.update (σ.objects o) f x) } where
  load := by simp [load]
  apart q hq := by
    cases q with
    | cell | part => rfl
    | field q g =>
      by_cases hqo : q = o
      · subst hqo
        have hfg : g ≠ f := (show q ≠ q ∨ g ≠ f from hq).resolve_left (not_not_intro rfl)
        simp [load, Function.update_of_ne hfg]
      · simp [load, Function.update_of_ne hqo]
  record d F hd _ := ⟨F, hd⟩
  instances := rfl
  entered := rfl
  allocated := rfl
  callables := rfl
  made := rfl
  history := rfl

theorem puts_part (hc : σ.cells c = .record F) (f : FieldId) (x : Value) :
    σ.Puts (.part c f) x
      { σ with cells := Function.update σ.cells c (.record (Function.update F f x)) } where
  load := by simp [load]
  apart q hq := by
    cases q with
    | cell d => simp [load, Function.update_of_ne (show d ≠ c from hq)]
    | field => rfl
    | part d g =>
      by_cases hdc : d = c
      · subst hdc
        have hfg : g ≠ f := (show d ≠ d ∨ g ≠ f from hq).resolve_left (not_not_intro rfl)
        simp [load, hc, Function.update_of_ne hfg]
      · simp [load, Function.update_of_ne hdc]
  record d F' hd _ := by
    by_cases hdc : d = c
    · exact ⟨Function.update F f x, by simp [hdc]⟩
    · exact ⟨F', by simp [Function.update_of_ne hdc, hd]⟩
  instances := rfl
  entered := rfl
  allocated := rfl
  callables := rfl
  made := rfl
  history := rfl

/-- What holds a value can be written. -/
theorem put_eq {p : Slot} (hp : σ.load p = some (.value y)) (x : Value) :
    ∃ σ', σ.put p (.value x) = some σ' ∧ σ.Puts p x σ' := by
  cases p with
  | cell c => exact ⟨_, rfl, σ.puts_cell c x⟩
  | field o f => exact ⟨_, rfl, σ.puts_field o f x⟩
  | part c f =>
    cases hc : σ.cells c with
    | value => simp [load, hc] at hp
    | record F => exact ⟨_, by rw [put, hc], puts_part hc f x⟩

end Store

end Unnest

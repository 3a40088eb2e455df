import Mathlib.Data.List.Basic
import Mathlib.Logic.Equiv.Basic
import Unnest.Syntax.Variables

/-!
# Names of symbols

The name of a symbol is for people only; two symbols are told apart by their identities. A `Naming`
gives a name to every variable and to every nested function that comes with a body, and a `Renaming`
permutes the names of each of them. Whatever names two bodies have, if nothing else tells them apart
then one is a renaming of the other.

Renaming is injective, whereas naming is not: it is renamings under which the graph of a body is
followed through the analysis.

## Main definitions

* `Expr.mapSymbols` and its companions : a tree with its symbols changed.
* `Naming`, `MethodBody.named` : a body with its names given anew.
* `Renaming`, `Variable.rename` : permuted names.

## Main statements

* `Variable.rename_inj`, `NestedFunction.rename_inj` : different symbols stay different.
* `MethodBody.named_eq_rename` : any two ways to name a body differ by a renaming.
* `MethodBody.numbered_mapSymbols` : names do not matter for the numbers of blocks.
-/

namespace Unnest

/-! ## Changing the symbols of a tree -/

/-- What becomes of the symbols of a tree. -/
structure SymbolMap where
  var : Variable → Variable
  fn : NestedFunction → NestedFunction
  method : Method → Method
  field : Field → Field

/-- First `τ`, then `σ`. -/
def SymbolMap.comp (σ τ : SymbolMap) : SymbolMap where
  var := σ.var ∘ τ.var
  fn := σ.fn ∘ τ.fn
  method := σ.method ∘ τ.method
  field := σ.field ∘ τ.field

mutual

def Expr.mapSymbols (σ : SymbolMap) : Expr → Expr
  | .literal loc value type => .literal loc value type
  | .ref loc target => .ref loc (target.map σ.var)
  | .self loc type => .self loc type
  | .assign loc target value => .assign loc (target.mapSymbols σ) (value.mapSymbols σ)
  | .binary loc op lhs rhs => .binary loc op (lhs.mapSymbols σ) (rhs.mapSymbols σ)
  | .lambda loc fn body => .lambda loc (fn.map σ.fn) (body.mapSymbols σ)
  | .functionRef loc fn => .functionRef loc (fn.map σ.fn)
  | .localCall loc fn args => .localCall loc (σ.fn fn) (Expr.mapSymbolsAll σ args)
  | .call loc method none args => .call loc (σ.method method) none (Expr.mapSymbolsAll σ args)
  | .call loc method (some e) args =>
    .call loc (σ.method method) (some (e.mapSymbols σ)) (Expr.mapSymbolsAll σ args)
  | .invoke loc callee args => .invoke loc (callee.mapSymbols σ) (Expr.mapSymbolsAll σ args)
  | .field loc receiver f => .field loc (receiver.mapSymbols σ) (σ.field f)
  | .newEnv loc type => .newEnv loc type
  | .zero loc type => .zero loc type
  | .delegate loc none method => .delegate loc none (σ.method method)
  | .delegate loc (some e) method => .delegate loc (some (e.mapSymbols σ)) (σ.method method)

def Expr.mapSymbolsAll (σ : SymbolMap) : List Expr → List Expr
  | [] => []
  | e :: es => e.mapSymbols σ :: Expr.mapSymbolsAll σ es

def Stmt.mapSymbols (σ : SymbolMap) : Stmt → Stmt
  | .block b => .block (b.mapSymbols σ)
  | .declare loc target none => .declare loc (target.map σ.var) none
  | .declare loc target (some e) => .declare loc (target.map σ.var) (some (e.mapSymbols σ))
  | .expr loc value => .expr loc (value.mapSymbols σ)
  | .ret loc none => .ret loc none
  | .ret loc (some e) => .ret loc (some (e.mapSymbols σ))
  | .cond loc test thenBlock none => .cond loc (test.mapSymbols σ) (thenBlock.mapSymbols σ) none
  | .cond loc test thenBlock (some b) =>
    .cond loc (test.mapSymbols σ) (thenBlock.mapSymbols σ) (some (b.mapSymbols σ))
  | .loop loc test body => .loop loc (test.mapSymbols σ) (body.mapSymbols σ)
  | .localFunction loc fn body => .localFunction loc (fn.map σ.fn) (body.mapSymbols σ)

def Stmt.mapSymbolsAll (σ : SymbolMap) : List Stmt → List Stmt
  | [] => []
  | s :: ss => s.mapSymbols σ :: Stmt.mapSymbolsAll σ ss

def Block.mapSymbols (σ : SymbolMap) : Block → Block
  | .mk id loc stmts => .mk id loc (Stmt.mapSymbolsAll σ stmts)

end

def MethodBody.mapSymbols (σ : SymbolMap) (m : MethodBody) : MethodBody where
  method := m.method.map σ.method
  receiver := m.receiver.map σ.var
  block := m.block.map (·.mapSymbols σ)

section Laws

variable (σ τ : SymbolMap)

@[simp] theorem Block.id_mapSymbols (b : Block) : (b.mapSymbols σ).id = b.id := by
  cases b
  rfl

@[simp] theorem Block.loc_mapSymbols (b : Block) : (b.mapSymbols σ).loc = b.loc := by
  cases b
  rfl

@[simp] theorem Block.stmts_mapSymbols (b : Block) :
    (b.mapSymbols σ).stmts = Stmt.mapSymbolsAll σ b.stmts := by
  cases b
  rfl

mutual

theorem Expr.mapSymbols_comp : (e : Expr) → (e.mapSymbols τ).mapSymbols σ = e.mapSymbols (σ.comp τ)
  | .literal .. | .self .. | .newEnv .. | .zero .. => rfl
  | .ref _ target => by cases target <;> rfl
  | .functionRef _ fn => by cases fn <;> rfl
  | .delegate _ none _ => rfl
  | .delegate _ (some e) _ => by
    simp only [Expr.mapSymbols, e.mapSymbols_comp]
    rfl
  | .assign _ target value => by
    simp only [Expr.mapSymbols, target.mapSymbols_comp, value.mapSymbols_comp]
  | .binary _ _ lhs rhs => by
    simp only [Expr.mapSymbols, lhs.mapSymbols_comp, rhs.mapSymbols_comp]
  | .lambda _ fn body => by
    simp only [Expr.mapSymbols, body.mapSymbols_comp, Option.map_map]
    rfl
  | .localCall _ _ args => by
    simp only [Expr.mapSymbols, Expr.mapSymbolsAll_comp args]
    rfl
  | .call _ _ none args => by
    simp only [Expr.mapSymbols, Expr.mapSymbolsAll_comp args]
    rfl
  | .call _ _ (some e) args => by
    simp only [Expr.mapSymbols, e.mapSymbols_comp, Expr.mapSymbolsAll_comp args]
    rfl
  | .invoke _ callee args => by
    simp only [Expr.mapSymbols, callee.mapSymbols_comp, Expr.mapSymbolsAll_comp args]
  | .field _ receiver _ => by
    simp only [Expr.mapSymbols, receiver.mapSymbols_comp]
    rfl

theorem Expr.mapSymbolsAll_comp : (es : List Expr) →
    Expr.mapSymbolsAll σ (Expr.mapSymbolsAll τ es) = Expr.mapSymbolsAll (σ.comp τ) es
  | [] => rfl
  | e :: es => by simp only [Expr.mapSymbolsAll, e.mapSymbols_comp, Expr.mapSymbolsAll_comp es]

theorem Stmt.mapSymbols_comp : (s : Stmt) → (s.mapSymbols τ).mapSymbols σ = s.mapSymbols (σ.comp τ)
  | .block b => by simp only [Stmt.mapSymbols, b.mapSymbols_comp]
  | .declare _ target none => by cases target <;> rfl
  | .declare _ target (some e) => by
    simp only [Stmt.mapSymbols, e.mapSymbols_comp, Option.map_map]
    rfl
  | .expr _ value => by simp only [Stmt.mapSymbols, value.mapSymbols_comp]
  | .ret _ none => rfl
  | .ret _ (some e) => by simp only [Stmt.mapSymbols, e.mapSymbols_comp]
  | .cond _ test thenBlock none => by
    simp only [Stmt.mapSymbols, test.mapSymbols_comp, thenBlock.mapSymbols_comp]
  | .cond _ test thenBlock (some b) => by
    simp only [Stmt.mapSymbols, test.mapSymbols_comp, thenBlock.mapSymbols_comp, b.mapSymbols_comp]
  | .loop _ test body => by simp only [Stmt.mapSymbols, test.mapSymbols_comp, body.mapSymbols_comp]
  | .localFunction _ fn body => by
    simp only [Stmt.mapSymbols, body.mapSymbols_comp, Option.map_map]
    rfl

theorem Stmt.mapSymbolsAll_comp : (ss : List Stmt) →
    Stmt.mapSymbolsAll σ (Stmt.mapSymbolsAll τ ss) = Stmt.mapSymbolsAll (σ.comp τ) ss
  | [] => rfl
  | s :: ss => by simp only [Stmt.mapSymbolsAll, s.mapSymbols_comp, Stmt.mapSymbolsAll_comp ss]

theorem Block.mapSymbols_comp : (b : Block) →
    (b.mapSymbols τ).mapSymbols σ = b.mapSymbols (σ.comp τ)
  | .mk _ _ stmts => by simp only [Block.mapSymbols, Stmt.mapSymbolsAll_comp stmts]

end

theorem MethodBody.mapSymbols_comp (m : MethodBody) :
    (m.mapSymbols τ).mapSymbols σ = m.mapSymbols (σ.comp τ) := by
  simp only [mapSymbols, Option.map_map, Function.comp_def, Block.mapSymbols_comp]
  rfl

/-! ## Numbers of blocks -/

mutual

theorem Expr.blockCount_mapSymbols : (e : Expr) → (e.mapSymbols σ).blockCount = e.blockCount
  | .literal .. | .ref .. | .self .. | .functionRef .. | .newEnv .. | .zero .. => rfl
  | .delegate _ none _ => rfl
  | .delegate _ (some e) _ => by
    simp only [Expr.mapSymbols, Expr.blockCount, e.blockCount_mapSymbols]
  | .assign _ target value => by
    simp only [Expr.mapSymbols, Expr.blockCount, target.blockCount_mapSymbols,
      value.blockCount_mapSymbols]
  | .binary _ _ lhs rhs => by
    simp only [Expr.mapSymbols, Expr.blockCount, lhs.blockCount_mapSymbols,
      rhs.blockCount_mapSymbols]
  | .lambda _ _ body => by simp only [Expr.mapSymbols, Expr.blockCount, body.blockCount_mapSymbols]
  | .localCall _ _ args => by
    simp only [Expr.mapSymbols, Expr.blockCount, Expr.blockCounts_mapSymbols args]
  | .call _ _ none args => by
    simp only [Expr.mapSymbols, Expr.blockCount, Expr.blockCounts_mapSymbols args]
  | .call _ _ (some e) args => by
    simp only [Expr.mapSymbols, Expr.blockCount, e.blockCount_mapSymbols,
      Expr.blockCounts_mapSymbols args]
  | .invoke _ callee args => by
    simp only [Expr.mapSymbols, Expr.blockCount, callee.blockCount_mapSymbols,
      Expr.blockCounts_mapSymbols args]
  | .field _ receiver _ => by
    simp only [Expr.mapSymbols, Expr.blockCount, receiver.blockCount_mapSymbols]

theorem Expr.blockCounts_mapSymbols : (es : List Expr) →
    Expr.blockCounts (Expr.mapSymbolsAll σ es) = Expr.blockCounts es
  | [] => rfl
  | e :: es => by
    simp only [Expr.mapSymbolsAll, Expr.blockCounts, e.blockCount_mapSymbols,
      Expr.blockCounts_mapSymbols es]

theorem Stmt.blockCount_mapSymbols : (s : Stmt) → (s.mapSymbols σ).blockCount = s.blockCount
  | .block b => by simp only [Stmt.mapSymbols, Stmt.blockCount, b.blockCount_mapSymbols]
  | .declare _ _ none => rfl
  | .declare _ _ (some e) => by
    simp only [Stmt.mapSymbols, Stmt.blockCount, e.blockCount_mapSymbols]
  | .expr _ value => by simp only [Stmt.mapSymbols, Stmt.blockCount, value.blockCount_mapSymbols]
  | .ret _ none => rfl
  | .ret _ (some e) => by simp only [Stmt.mapSymbols, Stmt.blockCount, e.blockCount_mapSymbols]
  | .cond _ test thenBlock none => by
    simp only [Stmt.mapSymbols, Stmt.blockCount, test.blockCount_mapSymbols,
      thenBlock.blockCount_mapSymbols]
  | .cond _ test thenBlock (some b) => by
    simp only [Stmt.mapSymbols, Stmt.blockCount, test.blockCount_mapSymbols,
      thenBlock.blockCount_mapSymbols, b.blockCount_mapSymbols]
  | .loop _ test body => by
    simp only [Stmt.mapSymbols, Stmt.blockCount, test.blockCount_mapSymbols,
      body.blockCount_mapSymbols]
  | .localFunction _ _ body => by
    simp only [Stmt.mapSymbols, Stmt.blockCount, body.blockCount_mapSymbols]

theorem Stmt.blockCounts_mapSymbols : (ss : List Stmt) →
    Stmt.blockCounts (Stmt.mapSymbolsAll σ ss) = Stmt.blockCounts ss
  | [] => rfl
  | s :: ss => by
    simp only [Stmt.mapSymbolsAll, Stmt.blockCounts, s.blockCount_mapSymbols,
      Stmt.blockCounts_mapSymbols ss]

theorem Block.blockCount_mapSymbols : (b : Block) → (b.mapSymbols σ).blockCount = b.blockCount
  | .mk _ _ stmts => by
    simp only [Block.mapSymbols, Block.blockCount, Stmt.blockCounts_mapSymbols stmts]

end

mutual

theorem Expr.number_mapSymbols : (e : Expr) → (n : Nat) →
    (e.mapSymbols σ).number n = (e.number n).mapSymbols σ
  | .literal .., _ | .ref .., _ | .self .., _ | .functionRef .., _ | .newEnv .., _
  | .zero .., _ => rfl
  | .delegate _ none _, _ => rfl
  | .delegate _ (some e) _, n => by simp only [Expr.mapSymbols, Expr.number, e.number_mapSymbols n]
  | .assign _ target value, n => by
    simp only [Expr.mapSymbols, Expr.number, target.number_mapSymbols,
      target.blockCount_mapSymbols σ, value.number_mapSymbols]
  | .binary _ _ lhs rhs, n => by
    simp only [Expr.mapSymbols, Expr.number, lhs.number_mapSymbols, lhs.blockCount_mapSymbols σ,
      rhs.number_mapSymbols]
  | .lambda _ _ body, n => by simp only [Expr.mapSymbols, Expr.number, body.number_mapSymbols n]
  | .localCall _ _ args, n => by
    simp only [Expr.mapSymbols, Expr.number, Expr.numberAll_mapSymbols args]
  | .call _ _ none args, n => by
    simp only [Expr.mapSymbols, Expr.number, Expr.numberAll_mapSymbols args]
  | .call _ _ (some e) args, n => by
    simp only [Expr.mapSymbols, Expr.number, e.number_mapSymbols, e.blockCount_mapSymbols σ,
      Expr.numberAll_mapSymbols args]
  | .invoke _ callee args, n => by
    simp only [Expr.mapSymbols, Expr.number, callee.number_mapSymbols,
      callee.blockCount_mapSymbols σ, Expr.numberAll_mapSymbols args]
  | .field _ receiver _, n => by
    simp only [Expr.mapSymbols, Expr.number, receiver.number_mapSymbols n]

theorem Expr.numberAll_mapSymbols : (es : List Expr) → (n : Nat) →
    Expr.numberAll n (Expr.mapSymbolsAll σ es) = Expr.mapSymbolsAll σ (Expr.numberAll n es)
  | [], _ => rfl
  | e :: es, n => by
    simp only [Expr.mapSymbolsAll, Expr.numberAll, e.number_mapSymbols n,
      e.blockCount_mapSymbols σ, Expr.numberAll_mapSymbols es]

theorem Stmt.number_mapSymbols : (s : Stmt) → (n : Nat) →
    (s.mapSymbols σ).number n = (s.number n).mapSymbols σ
  | .block b, n => by simp only [Stmt.mapSymbols, Stmt.number, b.number_mapSymbols n]
  | .declare _ _ none, _ => rfl
  | .declare _ _ (some e), n => by simp only [Stmt.mapSymbols, Stmt.number, e.number_mapSymbols n]
  | .expr _ value, n => by simp only [Stmt.mapSymbols, Stmt.number, value.number_mapSymbols n]
  | .ret _ none, _ => rfl
  | .ret _ (some e), n => by simp only [Stmt.mapSymbols, Stmt.number, e.number_mapSymbols n]
  | .cond _ test thenBlock none, n => by
    simp only [Stmt.mapSymbols, Stmt.number, test.number_mapSymbols, test.blockCount_mapSymbols σ,
      thenBlock.number_mapSymbols]
  | .cond _ test thenBlock (some b), n => by
    simp only [Stmt.mapSymbols, Stmt.number, test.number_mapSymbols, test.blockCount_mapSymbols σ,
      thenBlock.number_mapSymbols, thenBlock.blockCount_mapSymbols σ, b.number_mapSymbols]
  | .loop _ test body, n => by
    simp only [Stmt.mapSymbols, Stmt.number, test.number_mapSymbols, test.blockCount_mapSymbols σ,
      body.number_mapSymbols]
  | .localFunction _ _ body, n => by
    simp only [Stmt.mapSymbols, Stmt.number, body.number_mapSymbols n]

theorem Stmt.numberAll_mapSymbols : (ss : List Stmt) → (n : Nat) →
    Stmt.numberAll n (Stmt.mapSymbolsAll σ ss) = Stmt.mapSymbolsAll σ (Stmt.numberAll n ss)
  | [], _ => rfl
  | s :: ss, n => by
    simp only [Stmt.mapSymbolsAll, Stmt.numberAll, s.number_mapSymbols n,
      s.blockCount_mapSymbols σ, Stmt.numberAll_mapSymbols ss]

theorem Block.number_mapSymbols : (b : Block) → (n : Nat) →
    (b.mapSymbols σ).number n = (b.number n).mapSymbols σ
  | .mk _ _ stmts, n => by
    simp only [Block.mapSymbols, Block.number, Stmt.numberAll_mapSymbols stmts]

end

/-- Names do not matter for the numbers of blocks. -/
theorem MethodBody.numbered_mapSymbols (m : MethodBody) :
    (m.mapSymbols σ).numbered = m.numbered.mapSymbols σ := by
  simp only [numbered, mapSymbols, Option.map_map, Function.comp_def, Block.number_mapSymbols]

end Laws

/-! ## Namings -/

/-- Names for the variables and the nested functions that come with a body, by their identities. -/
structure Naming where
  var : Nat → String
  fn : Nat → String

/-- Only variables that come with a body are named. -/
def Variable.named (ν : Naming) (v : Variable) : Variable :=
  match v.id with
  | .given n => { v with name := ν.var n }
  | _ => v

def NestedFunction.named (ν : Naming) (f : NestedFunction) : NestedFunction :=
  { f with name := ν.fn f.id, params := f.params.map (·.map (·.named ν)) }

def Naming.symbols (ν : Naming) : SymbolMap where
  var := Variable.named ν
  fn := NestedFunction.named ν
  method := Method.mapVariables (Variable.named ν)
  field := id

/-- The body with its names given anew. Methods and fields keep theirs, and so do types. -/
def MethodBody.named (ν : Naming) (m : MethodBody) : MethodBody := m.mapSymbols ν.symbols

/-! ## Renamings -/

/-- For every symbol that comes with a body a permutation of the names. -/
structure Renaming where
  var : Nat → Equiv.Perm String
  fn : Nat → Equiv.Perm String

namespace Variable

variable (ρ : Renaming) (v : Variable)

def rename : Variable :=
  match v.id with
  | .given n => { v with name := ρ.var n v.name }
  | _ => v

@[simp] theorem id_rename : (v.rename ρ).id = v.id := by
  unfold rename
  split <;> rfl

@[simp] theorem role_rename : (v.rename ρ).role = v.role := by
  unfold rename
  split <;> rfl

@[simp] theorem type_rename : (v.rename ρ).type = v.type := by
  unfold rename
  split <;> rfl

@[simp] theorem byRef_rename : (v.rename ρ).byRef = v.byRef := by
  unfold rename
  split <;> rfl

@[simp] theorem isReceiver_rename : (v.rename ρ).isReceiver = v.isReceiver := by
  rw [isReceiver, role_rename]
  rfl

variable {ρ v}

/-- A variable is not lost under a new name, because its identity stays. -/
theorem rename_injective : Function.Injective (Variable.rename ρ) := by
  intro v w h
  have hid : v.id = w.id := by
    have := congrArg Variable.id h
    rwa [id_rename, id_rename] at this
  cases v with
  | mk id role name type byRef =>
    cases w with
    | mk id' role' name' type' byRef' =>
      cases hid
      cases id <;> simpa [rename] using h

@[simp] theorem rename_inj {w : Variable} : v.rename ρ = w.rename ρ ↔ v = w :=
  rename_injective.eq_iff

end Variable

namespace NestedFunction

variable (ρ : Renaming) (f : NestedFunction)

def rename : NestedFunction :=
  { f with name := ρ.fn f.id f.name, params := f.params.map (·.map (·.rename ρ)) }

variable {ρ f}

theorem rename_injective : Function.Injective (NestedFunction.rename ρ) := by
  intro f f' h
  cases f with
  | mk id form name returnType params isDelegate isAsync isIterator =>
    cases f' with
    | mk id' form' name' returnType' params' isDelegate' isAsync' isIterator' =>
      simp only [rename, mk.injEq] at h
      obtain ⟨rfl, rfl, hname, rfl, hparams, rfl, rfl, rfl⟩ := h
      obtain rfl := (ρ.fn id).injective hname
      obtain rfl := List.map_injective_iff.mpr
        (Option.map_injective Variable.rename_injective) hparams
      rfl

@[simp] theorem rename_inj {f' : NestedFunction} : f.rename ρ = f'.rename ρ ↔ f = f' :=
  rename_injective.eq_iff

end NestedFunction

namespace Renaming

def symbols (ρ : Renaming) : SymbolMap where
  var := Variable.rename ρ
  fn := NestedFunction.rename ρ
  method := Method.mapVariables (Variable.rename ρ)
  field := id

/-- Exchanges the names that a symbol has in two namings. -/
def exchange (ν ν' : Naming) : Renaming where
  var n := Equiv.swap (ν.var n) (ν'.var n)
  fn n := Equiv.swap (ν.fn n) (ν'.fn n)

variable (ν ν' : Naming)

theorem rename_named (v : Variable) : (v.named ν).rename (exchange ν ν') = v.named ν' := by
  cases v with
  | mk id role name type byRef => cases id <;> simp [Variable.named, Variable.rename, exchange]

theorem symbols_exchange :
    (exchange ν ν').symbols.comp ν.symbols = ν'.symbols := by
  have hvar : Variable.rename (exchange ν ν') ∘ Variable.named ν = Variable.named ν' :=
    funext (rename_named ν ν')
  have hparams (ps : List (Option Variable)) :
      (ps.map (·.map (·.named ν))).map (·.map (·.rename (exchange ν ν'))) =
        ps.map (·.map (·.named ν')) := by
    simp only [List.map_map, Function.comp_def, Option.map_map, rename_named]
  have hname (f : NestedFunction) :
      (exchange ν ν').fn f.id (ν.fn f.id) = ν'.fn f.id := Equiv.swap_apply_left _ _
  simp only [SymbolMap.comp, symbols, Naming.symbols, SymbolMap.mk.injEq]
  refine ⟨hvar, funext fun f => ?_, funext fun m => ?_, rfl⟩
  · simp only [Function.comp, NestedFunction.named, NestedFunction.rename, hname, hparams]
  · exact congrArg (fun ps => { m with params := ps }) (hparams m.params)

end Renaming

/-- A body named in two ways: one is a renaming of the other. -/
theorem MethodBody.named_eq_rename (ν ν' : Naming) (m : MethodBody) :
    m.named ν' = (m.named ν).mapSymbols (Renaming.exchange ν ν').symbols := by
  rw [named, named, mapSymbols_comp, Renaming.symbols_exchange]

end Unnest

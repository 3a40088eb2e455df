import Mathlib.Data.List.ReduceOption
import Unnest.Proofs.Graph.Paths

/-!
# References in a body

What a node refers to by itself: a variable, the receiver, or a nested function that it calls or
uses as a value. From these and the sites of a body come the notions in which captures are
specified: the own body of a function, what it refers to there, and on which functions it depends.

## Main definitions

* `MethodBody.Refers` : a function refers to a variable in its own body.
* `MethodBody.DependsOn` : a function contains, calls or names another in its own body.
* `MethodBody.DeclaresWithin` : a variable is declared somewhere inside a function.
* `MethodBody.CallsInScope` : functions are called and named only inside the block that declares
  them.
* `MethodBody.ReceiverUnique` : nothing but the receiver is declared as one.
* `MethodBody.InRole` : variables have the roles of the places that declare them.
* `MethodBody.WellBound` : symbols are used as they are meant.
-/

namespace Unnest

namespace Node

/-- The variable that a node refers to, which may be missing; the receiver for a reference to it. -/
def reference? (receiver : Option Variable) : Node → Option (Option Variable)
  | .expr (.ref _ target) => some target
  | .expr (.self ..) => some receiver
  | _ => none

/-- The nested function that a node calls or uses as a value, which may be missing. -/
def use? : Node → Option (Option NestedFunction)
  | .expr (.functionRef _ fn) => some fn
  | .expr (.localCall _ fn _) => some (some fn)
  | _ => none

/-- The nested function that a node uses as a value. -/
def named? : Node → Option NestedFunction
  | .expr (.functionRef _ fn) => fn
  | _ => none

theorem eq_of_named {n : Node} {f : NestedFunction} (h : n.named? = some f) :
    ∃ loc, n = .expr (.functionRef loc (some f)) := by
  cases n with
  | expr e =>
    cases e with
    | functionRef loc fn => exact ⟨loc, by rw [show fn = some f from h]⟩
    | _ => simp [named?] at h
  | _ => simp [named?] at h

end Node

namespace MethodBody

variable (m : MethodBody)

/-- The own body of `f` refers to `v`: a node does that has `f` as the innermost function around
it. -/
def Refers (f : NestedFunction) (v : Variable) : Prop :=
  ∃ p n, (p, n) ∈ m.numbered.sites ∧ p.functions.head? = some f ∧
    n.reference? m.receiver = some (some v)

/-- The own body of `f` declares `h` directly, calls it or names it. -/
def DependsOn (f h : NestedFunction) : Prop :=
  ∃ p n, (p, n) ∈ m.numbered.sites ∧ p.functions.head? = some f ∧
    (n.function? = some h ∨ n.use? = some (some h))

/-- The variable is declared somewhere inside `f`, also as a parameter of `f`. -/
def DeclaresWithin (f : NestedFunction) (v : Variable) : Prop :=
  ∃ p, m.Declares p v ∧ f ∈ p.functions

/-- Every function is called and named only inside the block that declares it. -/
def CallsInScope : Prop :=
  ∀ p n h, (p, n) ∈ m.numbered.sites → n.use? = some (some h) →
    ∃ q k b, (q, k) ∈ m.numbered.sites ∧ k.function? = some h ∧ q.blocks.head? = some b ∧
      b ∈ p.blocks

/-- No variable but the receiver has the role of one. -/
def ReceiverUnique : Prop := ∀ p v, m.Declares p v → v.isReceiver = true → m.receiver = some v

end MethodBody

/-- What a node declares has the role that goes with it, and the receiver is not a variable. -/
def Node.InRole (receiver : Option Variable) : Node → Prop
  | .expr (.ref _ target) => ∀ v ∈ target, receiver ≠ some v
  | .expr (.lambda _ fn _) | .stmt (.localFunction _ fn _) =>
    ∀ f ∈ fn, ∀ v ∈ f.params.reduceOption, v.role = .parameter
  | .stmt (.declare _ target _) => ∀ v ∈ target, v.role = .declared
  | _ => True

/-- A node uses symbols as they are meant: the receiver is not a variable, parameters and declared
variables have their roles, and functions have the form of the node that introduces them. -/
def Node.WellBound (receiver : Option Variable) : Node → Prop
  | .expr (.ref _ target) => ∀ v ∈ target, receiver ≠ some v
  | .expr (.lambda _ fn _) =>
    ∀ f ∈ fn, f.form = .lambda ∧ ∀ v ∈ f.params.reduceOption, v.role = .parameter
  | .stmt (.localFunction _ fn _) =>
    ∀ f ∈ fn, f.form = .localFunction ∧ ∀ v ∈ f.params.reduceOption, v.role = .parameter
  | .stmt (.declare _ target _) => ∀ v ∈ target, v.role = .declared
  | _ => True

theorem Node.WellBound.inRole {receiver : Option Variable} {n : Node} (h : n.WellBound receiver) :
    n.InRole receiver := by
  cases n with
  | expr e =>
    cases e with
    | ref => exact h
    | lambda => exact fun f hf => (h f hf).2
    | _ => trivial
  | stmt s =>
    cases s with
    | declare => exact h
    | localFunction => exact fun f hf => (h f hf).2
    | _ => trivial
  | block => trivial

namespace MethodBody

/-- Variables have the roles of the places that declare them, and none is the receiver. -/
structure InRole (m : MethodBody) : Prop where
  receiver : ∀ v ∈ m.receiver, v.role = .receiver
  params : ∀ method ∈ m.method, ∀ v ∈ method.params.reduceOption, v.role = .parameter
  nodes : ∀ s ∈ m.numbered.sites, s.2.InRole m.receiver

/-- The symbols of the body are used as they are meant. -/
structure WellBound (m : MethodBody) : Prop where
  calls : m.CallsInScope
  receiver : ∀ v ∈ m.receiver, v.role = .receiver
  params : ∀ method ∈ m.method, ∀ v ∈ method.params.reduceOption, v.role = .parameter
  nodes : ∀ s ∈ m.numbered.sites, s.2.WellBound m.receiver

variable {m : MethodBody} {p : Path} {n : Node} {v : Variable}

theorem InRole.role_param (h : m.InRole) {f : NestedFunction} (hn : (p, n) ∈ m.numbered.sites)
    (hf : n.function? = some f) (hv : some v ∈ f.params) : v.role = .parameter := by
  have hn := h.nodes _ hn
  have hv := List.reduceOption_mem_iff.mpr hv
  obtain ⟨⟨fn, b⟩, hn', rfl⟩ := Option.bind_eq_some_iff.mp hf
  cases n with
  | expr e =>
    cases e with
    | lambda loc fn' b' =>
      obtain ⟨rfl, rfl⟩ := Prod.mk.inj (Option.some.inj hn')
      exact hn f rfl v hv
    | _ => exact nomatch hn'
  | stmt s =>
    cases s with
    | localFunction loc fn' b' =>
      obtain ⟨rfl, rfl⟩ := Prod.mk.inj (Option.some.inj hn')
      exact hn f rfl v hv
    | _ => exact nomatch hn'
  | block b => exact nomatch hn'

theorem InRole.role_declared (h : m.InRole) (hn : (p, n) ∈ m.numbered.sites)
    (hv : n.declared? = some v) : v.role = .declared := by
  have hn := h.nodes _ hn
  cases n with
  | stmt s =>
    cases s with
    | declare loc target init => exact hn v hv
    | _ => exact nomatch hv
  | _ => exact nomatch hv

theorem InRole.receiverUnique (h : m.InRole) : m.ReceiverUnique := by
  intro p v hv hrole
  have hne {r : VariableRole} (hr : v.role = r) (hr' : r ≠ .receiver) : m.receiver = some v := by
    simp only [Variable.isReceiver, decide_eq_true_eq] at hrole
    exact absurd (hr.symm.trans hrole) hr'
  cases hv with
  | receiver hr => exact hr
  | methodParam hm hv => exact hne (h.params _ hm v (List.reduceOption_mem_iff.mpr hv)) (by decide)
  | param hn hf hv => exact hne (h.role_param hn hf hv) (by decide)
  | statement hn hv => exact hne (h.role_declared hn hv) (by decide)

theorem WellBound.inRole (h : m.WellBound) : m.InRole :=
  ⟨h.receiver, h.params, fun s hs => (h.nodes s hs).inRole⟩

theorem WellBound.role_param (h : m.WellBound) {f : NestedFunction}
    (hn : (p, n) ∈ m.numbered.sites) (hf : n.function? = some f) (hv : some v ∈ f.params) :
    v.role = .parameter := h.inRole.role_param hn hf hv

theorem WellBound.role_declared (h : m.WellBound) (hn : (p, n) ∈ m.numbered.sites)
    (hv : n.declared? = some v) : v.role = .declared := h.inRole.role_declared hn hv

theorem WellBound.receiverUnique (h : m.WellBound) : m.ReceiverUnique := h.inRole.receiverUnique

variable (m)

/-! ## Deciding -/

instance : Decidable m.CallsInScope :=
  decidable_of_iff (∀ s ∈ m.numbered.sites, ∀ h ∈ s.2.use?.join, ∃ t ∈ m.numbered.sites,
      t.2.function? = some h ∧ ∃ b ∈ t.1.blocks.head?, b ∈ s.1.blocks) <| by
    constructor
    · intro h p n f hn hf
      obtain ⟨⟨q, k⟩, hk, hfk, b, hb, hmem⟩ := h (p, n) hn f (by rw [hf]; rfl)
      exact ⟨q, k, b, hk, hfk, hb, hmem⟩
    · rintro h ⟨p, n⟩ hn f hf
      obtain ⟨q, k, b, hk, hfk, hb, hmem⟩ := h p n f hn (Option.join_eq_some_iff.mp hf)
      exact ⟨(q, k), hk, hfk, b, hb, hmem⟩

/-- The variables that the body declares. -/
def declared : List Variable :=
  m.receiver.toList ++ (m.method.toList.flatMap fun method => method.params.reduceOption) ++
    m.numbered.sites.flatMap fun s =>
      (s.2.function?.toList.flatMap fun f => f.params.reduceOption) ++ s.2.declared?.toList

theorem mem_declared {m : MethodBody} {v : Variable} : v ∈ m.declared ↔ ∃ p, m.Declares p v := by
  simp only [declared, List.mem_append, List.mem_flatMap, Option.mem_toList,
    List.reduceOption_mem_iff]
  constructor
  · rintro ((h | ⟨method, hm, hv⟩) | ⟨⟨p, n⟩, hn, ⟨f, hf, hv⟩ | hv⟩)
    · exact ⟨_, .receiver h⟩
    · exact ⟨_, .methodParam hm hv⟩
    · exact ⟨_, .param hn hf hv⟩
    · exact ⟨_, .statement hn hv⟩
  · rintro ⟨p, h | ⟨hm, hv⟩ | ⟨hn, hf, hv⟩ | ⟨hn, hv⟩⟩
    · exact .inl (.inl h)
    · exact .inl (.inr ⟨_, hm, hv⟩)
    · exact .inr ⟨_, hn, .inl ⟨_, hf, hv⟩⟩
    · exact .inr ⟨_, hn, .inr hv⟩

instance : Decidable m.ReceiverUnique :=
  decidable_of_iff (∀ v ∈ m.declared, v.isReceiver = true → m.receiver = some v) <| by
    simp only [mem_declared, ReceiverUnique]
    exact ⟨fun h p v hv => h v ⟨p, hv⟩, fun h v ⟨p, hv⟩ => h p v hv⟩

instance (receiver : Option Variable) : DecidablePred (Node.WellBound receiver) := fun n => by
  unfold Node.WellBound
  split <;> infer_instance

instance (receiver : Option Variable) : DecidablePred (Node.InRole receiver) := fun n => by
  unfold Node.InRole
  split <;> infer_instance

instance : Decidable m.InRole :=
  decidable_of_iff ((∀ v ∈ m.receiver, v.role = .receiver) ∧
      (∀ method ∈ m.method, ∀ v ∈ method.params.reduceOption, v.role = .parameter) ∧
      ∀ s ∈ m.numbered.sites, s.2.InRole m.receiver)
    ⟨fun ⟨hr, hp, hn⟩ => ⟨hr, hp, hn⟩, fun ⟨hr, hp, hn⟩ => ⟨hr, hp, hn⟩⟩

instance : Decidable m.WellBound :=
  decidable_of_iff (m.CallsInScope ∧ (∀ v ∈ m.receiver, v.role = .receiver) ∧
      (∀ method ∈ m.method, ∀ v ∈ method.params.reduceOption, v.role = .parameter) ∧
      ∀ s ∈ m.numbered.sites, s.2.WellBound m.receiver)
    ⟨fun ⟨hc, hr, hp, hn⟩ => ⟨hc, hr, hp, hn⟩, fun ⟨hc, hr, hp, hn⟩ => ⟨hc, hr, hp, hn⟩⟩

end MethodBody

end Unnest

import Unnest.Proofs.Lowered.Blocks

/-!
# Values are not copied

An environment that is a value lives in the frame that creates it. Its local, and the parameters
through which it is handed on, are referred to in two ways only: to reach one of its fields, and to
hand it to a method that takes it by reference. So there is one instance of it, which all its
readers share.

## Main definitions

* `Node.uses` : the variables that a node refers to directly, and what it does with them.
* `Node.Spares` : no value is copied at a node.

## Main statements

* `MethodBody.run_spares` : no value is copied in a converted body, and none is stored in a field.
-/

namespace Unnest

/-! ## Uses of variables -/

/-- What is done with a variable where it is referred to. -/
inductive Use where
  /-- One of its fields is accessed. -/
  | field (f : Field)
  /-- It is an argument of a call, with so many others after it. -/
  | argument (method : Method) (after : Nat)
  | other
  deriving DecidableEq, Repr

/-- The variable that an expression refers to. -/
def Expr.target? : Expr → Option Variable
  | .ref _ v => v
  | _ => none

/-- The variables that a node refers to directly, and what it does with them. -/
def Node.uses : Node → List (Variable × Use)
  | .expr (.field _ receiver f) => receiver.target?.toList.map (·, .field f)
  | .expr (.call _ method receiver args) =>
    (receiver.bind Expr.target?).toList.map (·, .other) ++
      args.reverse.zipIdx.filterMap fun (a, i) => a.target?.map (·, .argument method i)
  | n => n.inner.filterMap fun
    | .expr e => e.target?.map (·, .other)
    | _ => none

/-- The variable holds an environment of type `t`, which is a value. -/
structure Variable.HoldsValue (v : Variable) (d : Declarations) (t : EnvType) : Prop where
  id : ∃ k, v.id = .holder k t.env
  type : d.typeOf? t.env = some t
  isValue : t.isValue = true

/-- What may be done with a value of type `t`: to access a field of it, and to hand it to a method
that takes it by reference. -/
inductive Declarations.Allows (d : Declarations) (t : EnvType) : Use → Prop where
  | field {f : Field} (hf : f ∈ t.fields) : Allows d t (.field f)
  | argument {c : ClosureId} {lm : LoweredMethod} {p : Variable} {after : Nat}
      (hm : d.methodOf? c = some lm) (hp : (t.env, p) ∈ lm.envParams)
      (ha : lm.symbol.params.reverse[after]? = some (some p)) :
      Allows d t (.argument lm.symbol after)

/-- No value is copied at the node itself. -/
def Node.Spares (d : Declarations) (n : Node) : Prop :=
  ∀ v u, (v, u) ∈ n.uses → ∀ t, v.HoldsValue d t → d.Allows t u

variable {d : Declarations} {n : Node} {e x : Expr} {t : EnvType} {v : Variable}

/-- The expression is no value. -/
def Expr.IsNoValue (d : Declarations) (e : Expr) : Prop :=
  ∀ v, e.target? = some v → ∀ t, ¬ v.HoldsValue d t

/-- What a node uses it refers to directly. -/
theorem Node.exists_of_mem_uses {u : Use} (h : (v, u) ∈ n.uses) :
    ∃ e, .expr e ∈ n.inner ∧ e.target? = some v := by
  rw [Node.uses.eq_def] at h
  split at h
  · rename_i loc receiver f
    obtain ⟨w, hw, heq⟩ := List.mem_map.mp h
    obtain rfl : w = v := congrArg Prod.fst heq
    exact ⟨receiver, List.mem_singleton.mpr rfl, Option.mem_toList.mp hw⟩
  · rename_i loc method receiver args
    rcases List.mem_append.mp h with h | h
    · obtain ⟨w, hw, heq⟩ := List.mem_map.mp h
      obtain rfl : w = v := congrArg Prod.fst heq
      obtain ⟨e, rfl, he⟩ := Option.bind_eq_some_iff.mp (Option.mem_toList.mp hw)
      exact ⟨e, by simp [inner, Expr.operands], he⟩
    · obtain ⟨⟨a, i⟩, ha, hw⟩ := List.mem_filterMap.mp h
      obtain ⟨w, htarget, heq⟩ := Option.map_eq_some_iff.mp hw
      obtain rfl : w = v := congrArg Prod.fst heq
      have ha := List.mem_reverse.mp (List.mem_of_getElem? (List.mem_zipIdx_iff_getElem?.mp ha))
      exact ⟨a, by simp [inner, Expr.operands, ha], htarget⟩
  · obtain ⟨k, hk, hw⟩ := List.mem_filterMap.mp h
    split at hw
    · obtain ⟨w, htarget, heq⟩ := Option.map_eq_some_iff.mp hw
      obtain rfl : w = v := congrArg Prod.fst heq
      exact ⟨_, hk, htarget⟩
    · exact nomatch hw

theorem Node.spares_of_inner (h : ∀ e, .expr e ∈ n.inner → e.IsNoValue d) : n.Spares d := by
  intro v u hu t ht
  obtain ⟨e, he, hv⟩ := exists_of_mem_uses hu
  exact absurd ht (h e he v hv t)

/-! ## Trees without copies -/

/-- No value is copied in the expression, which is no lambda, nor is it a value itself. -/
structure Expr.Sparing (d : Declarations) (e : Expr) : Prop where
  opened : (Node.expr e).opened? = none
  nodes : ∀ n ∈ e.nodes, n.Spares d
  isNoValue : e.IsNoValue d

/-- No value is copied in the statement. -/
def Stmt.Sparing (d : Declarations) (s : Stmt) : Prop := ∀ n ∈ s.nodes, n.Spares d

def Block.Sparing (d : Declarations) (b : Block) : Prop := ∀ n ∈ b.nodes, n.Spares d

namespace Expr

theorem mem_nodes (hnone : (Node.expr e).opened? = none) :
    n ∈ e.nodes ↔ n = .expr e ∨ ∃ x ∈ e.operands, n ∈ x.nodes := by
  rw [nodes_eq hnone, List.mem_cons, mem_nodesAll]

theorem isNoValue_of_target (h : e.target? = none) : e.IsNoValue d := by
  intro v hv
  exact nomatch h.symm.trans hv

theorem sparing_of_operands (hnone : (Node.expr e).opened? = none) (htarget : e.target? = none)
    (h : ∀ x ∈ e.operands, x.Sparing d) : e.Sparing d := by
  refine ⟨hnone, fun n hn => ?_, isNoValue_of_target htarget⟩
  rcases (mem_nodes hnone).mp hn with rfl | ⟨x, hx, hn⟩
  · refine Node.spares_of_inner fun x hx => ?_
    rw [Node.inner_expr hnone] at hx
    obtain ⟨y, hy, heq⟩ := List.mem_map.mp hx
    obtain rfl := Node.expr.inj heq
    exact (h y hy).isNoValue
  · exact (h x hx).nodes n hn

theorem sparing_ref {loc : Loc} {w : Variable} (h : ∀ t, ¬ w.HoldsValue d t) :
    (Expr.ref loc (some w)).Sparing d := by
  refine ⟨rfl, fun n hn => ?_, fun v hv => ?_⟩
  · obtain rfl : n = .expr (.ref loc (some w)) := by simpa [nodes] using hn
    exact Node.spares_of_inner (by simp [Node.inner, operands])
  · obtain rfl : w = v := Option.some.inj hv
    exact h

/-- A field of a value may be accessed. -/
theorem sparing_field {loc : Loc} {f : Field} (hn : ∀ n ∈ x.nodes, n.Spares d)
    (h : ∀ v, x.target? = some v → ∀ t, v.HoldsValue d t → f ∈ t.fields) :
    (Expr.field loc x f).Sparing d := by
  refine ⟨rfl, fun n hmem => ?_, isNoValue_of_target rfl⟩
  rcases (mem_nodes rfl).mp hmem with rfl | ⟨y, hy, hny⟩
  · intro v u hu t ht
    obtain ⟨w, hw, heq⟩ := List.mem_map.mp hu
    obtain ⟨rfl, rfl⟩ := Prod.mk.inj heq
    exact .field (h w (Option.mem_toList.mp hw) t ht)
  · obtain rfl := List.mem_singleton.mp hy
    exact hn n hny

/-- Values may be handed over after the other arguments. -/
theorem sparing_call {loc : Loc} {method : Method} {r : Option Expr} {args rest : List Expr}
    (hr : ∀ x ∈ r, x.Sparing d) (ha : ∀ x ∈ args, x.Sparing d)
    (hn : ∀ x ∈ rest, ∀ n ∈ x.nodes, n.Spares d)
    (h : ∀ i x, rest.reverse[i]? = some x → ∀ v, x.target? = some v → ∀ t, v.HoldsValue d t →
      d.Allows t (.argument method i)) :
    (Expr.call loc method r (args ++ rest)).Sparing d := by
  refine ⟨rfl, fun n hmem => ?_, isNoValue_of_target rfl⟩
  rcases (mem_nodes rfl).mp hmem with rfl | ⟨y, hy, hny⟩
  · intro v u hu t ht
    rcases List.mem_append.mp hu with hu | hu
    · obtain ⟨w, hw, heq⟩ := List.mem_map.mp hu
      obtain ⟨rfl, -⟩ := Prod.mk.inj heq
      obtain ⟨x, hx, hw⟩ := Option.bind_eq_some_iff.mp (Option.mem_toList.mp hw)
      exact absurd ht ((hr x hx).isNoValue w hw t)
    · obtain ⟨⟨x, i⟩, hx, hw⟩ := List.mem_filterMap.mp hu
      obtain ⟨w, htarget, heq⟩ := Option.map_eq_some_iff.mp hw
      obtain ⟨rfl, rfl⟩ := Prod.mk.inj heq
      have hx := List.mem_zipIdx_iff_getElem?.mp hx
      simp only [List.reverse_append, List.getElem?_append] at hx
      split at hx
      · exact h i x hx w htarget t ht
      · have hxa := List.mem_reverse.mp (List.mem_of_getElem? hx)
        exact absurd ht ((ha x hxa).isNoValue w htarget t)
  · rcases List.mem_append.mp hy with hy | hy
    · exact (hr y (Option.mem_toList.mp hy)).nodes n hny
    · rcases List.mem_append.mp hy with hy | hy
      · exact (ha y hy).nodes n hny
      · exact hn y hy n hny

theorem Sparing.withLoc (h : e.Sparing d) (loc : Loc) : (e.withLoc loc).Sparing d := by
  have hnone := h.opened
  have hnone' : (Node.expr (e.withLoc loc)).opened? = none := by cases e <;> exact hnone
  have hops : (e.withLoc loc).operands = e.operands := by cases e <;> rfl
  have huses : (Node.expr (e.withLoc loc)).uses = (Node.expr e).uses := by cases e <;> rfl
  have htarget : (e.withLoc loc).target? = e.target? := by cases e <;> rfl
  refine ⟨hnone', fun n hn => ?_, fun v hv => h.isNoValue v (htarget ▸ hv)⟩
  rcases (mem_nodes hnone').mp hn with rfl | ⟨x, hx, hnx⟩
  · intro v u hu
    exact h.nodes _ ((mem_nodes hnone).mpr (.inl rfl)) v u (huses ▸ hu)
  · exact h.nodes n ((mem_nodes hnone).mpr (.inr ⟨x, hops ▸ hx, hnx⟩))

end Expr

/-! ## Lowered trees -/

/-- What is written in the places that change copies no value. -/
def LoweringRules.sparing (d : Declarations) : LoweringRules where
  hoisted _ _ _ x := x.Sparing d
  receiver _ x := x.Sparing d
  delegate _ _ r := ∀ x ∈ r, x.Sparing d
  call _ lm r _ _ rest := (∀ x ∈ r, x.Sparing d) ∧ (∀ x ∈ rest, ∀ n ∈ x.nodes, n.Spares d) ∧
    ∀ i x, rest.reverse[i]? = some x → ∀ v, x.target? = some v → ∀ t, v.HoldsValue d t →
      d.Allows t (.argument lm.symbol i)
  create _ _ _ stmts := ∀ s ∈ stmts, s.Sparing d

/-- What stands for a variable of the body holds no value, if no variable of the body is made. -/
theorem Variable.StandsFor.not_holdsValue {m : MethodBody} {w : Variable} (h : w.StandsFor v)
    (hm : ∀ v ∈ m.declared, v.isMade = false) (hv : v ∈ m.declared) : ¬ w.HoldsValue d t := by
  rintro ⟨⟨k, hk⟩, -, -⟩
  have hmade := hm v hv
  rcases h with h | ⟨l, h⟩
  · rw [Variable.isMade, ← h, hk] at hmade
    exact nomatch hmade
  · exact nomatch h.symm.trans hk

section LowersBy

variable {m : MethodBody} {ctx : LoweringContext} {view : View}

mutual

theorem Expr.LowersBy.sparing {e e' : Expr} (h : Expr.LowersBy ctx (.sparing d) view e e')
    (hx : ctx.graph.Exact m) (hm : ∀ v ∈ m.declared, v.isMade = false) (he : m.Has (.expr e)) :
    e'.Sparing d := by
  cases h with
  | literal | newEnv | zero => exact sparing_of_operands rfl rfl (by simp [operands])
  | plain _ hw => exact sparing_ref fun t => hw.not_holdsValue hm (hx.mem_declared he)
  | hoisted _ h | self h => exact Sparing.withLoc h _
  | assign ht hv | binary ht hv =>
    refine sparing_of_operands rfl rfl fun y hy => ?_
    obtain rfl | rfl : y = _ ∨ y = _ := by simpa [operands] using hy
    · exact ht.sparing hx hm (he.operand rfl (by simp [operands]))
    · exact hv.sparing hx hm (he.operand rfl (by simp [operands]))
  | lambda _ _ hr | functionRef _ _ hr =>
    exact sparing_of_operands rfl rfl fun y hy => hr y (Option.mem_toList.mp hy)
  | localCall _ _ ha hr =>
    exact sparing_call hr.1 (ha.sparing hx hm fun x hx => he.operand rfl hx) hr.2.1 hr.2.2
  | call hr ha =>
    exact sparing_of_operands rfl rfl (List.forall_mem_append.mpr
      ⟨hr.sparing hx hm fun x hx => he.operand rfl (List.mem_append_left _ hx),
        ha.sparing hx hm fun x hx => he.operand rfl (List.mem_append_right _ hx)⟩)
  | invoke hc ha =>
    exact sparing_of_operands rfl rfl (List.forall_mem_cons.mpr
      ⟨hc.sparing hx hm (he.operand rfl List.mem_cons_self),
        ha.sparing hx hm fun x hx => he.operand rfl (List.mem_cons_of_mem _ hx)⟩)
  | field hr =>
    exact sparing_of_operands rfl rfl (List.forall_mem_singleton.mpr
      (hr.sparing hx hm (he.operand rfl List.mem_cons_self)))
  | delegate hr =>
    exact sparing_of_operands rfl rfl (hr.sparing hx hm fun x hx => he.operand rfl hx)

theorem Expr.OptLowersBy.sparing {e e' : Option Expr}
    (h : Expr.OptLowersBy ctx (.sparing d) view e e') (hx : ctx.graph.Exact m)
    (hm : ∀ v ∈ m.declared, v.isMade = false) (he : ∀ x ∈ e.toList, m.Has (.expr x)) :
    ∀ x ∈ e'.toList, x.Sparing d := by
  cases h with
  | none => simp
  | some h => exact List.forall_mem_singleton.mpr (h.sparing hx hm (he _ List.mem_cons_self))

theorem Expr.AllLowerBy.sparing {es es' : List Expr}
    (h : Expr.AllLowerBy ctx (.sparing d) view es es') (hx : ctx.graph.Exact m)
    (hm : ∀ v ∈ m.declared, v.isMade = false) (he : ∀ x ∈ es, m.Has (.expr x)) :
    ∀ x ∈ es', x.Sparing d := by
  cases h with
  | nil => simp
  | cons h hs =>
    exact List.forall_mem_cons.mpr ⟨h.sparing hx hm (he _ List.mem_cons_self),
      hs.sparing hx hm fun x hx => he x (List.mem_cons_of_mem _ hx)⟩

end

theorem Stmt.sparing_expr (h : x.Sparing d) (loc : Loc) : (Stmt.expr loc x).Sparing d :=
  List.forall_mem_cons.mpr
    ⟨Node.spares_of_inner (by simpa [Node.inner] using h.isNoValue), h.nodes⟩

theorem Stmt.sparing_declare (h : x.Sparing d) (loc : Loc) (w : Option Variable) :
    (Stmt.declare loc w (some x)).Sparing d :=
  List.forall_mem_cons.mpr
    ⟨Node.spares_of_inner (by simpa [Node.inner] using h.isNoValue), h.nodes⟩

/-- Lowered statements and blocks copy no value. -/
theorem LoweringContext.spreads_sparing (hx : ctx.graph.Exact m)
    (hm : ∀ v ∈ m.declared, v.isMade = false) (ns : List Node) :
    ctx.Spreads m (.sparing d) ns (fun _ => True) (Expr.Sparing d) (Node.Spares d) where
  expr _ he hl := hl.sparing hx hm he
  assign ht hi := Expr.sparing_of_operands rfl rfl
    (List.forall_mem_cons.mpr ⟨ht, List.forall_mem_singleton.mpr hi⟩)
  create _ _ hc _ := by
    refine ⟨trivial, fun n hn => ?_⟩
    obtain ⟨s, hs, hn⟩ := Stmt.mem_nodesAll.mp hn
    exact hc s hs n hn
  nodes h := h.nodes
  stmt h := Node.spares_of_inner fun x hx => (h x hx).isNoValue
  block b := Node.spares_of_inner (by simp [Node.inner])

end LowersBy

/-! ## Ways -/

/-- No value is copied in the expression, which is a variable only if it is the holder of the
environment that it stands for. -/
structure Expr.Reaches (d : Declarations) (rf : Referent) (x : Expr) : Prop where
  opened : (Node.expr x).opened? = none
  nodes : ∀ n ∈ x.nodes, n.Spares d
  target : ∀ v, x.target? = some v → ∃ e, rf = .env e ∧ ∃ k, v.id = .holder k e

section Reaches

variable {e : EnvId} {rf : Referent}

theorem Variable.HoldsValue.env_eq (h : v.HoldsValue d t) (hv : ∃ k, v.id = .holder k e) :
    t.env = e := by
  obtain ⟨k, hk⟩ := h.id
  obtain ⟨l, hl⟩ := hv
  exact (VariableId.holder.inj (hk.symm.trans hl)).2

theorem Expr.Sparing.reaches (h : x.Sparing d) (htarget : x.target? = none) : x.Reaches d rf :=
  ⟨h.opened, h.nodes, fun _ hv => nomatch htarget.symm.trans hv⟩

theorem Expr.reaches_ref {loc : Loc} {w : Variable} (hw : ∃ k, w.id = .holder k e) :
    (Expr.ref loc (some w)).Reaches d (.env e) := by
  refine ⟨rfl, fun n hn => ?_, fun v hv => ⟨e, rfl, Option.some.inj hv ▸ hw⟩⟩
  obtain rfl : n = .expr (.ref loc (some w)) := by simpa [nodes] using hn
  exact Node.spares_of_inner (by simp [Node.inner, operands])

theorem Expr.Reaches.env_eq (h : x.Reaches d (.env e)) (hv : x.target? = some v)
    (ht : v.HoldsValue d t) : t.env = e := by
  obtain ⟨e', he, hid⟩ := h.target v hv
  rw [Referent.env.inj he]
  exact ht.env_eq hid

/-- What is reached may be read from. -/
theorem Expr.Reaches.field {loc : Loc} {f : Field} (h : x.Reaches d (.env e))
    (ht : d.typeOf? e = some t) (hf : f ∈ t.fields) : (Expr.field loc x f).Sparing d := by
  refine sparing_field h.nodes fun v hv u hu => ?_
  obtain rfl : u = t := Option.some.inj ((h.env_eq hv hu ▸ hu.type).symm.trans ht)
  exact hf

/-- What lives on the heap is no value. -/
theorem Expr.Reaches.sparing (h : x.Reaches d (.env e))
    (hk : ∀ t, d.typeOf? e = some t → t.isValue = false) : x.Sparing d := by
  refine ⟨h.opened, h.nodes, fun v hv t ht => ?_⟩
  have hvalue := hk t (h.env_eq hv ht ▸ ht.type)
  exact nomatch hvalue.symm.trans ht.isValue

theorem Expr.Reaches.sparing_receiver (h : x.Reaches d .receiver) : x.Sparing d := by
  refine ⟨h.opened, h.nodes, fun v hv => ?_⟩
  obtain ⟨e, he, -⟩ := h.target v hv
  cases he

end Reaches

/-- Only what the environment has room for is stored in it. -/
theorem LoweringContext.store_sparing {holder : Variable} {e : EnvId} {f : Field}
    (hid : ∃ k, holder.id = .holder k e)
    (ht : d.typeOf? e = some t) (hf : f ∈ t.fields) (hx : x.Sparing d) :
    (LoweringContext.store holder f x).Sparing d := by
  refine Stmt.sparing_expr (Expr.sparing_of_operands rfl rfl ?_) _
  exact List.forall_mem_cons.mpr
    ⟨(Expr.reaches_ref hid).field ht hf, List.forall_mem_singleton.mpr hx⟩

namespace LoweredBody.Written

variable {m : MethodBody} {ctx : LoweringContext} {view : View} {r : LoweredBody} {e : EnvId}
  {rf : Referent} (h : r.Written ctx m)

include h

theorem typedAs (ht : r.declarations.typeOf? e = some t) :
    t.env = e ∧ ctx.graph.TypedAs ctx.method t :=
  (h.suits.declared.typed.of_typeOf ((h.typeOf_eq e).symm.trans ht)).2

theorem isValue_eq_false (hk : (ctx.graph.env e).isLiveReference = true)
    (ht : r.declarations.typeOf? e = some t) : t.isValue = false := by
  obtain ⟨rfl, htyped⟩ := h.typedAs ht
  have hvalue := Graph.isValue_of_isLiveReference hk
  rw [Environment.isValue, ← htyped.kind] at hvalue
  exact hvalue

/-- What denotes an environment or the receiver reaches it. -/
theorem reaches (hview : view.Held) (hx : x.Denotes ctx.graph r.declarations view rf) :
    x.Reaches r.declarations rf := by
  induction hx with
  | created hv => exact Expr.reaches_ref (hview.locals _ hv)
  | param hv => exact Expr.reaches_ref (hview.params _ hv)
  | host | self =>
    exact (Expr.sparing_of_operands rfl rfl (by simp [Expr.operands])).reaches rfl
  | parent _ ht hl ih => exact (ih.field ht ((h.typedAs ht).2.link_mem _ hl)).reaches rfl
  | held _ ht _ _ hf ih => exact (ih.field ht ((h.typedAs ht).2.mem_fields hf)).reaches rfl

/-- Methods are called on what lives on the heap. -/
theorem receivedBy_sparing (hview : view.Held) {lm : LoweredMethod} {receiver : Option Expr}
    (hr : lm.ReceivedBy ctx.graph r.declarations view receiver) :
    ∀ x ∈ receiver, x.Sparing r.declarations := by
  rintro x rfl
  cases hhost : (ctx.graph.closure lm.closure).host with
  | none => exact (h.reaches hview (hr.receiver hhost x rfl)).sparing_receiver
  | some e =>
    obtain ⟨y, hy, hdenotes⟩ := hr.host e hhost
    obtain rfl := Option.some.inj hy
    exact (h.reaches hview hdenotes).sparing fun t ht =>
      h.isValue_eq_false (h.suits.seated.host lm.closure e hhost).1 ht

/-- Values are handed over to the parameters that take them. -/
theorem envArgs_allowed (hview : view.Held) {c : ClosureId} {lm : LoweredMethod}
    {es : List Expr} (hlm : r.declarations.methodOf? c = some lm)
    (hes : List.Forall₂ (fun p x => x.Denotes ctx.graph r.declarations view (.env p.1))
      lm.envParams es) :
    (∀ x ∈ es, ∀ n ∈ x.nodes, n.Spares r.declarations) ∧
      ∀ i x, es.reverse[i]? = some x → ∀ v, x.target? = some v → ∀ t,
        v.HoldsValue r.declarations t → r.declarations.Allows t (.argument lm.symbol i) := by
  refine ⟨fun x hx => ?_, fun i x hx v hv t ht => ?_⟩
  · obtain ⟨q, -, hq⟩ := (exists_mem_of_forall₂ hes).2 x hx
    exact (h.reaches hview hq).nodes
  · obtain ⟨hi, rfl⟩ := List.getElem?_eq_some_iff.mp hx
    have hrev := List.forall₂_reverse_iff.mpr hes
    have hi' : i < lm.envParams.reverse.length := hrev.length_eq ▸ hi
    have henv := (h.reaches hview (hrev.get hi' hi)).env_eq hv ht
    obtain ⟨own, -, hparams⟩ := (h.takes_of_methodOf hlm).2.params
    refine .argument hlm (p := (lm.envParams.reverse.get ⟨i, hi'⟩).2) ?_ ?_
    · rw [henv]
      exact List.mem_reverse.mp (List.get_mem _ _)
    · rw [hparams, List.reverse_append, ← List.map_reverse,
        List.getElem?_append_left (by simpa using hi'), List.getElem?_map,
        List.getElem?_eq_getElem hi']
      rfl

theorem founds_sparing (hmade : ∀ v ∈ m.declared, v.isMade = false) (hview : view.Held)
    {holder : Variable} {parent stores : List Stmt} (hid : ∃ k, holder.id = .holder k e)
    (ht : r.declarations.typeOf? e = some t)
    (hf : ctx.graph.Founds r.declarations view e t holder parent stores) :
    ∀ s ∈ parent ++ stores, s.Sparing r.declarations := by
  obtain ⟨-, htyped⟩ := h.typedAs ht
  intro s hs
  rcases List.mem_append.mp hs with hs | hs
  · cases hl : t.link with
    | none =>
      rw [hf.unlinked hl] at hs
      cases hs
    | some link =>
      obtain ⟨x, rfl, hx⟩ := hf.linked link hl
      obtain rfl := List.mem_singleton.mp hs
      refine LoweringContext.store_sparing hid ht (htyped.link_mem link hl) ?_
      have hx := h.reaches hview hx
      rw [Graph.parentReferent] at hx
      split at hx
      · rename_i p hp
        exact hx.sparing fun t ht =>
          h.isValue_eq_false (h.suits.seated.surroundingEnv_spec hp).1 ht
      · exact hx.sparing_receiver
  · obtain ⟨v, hv, f, x, hfield, rfl, hx⟩ := (exists_mem_of_forall₂ hf.stores).2 s hs
    refine LoweringContext.store_sparing hid ht (htyped.mem_fields hfield) ?_
    cases hx with
    | receiver _ hx => exact (h.reaches hview hx).sparing_receiver
    | parameter _ hw =>
      obtain ⟨q, hq, -⟩ :=
        h.suits.seated.exact.holds.declares_of_mem_vars (List.mem_of_mem_filter hv)
      exact Expr.sparing_ref fun t => hw.not_holdsValue hmade (MethodBody.mem_declared.mpr ⟨q, hq⟩)

theorem keeps_sparing (hmade : ∀ v ∈ m.declared, v.isMade = false) :
    ctx.Keeps m r.declarations (.sparing r.declarations) where
  methods := h.methodOf_eq
  hoisted hview he hx := by
    obtain ⟨t, f, y, ht, hf, rfl, hy⟩ := h.keeps_creating.hoisted hview he hx
    exact (h.reaches hview hy).field ht ((h.typedAs ht).2.mem_fields hf)
  receiver hview hx := (h.reaches hview (h.keeps_creating.receiver hview hx)).sparing_receiver
  lambda hview _ _ hlm hr := h.receivedBy_sparing hview (h.receivedBy hlm hr)
  functionRef hview _ _ hlm hr := h.receivedBy_sparing hview (h.receivedBy hlm hr)
  call hview hlm hr hes hlen := by
    obtain ⟨hreceived, hrest⟩ := h.keeps_creating.call hview hlm hr hes hlen
    exact ⟨h.receivedBy_sparing hview hreceived, h.envArgs_allowed hview hlm hrest⟩
  create {site s e t holder created site' names} hview hm hs ht hid hcreate := by
    obtain ⟨u, parent, stores, hu, rfl, hfounds⟩ :=
      h.keeps_creating.create hview hm hs ht hid hcreate
    refine List.forall_mem_cons.mpr
      ⟨Stmt.sparing_declare ?_ _ _, h.founds_sparing hmade hview hid hu hfounds⟩
    rw [Graph.newborn]
    split <;> exact Expr.sparing_of_operands rfl rfl (by simp [Expr.operands])

end LoweredBody.Written

/-- No field has the type of a value, if none is refused. -/
theorem Declarations.base_ne_of_storedValueEnv (h : d.storedValueEnv? = none) {f : Field}
    {u : EnvType} (ht : t ∈ d.types) (hf : f ∈ t.fields) (hu : u ∈ d.types)
    (hk : u.isValue = true) : TypeName.base f.type ≠ u.name := by
  intro heq
  have hnone := List.findSome?_eq_none_iff.mp (List.findSome?_eq_none_iff.mp h t ht) f hf
  rw [if_pos] at hnone
  · exact nomatch hnone
  · exact List.mem_map.mpr ⟨u, List.mem_filter.mpr ⟨hu, hk⟩, heq.symm⟩

/-- Whatever body is converted, no value is copied and none is stored: values are used only to reach
their fields and to be handed to the methods that take them by reference, no field has the type of a
value, and only closures that may take references have methods that do. -/
theorem MethodBody.run_spares {m : MethodBody} {o : ConversionSettings} {r : LoweredBody}
    (hmade : ∀ v ∈ m.declared, v.isMade = false) (h : (Conversion.run o m).outcome = .ok r) :
    (∀ b ∈ r.body.block, b.Sparing r.declarations) ∧
    (∀ lm ∈ r.declarations.methods, ∀ b ∈ lm.body, b.Sparing r.declarations) ∧
    (∀ t ∈ r.declarations.types, ∀ f ∈ t.fields, ∀ u ∈ r.declarations.types, u.isValue = true →
      TypeName.base f.type ≠ u.name) ∧
    ∀ c lm, r.declarations.methodOf? c = some lm →
      (lm.envParams ≠ [] → ((Conversion.run o m).graph.closure c).takesReferences = true) ∧
      ∀ p ∈ lm.envParams, p.2.byRef = true ∧ ∃ k, p.2.id = .holder k p.1 := by
  obtain ⟨ctx, hgraph, hwritten, hstored⟩ := LoweredBody.written_of_run h
  rw [← hgraph]
  have hlowers := hwritten.lowersBy (hwritten.keeps_sparing hmade)
  have hx : LoweringContext.graph { ctx with declarations := r.declarations } |>.Exact m :=
    hwritten.suits.seated.exact
  refine ⟨fun b hb => ?_, fun lm hlm b hb => ?_, ?_, fun c lm hlm => ?_⟩
  · obtain ⟨block, block', hblock, hbody, hl⟩ := hlowers.body
    rw [hbody] at hb
    obtain rfl := Option.some.inj hb
    refine hl.spreads (LoweringContext.spreads_sparing hx hmade _) trivial
      (fun s hs => ⟨.outermost, MethodBody.mem_sites_of_topNodes ?_⟩) (List.Subset.refl _)
    simp only [MethodBody.topNodes, hblock]
    exact List.mem_map_of_mem hs
  · obtain ⟨p, n, f, b₀, b', hn, hnested, -, hbody, hl⟩ := hlowers.methods lm hlm
    obtain rfl : b' = b := Option.some.inj (hbody.symm.trans hb)
    have hin := Node.inner_of_opened (Node.opened_of_nested hnested)
    exact hl.spreads (LoweringContext.spreads_sparing hx hmade _) trivial
      (fun s hs => MethodBody.Has.inner ⟨p, hn⟩ (hin ▸ List.mem_map_of_mem hs))
      (List.Subset.refl _)
  · rw [hwritten.types]
    intro t ht f hf u hu hk
    exact Declarations.base_ne_of_storedValueEnv hstored ht hf hu hk
  · obtain ⟨-, lm₀, b, hd, rfl⟩ := hwritten.declaredAs hlm
    exact ⟨hd.takesReferences, hd.holder⟩

open Tally in
/-- The sum of `Total` is in a value, which the local function takes by reference. -/
theorem MethodBody.spares_total : (∀ v ∈ total.declared, v.isMade = false) ∧
    ∃ r, (Conversion.run {} total).outcome = .ok r ∧
      (∃ t ∈ r.declarations.types, t.isValue = true) ∧
      (∀ b ∈ r.body.block, b.Sparing r.declarations) ∧
      (∀ lm ∈ r.declarations.methods, ∀ b ∈ lm.body, b.Sparing r.declarations) ∧
      (∀ t ∈ r.declarations.types, ∀ f ∈ t.fields, ∀ u ∈ r.declarations.types, u.isValue = true →
        TypeName.base f.type ≠ u.name) ∧
      ∀ c lm, r.declarations.methodOf? c = some lm →
        (lm.envParams ≠ [] → ((Conversion.run {} total).graph.closure c).takesReferences = true) ∧
        ∀ p ∈ lm.envParams, p.2.byRef = true ∧ ∃ k, p.2.id = .holder k p.1 := by
  have hmade : ∀ v ∈ total.declared, v.isMade = false := by decide +kernel
  have hvalue : (Conversion.run {} total).outcome.toOption.map (fun r =>
      decide (∃ t ∈ r.declarations.types, t.isValue = true)) = some true := by decide +kernel
  obtain ⟨r, hr⟩ := run_total
  rw [hr] at hvalue
  exact ⟨hmade, r, hr, of_decide_eq_true (Option.some.inj hvalue), run_spares hmade hr⟩

end Unnest

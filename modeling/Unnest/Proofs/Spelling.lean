import Mathlib.Data.List.Forall2
import Unnest.Proofs.Declarations.Identifiers
import Unnest.Proofs.Lowered.Referents

/-!
# Types in lowered methods

A method on an environment type sees only the renamed type parameters. So every type in it that
comes from the source is respelled, in the signature as well as in the body, and every other type in
it is that of an environment. If renamed type parameters cannot be mistaken for others, none of the
type parameters occurs in such a method. A method of the enclosing type has the type parameters of
the method it is cut out of, and the types of the source are left as they are.

## Main definitions

* `Method.Spells` : where a node of a lowered method has its type from.
* `LoweredMethod.Spelled` : all types of a lowered method, in the signature and in the body.
* `LoweredMethod.types` : these types in a list.

## Main statements

* `Block.LowersTo.covers` : lowering spells every type for the frame.
* `MethodBody.run_spells` : whatever is converted, types are spelled for the type that has the
  method.
-/

namespace Unnest

/-! ## Types of nodes -/

/-- The type is that of environment `e`, as it is spelled in a method. -/
def Method.SpellsEnv (method : Method) (types : List EnvType) (hosted : Bool) (e : EnvId)
    (type : String) : Prop :=
  ∃ t ∈ types, t.env = e ∧ type = t.reference (method.typeArgs hosted)

/-- The type is that of the receiver of a method on `host`. -/
def Method.SpellsReceiver (method : Method) (types : List EnvType) :
    Option EnvId → String → Prop
  | some e, type => method.SpellsEnv types true e type
  | none, type => type = method.owner

/-- Where a node of a method on `host` has its type from. It is the type of the same node among
`ns`, the nodes of the source, or of a local that it stands for; the type of an environment; or that
of the receiver. -/
def Method.Spells (method : Method) (types : List EnvType) (host : Option EnvId) (ns : List Node) :
    Node → Prop
  | .expr (.literal loc value type) =>
    ∃ τ, .expr (.literal loc value τ) ∈ ns ∧ type = method.spell host.isSome τ
  | .expr (.self _ type) => method.SpellsReceiver types host type
  | .expr (.newEnv loc type) => (∃ e, method.SpellsEnv types host.isSome e type) ∨
    ∃ τ, .expr (.newEnv loc τ) ∈ ns ∧ type = method.spell host.isSome τ
  | .expr (.zero loc type) => (∃ e, method.SpellsEnv types host.isSome e type) ∨
    ∃ τ, .expr (.zero loc τ) ∈ ns ∧ type = method.spell host.isSome τ
  | .stmt (.declare loc (some w) _) =>
    (∃ k e, w.id = .holder k e ∧ method.SpellsEnv types host.isSome e w.type) ∨
    ∃ v init, .stmt (.declare loc (some v) init) ∈ ns ∧ w.StandsFor v ∧
      w.type = method.spell host.isSome v.type
  | _ => True

/-- The types of all nodes of `ns'` come from `ns`, or are those of environments. -/
def Method.Covers (method : Method) (types : List EnvType) (host : Option EnvId)
    (ns ns' : List Node) : Prop :=
  ∀ n ∈ ns', method.Spells types host ns n

section Covers

variable {method : Method} {types : List EnvType} {host : Option EnvId} {n n' : Node}
  {ns ns' ms ms' : List Node}

theorem Method.Spells.mono (h : method.Spells types host ns n) (hsub : ns ⊆ ms) :
    method.Spells types host ms n := by
  rw [Spells.eq_def] at h ⊢
  split at h <;> grind

namespace Method.Covers

theorem nil : method.Covers types host ns [] := fun _ => (nomatch ·)

theorem mono (h : method.Covers types host ns ns') (hsub : ns ⊆ ms) :
    method.Covers types host ms ns' :=
  fun n hn => (h n hn).mono hsub

theorem cons (hn : method.Spells types host (n :: ns) n') (h : method.Covers types host ns ns') :
    method.Covers types host (n :: ns) (n' :: ns') :=
  List.forall_mem_cons.mpr ⟨hn, h.mono (List.subset_cons_self n ns)⟩

theorem append (h : method.Covers types host ns ns') (h' : method.Covers types host ms ms') :
    method.Covers types host (ns ++ ms) (ns' ++ ms') :=
  List.forall_mem_append.mpr
    ⟨h.mono (List.subset_append_left ns ms), h'.mono (List.subset_append_right ns ms)⟩

end Method.Covers

end Covers

/-! ## Ways -/

/-- The expression reads fields from a variable or from the receiver, of whose type `P` holds. -/
inductive Expr.Way (P : String → Prop) : Expr → Prop where
  | ref {loc v} : Way P (.ref loc v)
  | self {loc type} (h : P type) : Way P (.self loc type)
  | field {loc x f} (hx : Way P x) : Way P (.field loc x f)

theorem Expr.Way.withLoc {P : String → Prop} {x : Expr} (h : x.Way P) (loc : Loc) :
    (x.withLoc loc).Way P := by
  cases h with
  | ref => exact .ref
  | self h => exact .self h
  | field hx => exact .field hx

/-- The only type on a way is that of the receiver. -/
theorem Expr.Way.covers {method : Method} {types : List EnvType} {host : Option EnvId} {x : Expr}
    (h : x.Way (method.SpellsReceiver types host)) (ns : List Node) :
    method.Covers types host ns x.nodes := by
  induction h with
  | ref => exact List.forall_mem_singleton.mpr trivial
  | self h => exact List.forall_mem_singleton.mpr h
  | field _ ih => exact List.forall_mem_cons.mpr ⟨trivial, ih⟩

theorem Expr.covers_nodesAll {method : Method} {types : List EnvType} {host : Option EnvId}
    {es : List Expr} (h : ∀ x ∈ es, x.Way (method.SpellsReceiver types host)) (ns : List Node) :
    method.Covers types host ns (nodesAll es) := by
  induction es with
  | nil => exact .nil
  | cons e es ih =>
    exact List.forall_mem_append.mpr ⟨(h e List.mem_cons_self).covers ns,
      ih fun x hx => h x (List.mem_cons_of_mem e hx)⟩

/-- The frame is that of a method on `host`. -/
structure LoweringContext.FrameOf (ctx : LoweringContext) (host : Option EnvId) (frame : Frame) :
    Prop where
  closure : frame.closure ≠ none
  spell : ctx.spell frame = ctx.method.spell host.isSome
  typeArgs : ctx.typeArgs frame = ctx.method.typeArgs host.isSome
  self : ∀ t, frame.host = some t →
    ctx.method.SpellsReceiver ctx.declarations.types host (t.reference t.typeParams)
  enclosing : frame.host = none → host = none

namespace LoweringContext

variable {ctx : LoweringContext} {site : Site} {host : Option EnvId} {e : EnvId} {x : Expr}

theorem FrameOf.locate (h : ctx.FrameOf host site.frame) (loc : Loc) :
    ctx.FrameOf host (site.locate loc).frame := by
  have hframe : (site.locate loc).frame = site.frame :=
    congrArg View.frame (site.view_locate loc)
  rwa [hframe]

namespace FrameOf

variable (h : ctx.FrameOf host site.frame)

include h

theorem envRef_way (hx : ctx.envRef site e = .ok x) :
    x.Way (ctx.method.SpellsReceiver ctx.declarations.types host) := by
  rw [envRef] at hx
  split at hx
  · obtain rfl := Except.ok.inj hx
    exact .ref
  · split at hx
    · split at hx
      · obtain rfl := Except.ok.inj hx
        exact .ref
      · cases hx
    · split at hx
      · rename_i t ht
        exact linkPath_induction (P := fun _ y => y.Way _) (fun hy _ _ => .field hy)
          (.self (h.self t ht)) hx
      · cases hx

theorem receiverRef_way (hx : ctx.receiverRef site = .ok x) :
    x.Way (ctx.method.SpellsReceiver ctx.declarations.types host) := by
  rw [receiverRef] at hx
  split at hx
  · cases hx
  · dsimp only at hx
    split at hx
    · rename_i hcond
      simp only [Bool.or_eq_true, Bool.and_eq_true, Option.isNone_iff_eq_none] at hcond
      have hnone := (hcond.resolve_left h.closure).1
      obtain rfl := Except.ok.inj hx
      rw [h.enclosing hnone]
      exact .self rfl
    · split at hx
      · split at hx
        · cases hx
        · split at hx
          · obtain ⟨y, hy, rfl⟩ := exists_of_map_ok hx
            exact .field (h.envRef_way hy)
          · cases hx
      · rename_i t _ ht
        exact receiverPath_induction (P := fun _ y => y.Way _) (Q := fun y => y.Way _)
          (fun hy _ _ => .field hy) (fun hy _ _ => .field hy) (.self (h.self t ht)) hx
      · cases hx

theorem variableRef_way {aliases : List (Variable × Variable)} {v : Variable}
    (hx : ctx.variableRef site aliases v = .ok x) :
    x.Way (ctx.method.SpellsReceiver ctx.declarations.types host) := by
  rw [variableRef] at hx
  split at hx
  · obtain rfl := Except.ok.inj hx
    exact .ref
  · split at hx
    · obtain ⟨y, hy, rfl⟩ := exists_of_map_ok hx
      exact .field (h.envRef_way hy)
    · cases hx

theorem callReceiver_way {lm : LoweredMethod} {r : Option Expr}
    (hr : ctx.callReceiver site lm = .ok r) :
    ∀ x ∈ r.toList, x.Way (ctx.method.SpellsReceiver ctx.declarations.types host) := by
  rw [callReceiver] at hr
  split at hr
  · obtain ⟨y, hy, rfl⟩ := exists_of_map_ok hr
    exact List.forall_mem_singleton.mpr (h.envRef_way hy)
  · split at hr
    · obtain rfl := Except.ok.inj hr
      exact fun _ hx => absurd hx List.not_mem_nil
    · obtain ⟨y, hy, rfl⟩ := exists_of_map_ok hr
      exact List.forall_mem_singleton.mpr (h.receiverRef_way hy)

end FrameOf

end LoweringContext

/-! ## Lowered trees -/

section LowersTo

variable {ctx : LoweringContext} {host : Option EnvId}

mutual

theorem Expr.LowersTo.covers {site : Site} {aliases : List (Variable × Variable)} {e e' : Expr}
    (hf : ctx.FrameOf host site.frame) (h : e.LowersTo ctx site aliases e') :
    ctx.method.Covers ctx.declarations.types host e.nodes e'.nodes := by
  cases h with
  | literal => exact .cons ⟨_, List.mem_cons_self, by rw [hf.spell]⟩ .nil
  | newEnv | zero => exact .cons (.inr ⟨_, List.mem_cons_self, by rw [hf.spell]⟩) .nil
  | ref hx => exact (((hf.locate _).variableRef_way hx).withLoc _).covers _
  | self hx => exact (((hf.locate _).receiverRef_way hx).withLoc _).covers _
  | assign ht hv | binary ht hv =>
    rw [nodes_eq rfl, nodes_eq rfl]
    exact .cons trivial ((ht.covers (hf.locate _)).append ((hv.covers (hf.locate _)).append .nil))
  | lambda _ _ hr | functionRef _ _ hr =>
    rw [nodes_eq (e := .delegate ..) rfl]
    exact List.forall_mem_cons.mpr
      ⟨trivial, covers_nodesAll ((hf.locate _).callReceiver_way hr) _⟩
  | localCall _ _ hr ha he =>
    rw [nodes_eq rfl, nodes_eq rfl]
    refine .cons trivial ?_
    rw [operands, operands, nodesAll_append, nodesAll_append]
    refine List.forall_mem_append.mpr ⟨covers_nodesAll ((hf.locate _).callReceiver_way hr) _,
      List.forall_mem_append.mpr ⟨ha.covers (hf.locate _), covers_nodesAll (fun x hx => ?_) _⟩⟩
    obtain ⟨p, -, hx⟩ := (exists_mem_of_forall₂ (forall₂_of_mapM_ok he)).2 x hx
    exact (hf.locate _).envRef_way hx
  | call hr ha =>
    rw [nodes_eq rfl, nodes_eq rfl]
    refine .cons trivial ?_
    rw [operands, operands, nodesAll_append, nodesAll_append]
    exact (hr.covers (hf.locate _)).append (ha.covers (hf.locate _))
  | invoke hc ha =>
    rw [nodes_eq rfl, nodes_eq rfl]
    exact .cons trivial ((hc.covers (hf.locate _)).append (ha.covers (hf.locate _)))
  | field hr =>
    rw [nodes_eq rfl, nodes_eq rfl]
    exact .cons trivial ((hr.covers (hf.locate _)).append .nil)
  | delegate hr =>
    rw [nodes_eq rfl, nodes_eq rfl]
    exact .cons trivial (hr.covers (hf.locate _))
termination_by sizeOf e

theorem Expr.OptLowersTo.covers {site : Site} {aliases : List (Variable × Variable)}
    {e e' : Option Expr} (hf : ctx.FrameOf host site.frame)
    (h : OptLowersTo ctx site aliases e e') :
    ctx.method.Covers ctx.declarations.types host (nodesAll e.toList) (nodesAll e'.toList) := by
  cases h with
  | none => exact .nil
  | some hx => exact (hx.covers hf).append .nil
termination_by sizeOf e

theorem Expr.AllLowerTo.covers {site : Site} {aliases : List (Variable × Variable)}
    {es es' : List Expr} (hf : ctx.FrameOf host site.frame)
    (h : AllLowerTo ctx site aliases es es') :
    ctx.method.Covers ctx.declarations.types host (nodesAll es) (nodesAll es') := by
  cases h with
  | nil => exact .nil
  | cons hx hs => exact (hx.covers hf).append (hs.covers hf)
termination_by sizeOf es

end

theorem Stmt.covers_nodesAll {method : Method} {types : List EnvType} {ns : List Node}
    {ss : List Stmt} (h : ∀ s ∈ ss, method.Covers types host ns s.nodes) :
    method.Covers types host ns (nodesAll ss) := by
  induction ss with
  | nil => exact .nil
  | cons s ss ih =>
    exact List.forall_mem_append.mpr
      ⟨h s List.mem_cons_self, ih fun x hx => h x (List.mem_cons_of_mem s hx)⟩

theorem LoweringContext.covers_store {holder : Variable} {f : Field} {x : Expr}
    (hx : x.Way (ctx.method.SpellsReceiver ctx.declarations.types host)) (ns : List Node) :
    ctx.method.Covers ctx.declarations.types host ns (store holder f x).nodes :=
  List.forall_mem_cons.mpr ⟨trivial, List.forall_mem_cons.mpr ⟨trivial,
    List.forall_mem_append.mpr ⟨Expr.Way.covers (.field .ref) ns, hx.covers ns⟩⟩⟩

/-- Creating an environment names its type only. -/
theorem LoweringContext.Opens.covers {site site' : Site} {names names' : Names} {s : ScopeId}
    {created : List Stmt} (hf : ctx.FrameOf host site.frame)
    (ho : ctx.Opens site names s created site' names') (ns : List Node) :
    ctx.method.Covers ctx.declarations.types host ns (Stmt.nodesAll created) ∧
      ctx.FrameOf host site'.frame := by
  cases ho with
  | bare => exact ⟨.nil, hf⟩
  | @env e t holder _ _ hs ht hid hcreate htype =>
    obtain ⟨hview, init, parent, stores, rfl, hinit, hparent, hstores⟩ := ctx.createEnv_inv hcreate
    have hframe : site'.frame = site.frame := congrArg View.frame hview
    refine ⟨Stmt.covers_nodesAll fun x hx => ?_, hframe ▸ hf⟩
    have henv : ctx.method.SpellsEnv ctx.declarations.types host.isSome e holder.type :=
      ⟨t, List.mem_of_find?_eq_some ht, by simpa using List.find?_some ht, by
        rw [htype, hf.typeArgs]⟩
    rcases List.mem_cons.mp hx with rfl | hx
    · obtain ⟨k, hk⟩ := hid
      rw [Stmt.nodes_declare]
      refine List.forall_mem_cons.mpr ⟨.inl ⟨k, e, hk, henv⟩, ?_⟩
      rw [hinit]
      split <;> exact List.forall_mem_singleton.mpr (.inl ⟨e, henv⟩)
    rcases List.mem_append.mp hx with hx | hx
    · obtain ⟨-, rfl⟩ | ⟨link, y, -, rfl, hy⟩ := ctx.storeParent_inv hparent
      · exact absurd hx List.not_mem_nil
      · obtain rfl := List.mem_singleton.mp hx
        obtain ⟨p, -, hy⟩ | ⟨-, hy⟩ := hy
        · exact covers_store (hf.envRef_way hy) ns
        · exact covers_store (hf.receiverRef_way hy) ns
    · obtain ⟨ss, hss, hx⟩ := List.mem_flatten.mp hx
      obtain ⟨v, -, hv⟩ := (exists_mem_of_forall₂ (forall₂_of_mapM_ok hstores)).2 ss hss
      obtain ⟨rfl, -⟩ | ⟨f, y, -, rfl, hy⟩ := ctx.storeVariable_inv hv
      · exact absurd hx List.not_mem_nil
      · obtain rfl := List.mem_singleton.mp hx
        obtain ⟨-, hy⟩ | ⟨-, rfl⟩ := hy
        · exact covers_store (hf.receiverRef_way hy) ns
        · exact covers_store .ref ns

theorem LoweringContext.LowersDeclaration.covers {site : Site} {names names' : Names} {loc : Loc}
    {v : Variable} {init init' : Option Expr} {s' : Option Stmt} (hf : ctx.FrameOf host site.frame)
    (hi : ctx.method.Covers ctx.declarations.types host (Expr.nodesAll init.toList)
      (Expr.nodesAll init'.toList))
    (h : ctx.LowersDeclaration site names loc v init' s' names') :
    ctx.method.Covers ctx.declarations.types host (Stmt.declare loc (some v) init).nodes
      (Stmt.nodesAll s'.toList) := by
  rw [Stmt.nodes_declare]
  cases h with
  | hoisted => exact .nil
  | hoistedInit he ht =>
    refine Stmt.covers_nodesAll fun x hx => ?_
    obtain rfl := List.mem_singleton.mp hx
    have hi := hi.mono (List.subset_cons_self (.stmt (.declare loc (some v) init)) _)
    exact List.forall_mem_cons.mpr ⟨trivial, List.forall_mem_cons.mpr ⟨trivial,
      List.forall_mem_append.mpr ⟨(hf.variableRef_way ht).covers _,
        fun n hn => hi n (List.mem_append_left _ hn)⟩⟩⟩
  | same he hs =>
    refine Stmt.covers_nodesAll fun x hx => ?_
    obtain rfl := List.mem_singleton.mp hx
    rw [Stmt.nodes_declare]
    refine .cons (.inr ⟨v, init, List.mem_cons_self, .inl rfl, ?_⟩) hi
    rw [← hf.spell, hs]
  | copy he hs hid htype =>
    refine Stmt.covers_nodesAll fun x hx => ?_
    obtain rfl := List.mem_singleton.mp hx
    rw [Stmt.nodes_declare]
    refine .cons (.inr ⟨v, init, List.mem_cons_self, .inr hid, ?_⟩) hi
    rw [htype, hf.spell]

mutual

theorem Stmt.LowersTo.covers {site : Site} {names names' : Names} {s : Stmt} {s' : Option Stmt}
    (hf : ctx.FrameOf host site.frame) (h : s.LowersTo ctx site names s' names') :
    ctx.method.Covers ctx.declarations.types host s.nodes (Stmt.nodesAll s'.toList) := by
  cases h with
  | block hb => simpa [Stmt.nodesAll, Stmt.nodes] using hb.covers (hf.locate _)
  | declare hi hd => exact hd.covers (hf.locate _) (hi.covers (hf.locate _))
  | declareNothing hi =>
    simp only [Option.toList, Stmt.nodesAll, Stmt.nodes_declare, List.append_nil]
    exact .cons trivial (hi.covers (hf.locate _))
  | expr hx =>
    simp only [Option.toList, Stmt.nodesAll, Stmt.nodes, List.append_nil]
    exact .cons trivial (hx.covers (hf.locate _))
  | ret hx =>
    simp only [Option.toList, Stmt.nodesAll, Stmt.nodes_ret, List.append_nil]
    exact .cons trivial (hx.covers (hf.locate _))
  | cond ht hb he =>
    have htest := (ht.covers (hf.locate _)).append (hb.covers (hf.locate _))
    cases he with
    | none =>
      simp only [Option.toList, Stmt.nodesAll, Stmt.nodes, List.append_nil]
      exact .cons trivial htest
    | some hb' =>
      simp only [Option.toList, Stmt.nodesAll, Stmt.nodes, List.append_nil]
      exact .cons trivial (htest.append (hb'.covers (hf.locate _)))
  | loop ht hb =>
    simp only [Option.toList, Stmt.nodesAll, Stmt.nodes, List.append_nil]
    exact .cons trivial ((ht.covers (hf.locate _)).append (hb.covers (hf.locate _)))
  | localFunction => exact .nil

theorem Stmt.AllLowerTo.covers {site : Site} {names names' : Names} {ss ss' : List Stmt}
    (hf : ctx.FrameOf host site.frame) (h : Stmt.AllLowerTo ctx site names ss ss' names') :
    ctx.method.Covers ctx.declarations.types host (Stmt.nodesAll ss) (Stmt.nodesAll ss') := by
  cases h with
  | nil => exact .nil
  | cons hs hss =>
    rw [Stmt.nodesAll_append]
    exact (hs.covers hf).append (hss.covers hf)

/-- Every type in a lowered block is spelled for the frame. -/
theorem Block.LowersTo.covers {site : Site} {names names' : Names} {b b' : Block}
    (hf : ctx.FrameOf host site.frame) (h : b.LowersTo ctx site names b' names') :
    ctx.method.Covers ctx.declarations.types host b.nodes b'.nodes := by
  cases h with
  | mk ho hs =>
    obtain ⟨hcreated, hf'⟩ := ho.covers hf _
    refine .cons trivial ?_
    rw [Stmt.nodesAll_append]
    exact List.forall_mem_append.mpr ⟨hcreated, hs.covers hf'⟩

end

end LowersTo

/-! ## Methods -/

/-- The method of a closure is written in a frame of its own. -/
theorem LoweringContext.Suits.frameOf {ctx : LoweringContext} {m : MethodBody} {c : ClosureId}
    {lm : LoweredMethod} (h : ctx.Suits m) (hlm : ctx.declarations.methodOf? c = some lm)
    (loc : Loc) : ctx.FrameOf lm.host (ctx.methodSite lm loc).frame := by
  have hd := h.declared.declared c lm hlm
  have hclosure : (ctx.methodSite lm loc).frame.closure ≠ none := Option.some_ne_none _
  cases hhost : lm.host with
  | none =>
    have hframe : (ctx.methodSite lm loc).frame.host = none := by simp [methodSite, hhost]
    refine ⟨hclosure, funext fun τ => ?_, ?_, fun t ht => (by cases hframe.symm.trans ht),
      fun _ => rfl⟩
    · rw [spell, hframe]
      rfl
    · rw [typeArgs, hframe]
      rfl
  | some e =>
    have hlive := (h.seated.host c e (hd.host.symm.trans hhost)).1
    obtain ⟨t, ht, hmem, rfl⟩ := h.declared.typed.typeOf (Graph.lt_of_isLiveReference hlive)
      (Graph.removed_of_isLiveReference hlive)
    have hframe : (ctx.methodSite lm loc).frame.host = some t := by simp [methodSite, hhost, ht]
    have hparams : t.typeParams = ctx.method.typeArgs true :=
      (h.declared.typed.typedAs t hmem).typeParams
    refine ⟨hclosure, funext fun τ => ?_, ?_, fun u hu => ?_, fun hnone => by
      cases hframe.symm.trans hnone⟩
    · rw [spell, hframe]
      rfl
    · rw [typeArgs, hframe]
      exact hparams
    · obtain rfl := Option.some.inj (hframe.symm.trans hu)
      exact ⟨t, hmem, rfl, by rw [hparams]⟩

/-- The types in the method that nested function `f` with body `b` has become are those of `f`, as
they are spelled there, and those of environments. -/
structure LoweredMethod.Spelled (lm : LoweredMethod) (ctx : LoweringContext) (f : NestedFunction)
    (b : Block) : Prop where
  typeParams : lm.symbol.typeParams = if lm.host.isSome then [] else ctx.method.typeParams
  returnType : lm.symbol.returnType = ctx.method.spell lm.host.isSome f.returnType
  /-- The parameters of `f`, then the environments that are taken by reference. -/
  params : ∃ ps es, lm.symbol.params = (ps ++ es).map some ∧
    List.Forall₂ (fun v w => w.StandsFor v ∧ w.type = ctx.method.spell lm.host.isSome v.type)
      f.params.reduceOption ps ∧
    List.Forall₂ (fun e w => ctx.method.SpellsEnv ctx.declarations.types lm.host.isSome e w.type)
      (ctx.graph.valueEnvsOf (ctx.graph.closure lm.closure)) es
  body : ∃ b', lm.body = some b' ∧
    b.LowersBy ctx (.referring ctx.graph ctx.declarations) (ctx.methodSite lm {}).view b' ∧
    ctx.method.Covers ctx.declarations.types lm.host b.nodes b'.nodes

/-- The type that the node names. -/
def Node.type? : Node → Option String
  | .expr (.literal _ _ type) | .expr (.self _ type) | .expr (.newEnv _ type)
  | .expr (.zero _ type) => some type
  | .stmt (.declare _ v _) => v.map Variable.type
  | _ => none

/-- The types of a method, in its signature and in its body. -/
def LoweredMethod.types (lm : LoweredMethod) : List String :=
  lm.symbol.returnType :: (lm.symbol.params.reduceOption.map Variable.type ++
    ((lm.body.map Block.nodes).getD []).filterMap Node.type?)

/-! ## Type parameters -/

section Legible

variable {method : Method} {types : List EnvType} (h : method.Legible)
  (hnames : ∀ t ∈ types, ∃ i, t.name = TypeName.envName method.name i) {p τ : String}
  (hp : p ∈ method.typeParams)

include h hnames hp

theorem Method.SpellsEnv.not_mem_idents {e : EnvId} (hτ : method.SpellsEnv types true e τ) :
    p ∉ TypeName.idents τ := by
  obtain ⟨t, ht, -, rfl⟩ := hτ
  obtain ⟨i, hi⟩ := hnames t ht
  rw [EnvType.reference, hi]
  exact h.not_mem_reference hp i

/-- No type parameter is named in a method on an environment type. -/
theorem Method.Spells.not_mem_idents {e : EnvId} {ns : List Node} {n : Node}
    (hn : method.Spells types (some e) ns n) (hτ : n.type? = some τ) : p ∉ TypeName.idents τ := by
  have henv {e : EnvId} {τ : String} (hτ : method.SpellsEnv types true e τ) :=
    hτ.not_mem_idents h hnames hp
  rw [Node.type?.eq_def] at hτ
  split at hτ
  · obtain rfl := Option.some.inj hτ
    obtain ⟨σ, -, rfl⟩ := hn
    exact h.not_mem_renameParams hp σ
  · obtain rfl := Option.some.inj hτ
    exact henv hn
  · obtain rfl := Option.some.inj hτ
    obtain ⟨e, hn⟩ | ⟨σ, -, rfl⟩ := hn
    · exact henv hn
    · exact h.not_mem_renameParams hp σ
  · obtain rfl := Option.some.inj hτ
    obtain ⟨e, hn⟩ | ⟨σ, -, rfl⟩ := hn
    · exact henv hn
    · exact h.not_mem_renameParams hp σ
  · obtain ⟨w, rfl, rfl⟩ := Option.map_eq_some_iff.mp hτ
    obtain ⟨k, e, -, hn⟩ | ⟨v, init, -, -, hn⟩ := hn
    · exact henv hn
    · rw [hn]
      exact h.not_mem_renameParams hp v.type
  · exact nomatch hτ

theorem LoweredMethod.Spelled.not_mem_idents {lm : LoweredMethod} {g : Graph}
    {ms : List LoweredMethod} {f : NestedFunction} {b : Block}
    (hs : lm.Spelled ⟨g, ⟨types, ms⟩, method⟩ f b) (hhost : lm.host.isSome = true)
    (hτ : τ ∈ lm.types) : p ∉ TypeName.idents τ := by
  obtain ⟨e, he⟩ := Option.isSome_iff_exists.mp hhost
  obtain ⟨-, hreturn, ⟨ps, es, hparams, hps, hes⟩, b', hbody, -, hcovers⟩ := hs
  simp only [he, Option.isSome_some] at hreturn hps hes hcovers
  rw [LoweredMethod.types, List.mem_cons, List.mem_append, hparams, hbody] at hτ
  rcases hτ with rfl | hτ | hτ
  · rw [hreturn]
    exact h.not_mem_renameParams hp f.returnType
  · obtain ⟨w, hw, rfl⟩ := List.mem_map.mp hτ
    have hw : w ∈ ps ++ es := by simpa [List.reduceOption] using hw
    rcases List.mem_append.mp hw with hw | hw
    · obtain ⟨v, -, -, hv⟩ := (exists_mem_of_forall₂ hps).2 w hw
      rw [hv]
      exact h.not_mem_renameParams hp v.type
    · obtain ⟨e, -, hw⟩ := (exists_mem_of_forall₂ hes).2 w hw
      exact hw.not_mem_idents h hnames hp
  · obtain ⟨n, hn, hτ⟩ := List.mem_filterMap.mp hτ
    exact (hcovers n hn).not_mem_idents h hnames hp hτ

end Legible

/-! ## Main statement -/

namespace LoweredBody.Written

variable {r : LoweredBody} {ctx : LoweringContext} {m : MethodBody} (h : r.Written ctx m)

include h

theorem spelled {lm : LoweredMethod} (hlm : lm ∈ r.declarations.methods) :
    ∃ p n f b, (p, n) ∈ m.numbered.sites ∧ n.nested? = some (some f, b) ∧
      ctx.graph.closureOf? f = some lm.closure ∧
      lm.Spelled { ctx with declarations := r.declarations } f b := by
  obtain ⟨lm, loc, p, n, b, b', names, rfl, hc, hlm, hn, hnested, hl⟩ := h.lowersTo hlm
  have hseated := h.suits.seated
  have hd := h.suits.declared.declared _ lm hlm
  have hsigns := h.suits.declared.signs _ lm hlm
  refine ⟨p, n, _, b, hn, hnested, hseated.exact.holds.closureOf_eq_some.mpr ⟨hc, rfl⟩, ?_⟩
  constructor
  case typeParams => exact hsigns.typeParams
  case returnType => exact hsigns.returnType
  case params =>
    refine ⟨lm.copies.reverse.map (·.2), lm.envParams.map (·.2), hd.params, ?_, ?_⟩
    · rw [← hd.copies, List.forall₂_map_left_iff, List.forall₂_map_right_iff, List.forall₂_same]
      intro q hq
      have hq := List.mem_reverse.mp hq
      exact ⟨.inr (hd.copy q hq).2, hsigns.copy q hq⟩
    · change List.Forall₂ _ (ctx.graph.valueEnvsOf (ctx.graph.closure lm.closure)) _
      rw [← hd.envParams, List.forall₂_map_left_iff, List.forall₂_map_right_iff, List.forall₂_same]
      intro q hq
      have hmem := hd.envParams ▸ List.mem_map_of_mem (f := Prod.fst) hq
      obtain ⟨hlt, hlive, -⟩ :=
        (hseated.placed.closure_envs _ _).mp (Graph.mem_valueEnvsOf.mp hmem).1
      obtain ⟨t, ht, htmem, henv⟩ := h.suits.declared.typed.typeOf hlt hlive
      refine ⟨t, h.types ▸ htmem, henv, (hsigns.holder q hq).trans ?_⟩
      rw [Declarations.typeName, ht]
      rfl
  case body =>
    refine ⟨b', rfl, h.lowersBy_of_nested h.keeps_referring hlm hn hnested hl, ?_⟩
    rw [h.types]
    exact hl.covers (h.suits.frameOf hlm loc)

theorem exists_name_eq : ∀ t ∈ r.declarations.types, ∃ i,
    t.name = TypeName.envName ctx.method.name i := by
  intro t ht
  obtain ⟨i, hi⟩ := List.mem_iff_getElem?.mp (h.types ▸ ht)
  exact ⟨i, h.suits.declared.typed.name i t hi⟩

end LoweredBody.Written

/-- Whatever is converted, the types in a lowered method are spelled for the type that has it. A
method on an environment type names no type parameter of the method it is cut out of, if those can
be told apart. -/
theorem MethodBody.run_spells {o : ConversionSettings} {m : MethodBody} {r : LoweredBody}
    (h : (Conversion.run o m).outcome = .ok r) :
    ∃ method, m.method = some method ∧ ∀ lm ∈ r.declarations.methods, ∃ p n f b,
      (p, n) ∈ m.numbered.sites ∧ n.nested? = some (some f, b) ∧
      (Conversion.run o m).graph.closureOf? f = some lm.closure ∧
      lm.Spelled ⟨(Conversion.run o m).graph, r.declarations, method⟩ f b ∧
      (lm.host.isSome = true → method.Legible →
        ∀ τ ∈ lm.types, ∀ q ∈ method.typeParams, q ∉ TypeName.idents τ) := by
  obtain ⟨ctx, hgraph, hwritten, -⟩ := LoweredBody.written_of_run h
  rw [← hgraph]
  refine ⟨ctx.method, hwritten.suits.method, fun lm hlm => ?_⟩
  obtain ⟨p, n, f, b, hn, hnested, hf, hspelled⟩ := hwritten.spelled hlm
  exact ⟨p, n, f, b, hn, hnested, hf, hspelled, fun hhost hlegible τ hτ q hq =>
    hspelled.not_mem_idents hlegible hwritten.exists_name_eq hq hhost hτ⟩

namespace Generic

def item : Variable := ⟨.given 0, .declared, "item", "T", false⟩

def items : Variable := ⟨.given 1, .declared, "items", "List<T>", false⟩

def wrapped : NestedFunction :=
  { id := 0, form := .lambda, name := "wrapped", returnType := "T" }

/-- A lambda that declares a local and reads one from outside, in a method with the given type
parameters. -/
def wrap (typeParams : List String) : MethodBody where
  method := some
    { id := .given 0, name := "Wrap", owner := "Program", isStatic := true, typeParams
      returnType := "void" }
  receiver := none
  block := some (.mk 0 {}
    [.declare {} (some item) none,
      .expr {} (.lambda {} (some wrapped) (.mk 0 {}
        [.declare {} (some items) (some (.zero {} "List<T>")),
          .ret {} (some (.ref {} (some item)))]))])

end Generic

open Generic in
/-- In the method of the lambda `T` has become `$T` wherever it was named. -/
theorem MethodBody.spells_wrap : ∃ r method, (Conversion.run {} (wrap ["T"])).outcome = .ok r ∧
    (wrap ["T"]).method = some method ∧ method.Legible ∧
    r.declarations.methods.map LoweredMethod.types =
      [["$T", "List<$T>", "List<$T>", "Wrap$Env0<$T>"]] ∧
    ∀ lm ∈ r.declarations.methods, ∃ p n f b,
      (p, n) ∈ (wrap ["T"]).numbered.sites ∧ n.nested? = some (some f, b) ∧
      (Conversion.run {} (wrap ["T"])).graph.closureOf? f = some lm.closure ∧
      lm.Spelled ⟨(Conversion.run {} (wrap ["T"])).graph, r.declarations, method⟩ f b ∧
      (lm.host.isSome = true → method.Legible →
        ∀ τ ∈ lm.types, ∀ q ∈ method.typeParams, q ∉ TypeName.idents τ) := by
  have htypes : (Conversion.run {} (wrap ["T"])).outcome.toOption.map
      (·.declarations.methods.map LoweredMethod.types) =
      some [["$T", "List<$T>", "List<$T>", "Wrap$Env0<$T>"]] := by decide +kernel
  obtain ⟨r, hr⟩ := exists_of_isOk (x := (Conversion.run {} (wrap ["T"])).outcome)
    (by decide +kernel)
  obtain ⟨method, hmethod, hspells⟩ := run_spells hr
  refine ⟨r, method, hr, hmethod, ?_, ?_, hspells⟩
  · obtain rfl := Option.some.inj hmethod
    have hparam : ∀ c ∈ "T".toList, TypeName.isNameChar c = true :=
      List.all_eq_true.mp (by decide +kernel)
    exact Method.legible_of_isNameChar (List.all_eq_true.mp (by decide +kernel))
      (List.forall_mem_singleton.mpr hparam) (by decide +kernel)
  · rw [hr] at htypes
    exact Option.some.inj htypes

open Generic in
/-- A type parameter that is no identifier is renamed in front only. Applied to `$A,T` and `$T`, the
type of the environment names `T`. -/
theorem MethodBody.wrap_leaks : ∃ r method,
    (Conversion.run {} (wrap ["A,T", "T"])).outcome = .ok r ∧
    (wrap ["A,T", "T"]).method = some method ∧
    (∀ c ∈ method.name.toList, TypeName.isNameChar c = true) ∧
    (∀ q ∈ method.typeParams, '$' ∉ q.toList) ∧
    ∃ lm ∈ r.declarations.methods, lm.host.isSome = true ∧
      ∃ τ ∈ lm.types, ∃ q ∈ method.typeParams, q ∈ TypeName.idents τ := by
  have hleak : ((Conversion.run {} (wrap ["A,T", "T"])).outcome.toOption.any fun r =>
      r.declarations.methods.any fun lm => lm.host.isSome && lm.types.any fun τ =>
        decide ("T" ∈ TypeName.idents τ)) = true := by decide +kernel
  rcases hr : (Conversion.run {} (wrap ["A,T", "T"])).outcome with f | r
  · rw [hr] at hleak
    exact nomatch hleak
  · rw [hr] at hleak
    simp only [Except.toOption, Option.any_some, List.any_eq_true, Bool.and_eq_true,
      decide_eq_true_eq] at hleak
    obtain ⟨lm, hlm, hhost, τ, hτ, hmem⟩ := hleak
    exact ⟨r, _, rfl, rfl, List.all_eq_true.mp (by decide +kernel), by decide +kernel, lm, hlm,
      hhost, τ, hτ, "T", by decide +kernel, hmem⟩

end Unnest

import Unnest.Lowered.Tree
import Unnest.Proofs.Declarations.Methods

/-!
# Reaching environments from a place

A place in the tree being lowered knows the frame it is in, the environments created around it in
this frame, and the innermost one on the heap. `LoweringContext.At` says that it knows them rightly.
From such a place every environment is reached that the code there needs: what was created in the
frame is at hand, and the rest is read by the closure of the frame, so it was handed over or lies on
the chain from the host.

## Main statements

* `LoweringContext.envRef_of_frame` : what the closure of a frame reads from is reached in it.
* `LoweringContext.Fits.receiverRef_ok` : so is the receiver, by a closure that captures it.
* `LoweringContext.Fits.createEnv_ok` : an environment can be created where its scope begins.
-/

namespace Unnest

variable {g : Graph} {m : MethodBody} {s t : ScopeId} {c d : ClosureId} {e : EnvId} {v : Variable}
  {p : Path} {n : Node}

theorem mapM_ok {ε α β : Type} {f : α → Except ε β} {l : List α}
    (h : ∀ a ∈ l, ∃ b, f a = .ok b) : ∃ bs, l.mapM f = .ok bs := by
  induction l with
  | nil => exact ⟨[], rfl⟩
  | cons a l ih =>
    obtain ⟨b, hb⟩ := h a List.mem_cons_self
    obtain ⟨bs, hbs⟩ := ih fun x hx => h x (List.mem_cons_of_mem a hx)
    exact ⟨b :: bs, by rw [List.mapM_cons, hb, hbs]; rfl⟩

/-! ## Frames -/

namespace Graph

theorem lt_of_frame (hh : g.Holds m) (hf : g.frame? s = some c) :
    c < g.closures.size ∧ (g.closure c).body ∈ g.ancestors s := by
  obtain ⟨t, ht, howner⟩ := List.exists_of_findSome?_eq_some hf
  obtain ⟨hc, rfl⟩ := hh.owner_eq_some.mp howner
  exact ⟨hc, ht⟩

theorem frame_body (hh : g.Holds m) (hc : c < g.closures.size) :
    g.frame? (g.closure c).body = some c := by
  rw [frame?, ancestors, List.findSome?_cons, hh.owner_eq_some.mpr ⟨hc, rfl⟩]

theorem frame_root (hh : g.Holds m) : g.frame? root = none := by
  rw [frame?, hh.ancestors_root, List.findSome?_cons, hh.root_owner]
  rfl

/-- A scope that is not a body belongs to the frame of the scope around it. -/
theorem frame_of_isNone (howner : (g.scope s).owner = none)
    (hs : g.ancestors s = s :: g.ancestors t) : g.frame? s = g.frame? t := by
  rw [frame?, hs, List.findSome?_cons, howner]
  rfl

/-- A scope around a place is in the same frame, or outside the closure of the frame. -/
theorem frame_eq_or (hh : g.Holds m) (hs : s ∈ g.ancestors t) : g.frame? s = g.frame? t ∨
    ∃ c, g.frame? t = some c ∧ (g.closure c).body ∉ g.ancestors s := by
  cases ht : g.frame? t with
  | none =>
    refine .inl (List.findSome?_eq_none_iff.mpr fun a ha => ?_)
    exact List.findSome?_eq_none_iff.mp ht a (mem_ancestors_trans ha hs)
  | some c =>
    by_cases hbody : (g.closure c).body ∈ g.ancestors s
    · refine .inl ?_
      obtain ⟨d, hd⟩ : ∃ d, g.frame? s = some d := by
        refine Option.isSome_iff_exists.mp (List.findSome?_isSome_iff.mpr ⟨_, hbody, ?_⟩)
        rw [hh.owner_eq_some.mpr ⟨(lt_of_frame hh ht).1, rfl⟩]
        rfl
      -- each of the two closures is the innermost one around the other
      obtain ⟨hdlt, hdbody⟩ := lt_of_frame hh hd
      have hcd := hh.mem_body_of_frame hd (lt_of_frame hh ht).1 hbody
      have hdc := hh.mem_body_of_frame ht hdlt (mem_ancestors_trans hdbody hs)
      have howner := hh.owner_eq_some.mpr ⟨hdlt, rfl⟩
      rw [ancestors_antisymm hdc hcd, hh.owner_eq_some.mpr ⟨(lt_of_frame hh ht).1, rfl⟩] at howner
      rw [hd, Option.some.inj howner]
    · exact .inr ⟨c, rfl, hbody⟩

/-- A closure captures what it refers to outside its body. -/
theorem Exact.captured_of_reference (hx : g.Exact m) (hn : (p, n) ∈ m.numbered.sites)
    (hr : n.reference? m.receiver = some (some v)) (hc : g.frame? p.scope = some c)
    (hs : v ∈ (g.scope s).vars) (hout : (g.closure c).body ∉ g.ancestors s) :
    v ∈ (g.closure c).captured := by
  have hclt := (lt_of_frame hx.holds hc).1
  rw [hx.holds.frame_eq (MethodBody.leads_of_mem_sites hn)] at hc
  obtain ⟨f, hhead, hf⟩ := Option.bind_eq_some_iff.mp hc
  obtain ⟨-, rfl⟩ := hx.holds.closureOf_eq_some.mp hf
  rw [hx.captured c hclt]
  refine .own ⟨p, n, hn, hhead, hr⟩ ?_
  have := hx.bodyDeclares_eq_false hs hout
  rwa [← Bool.not_eq_true, hx.holds.bodyDeclares_iff hclt] at this

end Graph

namespace LoweringContext

/-- The context comes from a body whose symbols are used as they are meant. -/
structure Fits (ctx : LoweringContext) (m : MethodBody) : Prop where
  method : m.method = some ctx.method
  chained : ctx.graph.Chained m
  declared : ctx.declarations.Declared ctx.graph ctx.method
  wellBound : m.WellBound

/-- The frame of the method of a closure, or of the method being converted. -/
def frameAt (ctx : LoweringContext) : Option ClosureId → Frame
  | none => { isStatic := ctx.method.isStatic }
  | some c =>
    match ctx.declarations.methodOf? c with
    | some lm => (ctx.methodSite lm {}).frame
    | none => {}

variable {ctx : LoweringContext} {site : Site}

theorem linkPath_self (ctx : LoweringContext) (host : EnvType) (e : EnvId) (fuel : Nat)
    (way : Expr) : ctx.linkPath host e fuel e way = .ok way := by
  rw [linkPath.eq_def]
  exact if_pos rfl

theorem linkPath_step {a b x : EnvId} {l : Field} (hab : a ≠ b)
    (hl : (ctx.declarations.typeOf? a).bind (·.link) = some l)
    (hx : ctx.graph.runtimeParent? a = some x) (host : EnvType) (fuel : Nat) (way : Expr) :
    ctx.linkPath host b (fuel + 1) a way = ctx.linkPath host b fuel x (.field {} way l) := by
  rw [linkPath.eq_def]
  simp only [hab, if_false, hl, hx]

theorem linkPath_cases {a b : EnvId} {host : EnvType} {fuel : Nat} {way way' : Expr}
    (hp : ctx.linkPath host b fuel a way = .ok way') : (a = b ∧ way = way') ∨
      ∃ fuel' l x, fuel = fuel' + 1 ∧ (ctx.declarations.typeOf? a).bind (·.link) = some l ∧
        ctx.graph.runtimeParent? a = some x ∧
        ctx.linkPath host b fuel' x (.field {} way l) = .ok way' := by
  by_cases hab : a = b
  · rw [hab, ctx.linkPath_self] at hp
    exact .inl ⟨hab, Except.ok.inj hp⟩
  · rw [linkPath.eq_def] at hp
    simp only [hab, if_false] at hp
    split at hp
    · rename_i fuel' l x hl hx
      exact .inr ⟨fuel', l, x, rfl, hl, hx, hp⟩
    · exact nomatch hp

theorem receiverPath_cases {a : EnvId} {host : EnvType} {fuel : Nat} {way way' : Expr}
    (hp : ctx.receiverPath host fuel a way = .ok way') :
    ∃ fuel' l, fuel = fuel' + 1 ∧ (ctx.declarations.typeOf? a).bind (·.link) = some l ∧
      (ctx.graph.runtimeParent? a = none ∧ way' = .field {} way l ∨
        ∃ x, ctx.graph.runtimeParent? a = some x ∧
          ctx.receiverPath host fuel' x (.field {} way l) = .ok way') := by
  cases fuel with
  | zero => exact nomatch hp
  | succ fuel =>
    rw [receiverPath] at hp
    split at hp
    · exact nomatch hp
    · rename_i l hl
      refine ⟨fuel, l, rfl, hl, ?_⟩
      split at hp
      · exact .inr ⟨_, ‹_›, hp⟩
      · exact .inl ⟨‹_›, (Except.ok.inj hp).symm⟩

/-- What every parent link keeps holds at the end of the links. -/
theorem linkPath_induction {P : EnvId → Expr → Prop}
    (hstep : ∀ {a way l p}, P a way → (ctx.declarations.typeOf? a).bind (·.link) = some l →
      ctx.graph.runtimeParent? a = some p → P p (.field {} way l))
    {host : EnvType} {a b : EnvId} {fuel : Nat} {way way' : Expr} (ha : P a way)
    (hp : ctx.linkPath host b fuel a way = .ok way') : P b way' := by
  induction fuel generalizing a way with
  | zero =>
    obtain ⟨rfl, rfl⟩ | ⟨_, _, _, hfuel, -⟩ := linkPath_cases hp
    · exact ha
    · exact nomatch hfuel
  | succ fuel ih =>
    obtain ⟨rfl, rfl⟩ | ⟨fuel', l, p, hfuel, hl, hparent, hrest⟩ := linkPath_cases hp
    · exact ha
    · obtain rfl := Nat.succ.inj hfuel
      exact ih (hstep ha hl hparent) hrest

/-- The last of the links leads to the receiver. -/
theorem receiverPath_induction {P : EnvId → Expr → Prop} {Q : Expr → Prop}
    (hstep : ∀ {a way l p}, P a way → (ctx.declarations.typeOf? a).bind (·.link) = some l →
      ctx.graph.runtimeParent? a = some p → P p (.field {} way l))
    (hend : ∀ {a way l}, P a way → (ctx.declarations.typeOf? a).bind (·.link) = some l →
      ctx.graph.runtimeParent? a = none → Q (.field {} way l))
    {host : EnvType} {a : EnvId} {fuel : Nat} {way way' : Expr} (ha : P a way)
    (hp : ctx.receiverPath host fuel a way = .ok way') : Q way' := by
  induction fuel generalizing a way with
  | zero => exact nomatch hp
  | succ fuel ih =>
    obtain ⟨fuel', l, hfuel, hl, ⟨hnone, rfl⟩ | ⟨p, hparent, hrest⟩⟩ := receiverPath_cases hp
    · exact hend ha hl hnone
    · obtain rfl := Nat.succ.inj hfuel
      exact ih (hstep ha hl hparent) hrest

namespace Fits

variable (h : ctx.Fits m)

include h

theorem holds : ctx.graph.Holds m := h.chained.exact.holds

theorem calls : m.CallsInScope := h.wellBound.calls

theorem frameAt_some (hc : c < ctx.graph.closures.size) : ∃ lm,
    ctx.declarations.methodOf? c = some lm ∧ ctx.graph.DeclaredAs c lm ∧
      ctx.frameAt (some c) =
        { closure := some c
          host := lm.host.bind ctx.declarations.typeOf?
          isStatic := lm.symbol.isStatic
          envParams := lm.envParams } := by
  obtain ⟨lm, hlm, hd⟩ := h.declared.methodOf hc
  refine ⟨lm, hlm, hd, ?_⟩
  rw [frameAt, hlm]
  simp only [methodSite, hd.closure]

/-- The type of the environment a closure is hosted on. -/
theorem host_frameAt (hc : c < ctx.graph.closures.size) {i : EnvId}
    (hi : (ctx.graph.closure c).host = some i) :
    ∃ t, (ctx.frameAt (some c)).host = some t ∧ t.env = i := by
  obtain ⟨lm, -, hd, hframe⟩ := h.frameAt_some hc
  have his := h.chained.isHost h.calls hi
  obtain ⟨hlt, hlive, -⟩ := h.chained.placed.mem_envs_iff.mp his.mem
  obtain ⟨t, ht, -, hte⟩ := h.declared.typed.typeOf hlt hlive
  exact ⟨t, by rw [hframe, hd.host, hi]; exact ht, hte⟩

/-! ## Following links -/

/-- A live environment that needs its parent has a link. -/
theorem exists_link (hlive : (ctx.graph.env e).isLiveReference = true)
    (hneeds : (ctx.graph.env e).needsParent = true) :
    ∃ l, (ctx.declarations.typeOf? e).bind (·.link) = some l := by
  have hrem : (ctx.graph.env e).removed = false := by
    simp only [Environment.isLiveReference, Bool.and_eq_true, Bool.not_eq_true'] at hlive
    exact hlive.1
  obtain ⟨t, ht, hmem, rfl⟩ := h.declared.typed.typeOf (Graph.lt_of_isLiveReference hlive) hrem
  rw [ht]
  exact Option.isSome_iff_exists.mp ((h.declared.typed.typedAs t hmem).link.trans hneeds)

/-- A link leads to a live environment with a smaller number. -/
theorem link_spec {a b : EnvId} (hlink : ctx.graph.Link a b) :
    (ctx.graph.env b).isLiveReference = true ∧ b < a := by
  obtain ⟨hlive, -, hlt⟩ := h.chained.surroundingEnv_spec h.calls hlink.1
  exact ⟨hlive, h.chained.placed.lt_of_scope_lt (Graph.lt_of_isLiveReference hlive) hlt⟩

theorem linkPath_ok {a b : EnvId} (hpath : Relation.ReflTransGen ctx.graph.Link a b)
    (hlive : (ctx.graph.env a).isLiveReference = true) {fuel : Nat} (hfuel : a ≤ fuel)
    (host : EnvType) (way : Expr) : ∃ way', ctx.linkPath host b fuel a way = .ok way' := by
  induction hpath using Relation.ReflTransGen.head_induction_on generalizing fuel way with
  | refl => exact ⟨way, ctx.linkPath_self host b fuel way⟩
  | @head a x hlink _ ih =>
    by_cases hab : a = b
    · exact ⟨way, hab ▸ ctx.linkPath_self host a fuel way⟩
    obtain ⟨hlive', hlt⟩ := h.link_spec hlink
    obtain ⟨l, hl⟩ := h.exists_link hlive hlink.2
    cases fuel with
    | zero => exact absurd hlt (by lia)
    | succ fuel =>
      obtain ⟨way', hway⟩ := ih hlive' (show x ≤ fuel by lia) (.field {} way l)
      exact ⟨way', (linkPath_step hab hl hlink.1 host fuel way).trans hway⟩

theorem receiverPath_ok {a b : EnvId} (hpath : Relation.ReflTransGen ctx.graph.Link a b)
    (hlive : (ctx.graph.env a).isLiveReference = true)
    (hend : ctx.graph.runtimeParent? b = none) (hneeds : (ctx.graph.env b).needsParent = true)
    {fuel : Nat} (hfuel : a ≤ fuel) (host : EnvType) (way : Expr) :
    ∃ way', ctx.receiverPath host (fuel + 1) a way = .ok way' := by
  induction hpath using Relation.ReflTransGen.head_induction_on generalizing fuel way with
  | refl =>
    obtain ⟨l, hl⟩ := h.exists_link hlive hneeds
    exact ⟨.field {} way l, by rw [receiverPath, hl]; simp only [hend]⟩
  | @head a x hlink _ ih =>
    obtain ⟨hlive', hlt⟩ := h.link_spec hlink
    obtain ⟨l, hl⟩ := h.exists_link hlive hlink.2
    cases fuel with
    | zero => exact absurd hlt (by lia)
    | succ fuel =>
      obtain ⟨way', hway⟩ := ih hlive' (show x ≤ fuel by lia) (.field {} way l)
      exact ⟨way', by rw [receiverPath, hl]; simp only [hlink.1]; exact hway⟩

/-! ## Environments and the receiver -/

/-- What the closure of a frame reads from is reached in the frame. -/
theorem envRef_of_frame (hf : site.frame = ctx.frameAt (some c))
    (he : e ∈ (ctx.graph.closure c).envs) : ∃ way, ctx.envRef site e = .ok way := by
  have hc := Graph.lt_of_mem_envs he
  obtain ⟨lm, -, hd, hframe⟩ := h.frameAt_some hc
  rw [envRef]
  split
  · exact ⟨_, rfl⟩
  split
  · rename_i hk
    have hmem : e ∈ lm.envParams.map (·.1) := by
      rw [hd.envParams]
      exact Graph.mem_valueEnvsOf.mpr ⟨he, hk⟩
    obtain ⟨holder, hholder⟩ := exists_lookup hmem
    rw [hf, hframe]
    simp only [hholder]
    exact ⟨_, rfl⟩
  · rename_i hk
    have hk := Bool.eq_false_iff.mpr hk
    obtain ⟨i, hi⟩ := Graph.exists_nearestHost h.chained.placed h.chained.exact h.calls he hk
    have hhost := (h.chained.host c hc).trans hi
    have his := h.chained.isHost h.calls hhost
    obtain ⟨t, ht, rfl⟩ := h.host_frameAt hc hhost
    rw [hf, ht]
    refine h.linkPath_ok (h.chained.linked c _ hhost e he hk) ?_ ?_ t _
    · exact h.chained.placed.isLiveReference_of_mem his.mem his.isReference
    · exact Nat.le_of_lt (h.chained.placed.mem_envs_iff.mp his.mem).1

/-- A closure that captures the receiver reaches it. -/
theorem receiverRef_ok {fr : Option ClosureId} (hf : site.frame = ctx.frameAt fr)
    (hr : m.receiver.isSome = true) (hcap : ∀ c, fr = some c → c < ctx.graph.closures.size ∧
      (ctx.graph.closure c).capturesReceiver = true) :
    ∃ way, ctx.receiverRef site = .ok way := by
  obtain ⟨v, hv⟩ := Option.isSome_iff_exists.mp hr
  rw [receiverRef, h.holds.receiver_eq, hv]
  cases fr with
  | none =>
    rw [hf]
    exact ⟨_, rfl⟩
  | some c =>
    obtain ⟨hc, hcap⟩ := hcap c rfl
    obtain ⟨w, hw, hcw⟩ := (h.chained.exact.capturesReceiver c).mp hcap
    obtain rfl := Option.some.inj (hv.symm.trans hw)
    obtain ⟨lm, -, hd, hframe⟩ := h.frameAt_some hc
    simp only [hf]
    split
    · exact ⟨_, rfl⟩
    rename_i hcond
    cases he : ctx.graph.receiverEnv? with
    | some e =>
      obtain ⟨hlt, hlive, hve⟩ := (h.chained.placed.receiverEnv_eq_some h.holds hv).mp he
      obtain ⟨t, ht, hmem, rfl⟩ := h.declared.typed.typeOf hlt hlive
      have htyped := h.declared.typed.typedAs t hmem
      have hread : t.env ∈ (ctx.graph.closure c).envs :=
        h.chained.placed.mem_envs_iff.mpr
          ⟨hlt, hlive, v, ((h.chained.placed.mem_vars_iff hlt).mp hve).1, hcw⟩
      obtain ⟨way, hway⟩ := h.envRef_of_frame hf hread
      have hheld : ∃ f, (if t.isValue = true then t.field? v else t.link) = some f := by
        by_cases hk : t.isValue = true
        · rw [if_pos hk, htyped.field_eq hve]
          have hk : t.kind = .value := by simpa [EnvType.isValue] using hk
          have hrole : v.isReceiver = true := by
            simp [Variable.isReceiver, h.wellBound.receiver v hv]
          exact ⟨_, by rw [Graph.hoistedField?.eq_def, if_pos hrole, hk]⟩
        · rw [if_neg hk]
          have hk : (ctx.graph.env t.env).isValue = false := by
            rw [EnvType.isValue, htyped.kind] at hk
            exact Bool.eq_false_iff.mpr hk
          obtain ⟨i, hi⟩ :=
            Graph.exists_nearestHost h.chained.placed h.chained.exact h.calls hread hk
          have hneeds := h.chained.receiver c i ((h.chained.host c hc).trans hi) hcap _ he hk
          exact Option.isSome_iff_exists.mp (htyped.link.trans hneeds)
      obtain ⟨f, hf'⟩ := hheld
      simp only [ht, hf', hway]
      exact ⟨_, rfl⟩
    | none =>
      cases hi : (ctx.graph.closure c).host with
      | some i =>
        obtain ⟨t, ht, rfl⟩ := h.host_frameAt hc hi
        obtain ⟨b, hpath, hend, hneeds⟩ := h.chained.receiverLink c _ hi hcap he
        have his := h.chained.isHost h.calls hi
        simp only [ht]
        refine h.receiverPath_ok hpath ?_ hend hneeds ?_ t _
        · exact h.chained.placed.isLiveReference_of_mem his.mem his.isReference
        · exact Nat.le_of_lt (h.chained.placed.mem_envs_iff.mp his.mem).1
      | none =>
        -- then the method is not static and has the receiver itself
        refine absurd ?_ hcond
        rw [hframe, hd.isStatic, hd.host]
        simp [hi, hcap, he]

end Fits

/-! ## Places -/

/-- The place `site` is in scope `s`, whose environment is created. -/
structure At (ctx : LoweringContext) (s : ScopeId) (site : Site) : Prop where
  frame : site.frame = ctx.frameAt (ctx.graph.frame? s)
  innermost : site.innermost =
    (ctx.graph.liveReferenceEnv? s).or (ctx.graph.surroundingEnv? (ctx.graph.ancestors s))
  locals : ∀ e < ctx.graph.envs.size, (ctx.graph.env e).removed = false →
    (ctx.graph.env e).scope ∈ ctx.graph.ancestors s →
    ctx.graph.frame? (ctx.graph.env e).scope = ctx.graph.frame? s →
    ∃ holder, site.locals.lookup e = some holder

/-- The place `site` is where scope `s` begins. -/
structure Enters (ctx : LoweringContext) (s : ScopeId) (site : Site) : Prop where
  frame : site.frame = ctx.frameAt (ctx.graph.frame? s)
  innermost : site.innermost = ctx.graph.surroundingEnv? (ctx.graph.ancestors s)
  locals : ∀ e < ctx.graph.envs.size, (ctx.graph.env e).removed = false →
    (ctx.graph.env e).scope ∈ ctx.graph.ancestors s → (ctx.graph.env e).scope ≠ s →
    ctx.graph.frame? (ctx.graph.env e).scope = ctx.graph.frame? s →
    ∃ holder, site.locals.lookup e = some holder

theorem frame_locate (site : Site) (loc : Loc) : (site.locate loc).frame = site.frame := by
  rw [Site.locate]
  split <;> rfl

theorem innermost_locate (site : Site) (loc : Loc) :
    (site.locate loc).innermost = site.innermost := by
  rw [Site.locate]
  split <;> rfl

theorem locals_locate (site : Site) (loc : Loc) : (site.locate loc).locals = site.locals := by
  rw [Site.locate]
  split <;> rfl

theorem At.locate (hat : ctx.At s site) (loc : Loc) : ctx.At s (site.locate loc) :=
  ⟨(frame_locate site loc).trans hat.frame, (innermost_locate site loc).trans hat.innermost,
    locals_locate site loc ▸ hat.locals⟩

namespace Fits

variable (h : ctx.Fits m)

include h

/-- Where the method being converted begins. -/
theorem enters_root : ctx.Enters Graph.root { frame := { isStatic := ctx.method.isStatic } } where
  frame := by rw [Graph.frame_root h.holds]; rfl
  innermost := by
    rw [h.holds.ancestors_root, Graph.surroundingEnv_singleton h.holds.root_owner]
  locals e _ _ hmem hne := by
    rw [h.holds.ancestors_root, List.mem_singleton] at hmem
    exact absurd hmem hne

/-- Where the method of a closure begins. -/
theorem enters_body (hc : c < ctx.graph.closures.size) {lm : LoweredMethod}
    (hlm : ctx.declarations.methodOf? c = some lm) (loc : Loc) :
    ctx.Enters (ctx.graph.closure c).body (ctx.methodSite lm loc) where
  frame := by rw [Graph.frame_body h.holds hc, frameAt, hlm]; rfl
  innermost := by
    rw [Graph.ancestors, Graph.surroundingEnv_of_owner (h.holds.owner_eq_some.mpr ⟨hc, rfl⟩)]
    exact (h.declared.declared c lm hlm).host
  locals e _ _ hmem hne hframe := by
    rw [Graph.frame_body h.holds hc] at hframe
    exact absurd (Graph.ancestors_antisymm hmem (Graph.lt_of_frame h.holds hframe).2) hne

/-- A block inside a scope begins in the same frame. -/
theorem enters_block {b : Block} (hn : (p, n) ∈ m.numbered.sites) (hb : n.opened? = some b)
    (hnested : n.nested? = none) (hat : ctx.At p.scope site) : ctx.Enters b.id site := by
  have howner := ((h.holds.lays p n hn).scope b hb).owner hnested
  have hchain := h.holds.ancestors_opened hn hb
  have hframe := Graph.frame_of_isNone howner hchain
  constructor
  case frame => rw [hframe, hat.frame]
  case innermost =>
    obtain ⟨rest, hrest⟩ : ∃ rest, ctx.graph.ancestors p.scope = p.scope :: rest :=
      ⟨_, Graph.ancestors.eq_def ctx.graph p.scope⟩
    rw [hchain, hrest, Graph.surroundingEnv_of_isNone howner, ← hrest, hat.innermost]
  case locals =>
    intro e he hlive hmem hne heq
    rw [hchain, List.mem_cons] at hmem
    exact hat.locals e he hlive (hmem.resolve_left hne) (heq.trans hframe)

/-- In a scope every environment around is reached, if the closure of the frame reads from those
outside it. -/
theorem envRef_ok (hat : ctx.At s site) (he : e < ctx.graph.envs.size)
    (hlive : (ctx.graph.env e).removed = false)
    (hmem : (ctx.graph.env e).scope ∈ ctx.graph.ancestors s)
    (hread : ∀ c, ctx.graph.frame? s = some c →
      (ctx.graph.closure c).body ∉ ctx.graph.ancestors (ctx.graph.env e).scope →
      e ∈ (ctx.graph.closure c).envs) : ∃ way, ctx.envRef site e = .ok way := by
  rcases Graph.frame_eq_or h.holds hmem with hframe | ⟨c, hc, hout⟩
  · obtain ⟨holder, hholder⟩ := hat.locals e he hlive hmem hframe
    exact ⟨.ref {} (some holder), by rw [envRef, hholder]⟩
  · exact h.envRef_of_frame (hc ▸ hat.frame) (hread c hc hout)

/-- The receiver is reached wherever it is referred to. -/
theorem receiverRef_of_self {loc : Loc} {type : String}
    (hn : (p, .expr (.self loc type)) ∈ m.numbered.sites) (hat : ctx.At p.scope site) :
    ∃ way, ctx.receiverRef site = .ok way := by
  obtain ⟨v, a, hv, -⟩ := (h.chained.exact.resolved _ hn).reference _ rfl
  rw [h.holds.receiver_eq] at hv
  refine h.receiverRef_ok hat.frame (by rw [hv]; rfl) fun c hc => ?_
  have hclt := (Graph.lt_of_frame h.holds hc).1
  refine ⟨hclt, (h.chained.exact.capturesReceiver c).mpr ⟨v, hv, ?_⟩⟩
  refine h.chained.exact.captured_of_reference hn (by rw [← hv]; rfl) hc
    (h.holds.receiver_mem_root hv) ?_
  rw [h.holds.ancestors_root, List.mem_singleton]
  exact h.holds.body_ne_root hclt

/-- A variable that is referred to is reached. -/
theorem variableRef_ok {loc : Loc} (hn : (p, .expr (.ref loc (some v))) ∈ m.numbered.sites)
    (hat : ctx.At p.scope site) (aliases : List (Variable × Variable)) :
    ∃ e, ctx.variableRef site aliases v = .ok e := by
  obtain ⟨w, a, hw, ha, henc⟩ := (h.chained.exact.resolved _ hn).reference (some v) rfl
  obtain rfl := Option.some.inj hw
  have hmem := h.holds.ranked.encloses_iff_mem.mp henc
  have hva := h.holds.declaringScope_eq_some.mp ha
  rw [variableRef]
  cases he : ctx.graph.envOf? v with
  | none => exact ⟨_, rfl⟩
  | some e =>
    obtain ⟨hlt, hlive, hve⟩ := (h.chained.placed.envOf_eq_some h.holds).mp he
    obtain ⟨hscope, -⟩ := (h.chained.placed.mem_vars_iff hlt).mp hve
    obtain rfl := h.holds.tidy.vars_unique _ _ v hva hscope
    obtain ⟨t, ht, htmem, rfl⟩ := h.declared.typed.typeOf hlt hlive
    have hfield : ∃ f, t.field? v = some f := by
      rw [(h.declared.typed.typedAs t htmem).field_eq hve, Graph.hoistedField?.eq_def, if_neg]
      · exact ⟨_, rfl⟩
      · intro hrole
        obtain ⟨q, hq, -⟩ := h.holds.declares_of_mem_vars hva
        exact h.wellBound.nodes _ hn v rfl (h.wellBound.receiverUnique q v hq hrole)
    obtain ⟨f, hf⟩ := hfield
    obtain ⟨way, hway⟩ := h.envRef_ok hat hlt hlive hmem fun c hc hout =>
      h.chained.placed.mem_envs_iff.mpr
        ⟨hlt, hlive, v, hva, h.chained.exact.captured_of_reference hn rfl hc hva hout⟩
    simp only [ht, Option.bind_some, hf, hway]
    exact ⟨_, rfl⟩

/-- A hoisted variable is reached where it is declared. -/
theorem variableRef_of_declared (hn : (p, n) ∈ m.numbered.sites) (hv : n.declared? = some v)
    (hat : ctx.At p.scope site) (aliases : List (Variable × Variable)) :
    ∃ e, ctx.variableRef site aliases v = .ok e := by
  have hva := h.holds.mem_vars_of_declares (.statement hn hv)
  rw [variableRef]
  cases he : ctx.graph.envOf? v with
  | none => exact ⟨_, rfl⟩
  | some e =>
    obtain ⟨hlt, hlive, hve⟩ := (h.chained.placed.envOf_eq_some h.holds).mp he
    obtain ⟨hscope, -⟩ := (h.chained.placed.mem_vars_iff hlt).mp hve
    have hp := h.holds.tidy.vars_unique _ _ v hscope hva
    obtain ⟨t, ht, htmem, rfl⟩ := h.declared.typed.typeOf hlt hlive
    have hfield : ∃ f, t.field? v = some f := by
      rw [(h.declared.typed.typedAs t htmem).field_eq hve, Graph.hoistedField?.eq_def, if_neg]
      · exact ⟨_, rfl⟩
      · simp [Variable.isReceiver, h.wellBound.role_declared hn hv]
    obtain ⟨f, hf⟩ := hfield
    obtain ⟨way, hway⟩ := h.envRef_ok hat hlt hlive (hp ▸ ctx.graph.self_mem_ancestors _)
      fun c hc hout => absurd (Graph.lt_of_frame h.holds hc).2 (hp ▸ hout)
    simp only [ht, Option.bind_some, hf, hway]
    exact ⟨_, rfl⟩

/-! ## Calls -/

variable (hn : (p, n) ∈ m.numbered.sites) (hd : d < ctx.graph.closures.size)
  (hf : n.function? = some (ctx.graph.closure d).function ∨
    n.use? = some (some (ctx.graph.closure d).function))

include hn hd hf

/-- A closure captures what it needs for the functions it contains, calls or names. -/
theorem captured_of_use (hc : ctx.graph.frame? p.scope = some c)
    (hv : v ∈ (ctx.graph.closure d).captured) (hs : v ∈ (ctx.graph.scope s).vars)
    (hout : (ctx.graph.closure c).body ∉ ctx.graph.ancestors s) :
    v ∈ (ctx.graph.closure c).captured := by
  have hclt := (Graph.lt_of_frame h.holds hc).1
  rw [h.holds.frame_eq (MethodBody.leads_of_mem_sites hn)] at hc
  obtain ⟨f, hhead, hfc⟩ := Option.bind_eq_some_iff.mp hc
  obtain ⟨-, rfl⟩ := h.holds.closureOf_eq_some.mp hfc
  exact h.chained.exact.captured_of_dependsOn hclt hd ⟨p, n, hn, hhead, hf⟩ hv
    (h.chained.exact.bodyDeclares_eq_false hs hout)

/-- What a function reads from is reached wherever the function stands, is called or named. -/
theorem envRef_of_use (hat : ctx.At p.scope site) (he : e ∈ (ctx.graph.closure d).envs) :
    ∃ way, ctx.envRef site e = .ok way := by
  obtain ⟨hlt, hlive, v, hv, hcap⟩ := h.chained.placed.mem_envs_iff.mp he
  have hmem := Graph.mem_ancestors_trans
    (h.chained.placed.scope_mem_ancestors_home h.chained.exact h.calls he)
    (h.chained.exact.home_mem_of_use h.calls hn hd hf)
  refine h.envRef_ok hat hlt hlive hmem fun c hc hout => ?_
  exact h.chained.placed.mem_envs_iff.mpr
    ⟨hlt, hlive, v, hv, h.captured_of_use hn hd hf hc hcap hv hout⟩

theorem callReceiver_ok {lm : LoweredMethod} (hat : ctx.At p.scope site)
    (hlm : ctx.declarations.methodOf? d = some lm) :
    ∃ r, ctx.callReceiver site lm = .ok r := by
  have hdecl := h.declared.declared d lm hlm
  rw [callReceiver, hdecl.host]
  cases hi : (ctx.graph.closure d).host with
  | some i =>
    obtain ⟨way, hway⟩ := h.envRef_of_use hn hd hf hat (h.chained.isHost h.calls hi).mem
    exact ⟨some way, by simp only [hway]; rfl⟩
  | none =>
    by_cases hstatic : lm.symbol.isStatic = true
    · exact ⟨none, by simp [hstatic]⟩
    · -- the method has the receiver, so the function captures it
      have hcap : (ctx.graph.closure d).capturesReceiver = true := by
        rw [hdecl.isStatic, hi] at hstatic
        by_contra hno
        simp [hno] at hstatic
      obtain ⟨v, hv, hcv⟩ := (h.chained.exact.capturesReceiver d).mp hcap
      obtain ⟨way, hway⟩ := h.receiverRef_ok hat.frame (by rw [hv]; rfl) fun c hc => by
        have hclt := (Graph.lt_of_frame h.holds hc).1
        refine ⟨hclt, (h.chained.exact.capturesReceiver c).mpr ⟨v, hv, ?_⟩⟩
        refine h.captured_of_use hn hd hf hc hcv (h.holds.receiver_mem_root hv) ?_
        rw [h.holds.ancestors_root, List.mem_singleton]
        exact h.holds.body_ne_root hclt
      exact ⟨some way, by simp only [hstatic, hway]; rfl⟩

theorem envArgs_ok {lm : LoweredMethod} (hat : ctx.At p.scope site)
    (hlm : ctx.declarations.methodOf? d = some lm) :
    ∃ es, (lm.envParams.mapM fun q => ctx.envRef site q.1) = .ok es := by
  refine mapM_ok fun q hq => h.envRef_of_use hn hd hf hat ?_
  have hmem : q.1 ∈ lm.envParams.map (·.1) := List.mem_map_of_mem hq
  rw [(h.declared.declared d lm hlm).envParams] at hmem
  exact (Graph.mem_valueEnvsOf.mp hmem).1

end Fits

/-! ## Creating environments -/

namespace Fits

variable (h : ctx.Fits m)

include h

/-- What surrounds a place from outside its frame is the host of the closure of the frame. -/
theorem host_of_surroundingEnv (hq : ctx.graph.surroundingEnv? (ctx.graph.ancestors s) = some e)
    (hc : ctx.graph.frame? s = some c)
    (hout : (ctx.graph.closure c).body ∉ ctx.graph.ancestors (ctx.graph.env e).scope) :
    (ctx.graph.closure c).host = some e := by
  induction s using Nat.strongRecOn with
  | ind s ih =>
    cases hs : (ctx.graph.scope s).owner with
    | some d =>
      rw [Graph.ancestors, Graph.surroundingEnv_of_owner hs] at hq
      rw [Graph.frame?, Graph.ancestors, List.findSome?_cons, hs] at hc
      rwa [← Option.some.inj hc]
    | none =>
      rcases ctx.graph.ancestors_cases s with hsingle | ⟨p, rest, hlt, hcons, hp⟩
      · rw [hsingle, Graph.surroundingEnv_singleton hs] at hq
        cases hq
      · have hframe := Graph.frame_of_isNone hs (hp ▸ hcons)
        rw [hcons, Graph.surroundingEnv_of_isNone hs, ← hp, Option.or_eq_some_iff] at hq
        rcases hq with hq | ⟨-, hq⟩
        · obtain ⟨rfl, -⟩ := h.chained.placed.liveReferenceEnv_eq_some.mp hq
          exact absurd (Graph.lt_of_frame h.holds (hframe ▸ hc)).2 hout
        · exact ih p hlt hq (hframe ▸ hc)

/-- What surrounds a new environment is reached where it is created: it was created in the frame
or hosts the closure of the frame, and if it is the receiver then the closure captures it. -/
theorem storeParent_ok {t : EnvType} (hent : ctx.Enters s site)
    (hs : (ctx.graph.scope s).env = some e) (ht : t ∈ ctx.declarations.types) (hte : t.env = e)
    (holder : Variable) : ∃ stmts, ctx.storeParent site e t holder = .ok stmts := by
  obtain ⟨hlt, hscope, hlive⟩ := (h.chained.placed.scope_env s e).mp hs
  rw [storeParent]
  cases hl : t.link with
  | none => exact ⟨[], rfl⟩
  | some l =>
    have hneeds : (ctx.graph.env e).needsParent = true := by
      rw [← hte, ← (h.declared.typed.typedAs t ht).link, hl]
      rfl
    have hparent : ctx.graph.runtimeParent? e = site.innermost := by
      rw [Graph.runtimeParent?, hscope, hent.innermost]
    simp only [hparent, if_true]
    cases hin : site.innermost with
    | some q =>
      have hq : ctx.graph.surroundingEnv? (ctx.graph.ancestors s) = some q :=
        hent.innermost.symm.trans hin
      obtain ⟨hqlive, hqmem, hqlt⟩ := h.chained.surroundingEnv_spec h.calls hq
      have hway : ∃ way, ctx.envRef site q = .ok way := by
        rcases Graph.frame_eq_or h.holds hqmem with hframe | ⟨c, hc, hout⟩
        · obtain ⟨holder', hholder⟩ := hent.locals q (Graph.lt_of_isLiveReference hqlive)
            (Graph.removed_of_isLiveReference hqlive) hqmem (Nat.ne_of_lt hqlt) hframe
          exact ⟨.ref {} (some holder'), by rw [envRef, hholder]⟩
        · have hhost := h.host_of_surroundingEnv hq hc hout
          exact h.envRef_of_frame (hc ▸ hent.frame) (h.chained.isHost h.calls hhost).mem
      obtain ⟨way, hway⟩ := hway
      simp only [hway]
      exact ⟨_, rfl⟩
    | none =>
      have hway : ∃ way, ctx.receiverRef site = .ok way := by
        rcases h.chained.marked e hneeds with ⟨i, hne, hv⟩ | ⟨hr, hall⟩
        · have hne' : (ctx.graph.env i).scope ≠ (ctx.graph.env e).scope := fun heq =>
            hne (h.chained.placed.scope_inj (Graph.lt_of_isLiveReference hv.live) hlt heq)
          obtain ⟨q, hq, -⟩ := Graph.surroundingEnv_of_visible h.chained.placed h.chained.exact
            h.calls (fun d hd _ => h.chained.host d hd) hv hne'
          rw [hscope, ← hent.innermost, hin] at hq
          cases hq
        · refine h.receiverRef_ok hent.frame hr fun c hc => ?_
          obtain ⟨hclt, hbody⟩ := Graph.lt_of_frame h.holds hc
          exact ⟨hclt, hall c hclt (hscope ▸ hbody)⟩
      obtain ⟨way, hway⟩ := hway
      simp only [hway]
      exact ⟨_, rfl⟩

/-- What a new environment takes over is reached where it is created. -/
theorem storeVariable_ok {t : EnvType} (hent : ctx.Enters s site)
    (hv : v ∈ (ctx.graph.scope s).vars) (aliases : List (Variable × Variable)) (holder : Variable) :
    ∃ stmts, ctx.storeVariable site aliases t holder v = .ok stmts := by
  rw [storeVariable]
  split
  · -- only the receiver has its role, and it belongs to the outermost scope
    rename_i hrole _
    obtain ⟨q, hq, -⟩ := h.holds.declares_of_mem_vars hv
    have hr := h.wellBound.receiverUnique q v hq (by simp [Variable.isReceiver, hrole])
    obtain rfl := h.holds.tidy.vars_unique _ _ v hv (h.holds.receiver_mem_root hr)
    obtain ⟨way, hway⟩ := h.receiverRef_ok hent.frame (by rw [hr]; rfl) fun c hc => by
      rw [Graph.frame_root h.holds] at hc
      cases hc
    exact ⟨_, by simp only [hway]; rfl⟩
  · exact ⟨_, rfl⟩
  · exact ⟨_, rfl⟩

/-- An environment can be created where its scope begins. -/
theorem createEnv_ok {t : EnvType} (hent : ctx.Enters s site)
    (hs : (ctx.graph.scope s).env = some e) (ht : t ∈ ctx.declarations.types) (hte : t.env = e)
    (aliases : List (Variable × Variable)) (holder : Variable) :
    ∃ created site', ctx.createEnv site aliases e t holder = .ok (created, site') ∧
      ctx.At s site' := by
  obtain ⟨hlt, hscope, hlive⟩ := (h.chained.placed.scope_env s e).mp hs
  obtain ⟨parent, hparent⟩ := h.storeParent_ok hent hs ht hte holder
  obtain ⟨stores, hstores⟩ : ∃ stores, ((ctx.graph.env e).vars.toList.mapM
      (ctx.storeVariable site aliases t holder)) = .ok stores := mapM_ok fun v hv =>
    h.storeVariable_ok hent (hscope ▸ ((h.chained.placed.mem_vars_iff hlt).mp hv).1) aliases holder
  refine ⟨_, _, by rw [createEnv, hparent, hstores]; rfl, ?_⟩
  refine ⟨hent.frame, ?_, fun i hi hil hmem heq => ?_⟩
  · have hlref : ctx.graph.liveReferenceEnv? s =
        if (ctx.graph.env e).isValue then none else some e := by
      rw [Graph.liveReferenceEnv?, hs]
      cases hk : (ctx.graph.env e).isValue <;>
        simp [Environment.isLiveReference, hk, hlive, Option.filter]
    rw [hlref]
    split
    · exact hent.innermost
    · rfl
  · by_cases hie : i = e
    · exact ⟨holder, by simp [hie]⟩
    · have hne : (ctx.graph.env i).scope ≠ s := fun his =>
        hie (h.chained.placed.scope_inj hi hlt (his.trans hscope.symm))
      obtain ⟨holder', hholder⟩ := hent.locals i hi hil hmem hne heq
      refine ⟨holder', ?_⟩
      rw [List.lookup_cons, beq_false_of_ne hie]
      exact hholder

/-- A scope without an environment begins with nothing. -/
theorem at_of_enters (hent : ctx.Enters s site) (hs : (ctx.graph.scope s).env = none) :
    ctx.At s site where
  frame := hent.frame
  innermost := by rw [Graph.liveReferenceEnv?, hs]; exact hent.innermost
  locals e he hlive hmem hframe := by
    refine hent.locals e he hlive hmem (fun hscope => ?_) hframe
    rw [(h.chained.placed.scope_env s e).mpr ⟨he, hscope, hlive⟩] at hs
    cases hs

end Fits

end LoweringContext

end Unnest

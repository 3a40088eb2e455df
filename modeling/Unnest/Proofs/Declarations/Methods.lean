import Unnest.Declarations.Verify
import Unnest.Proofs.Declarations.Types

/-!
# Methods of nested functions

`Graph.DeclaredAs` says what the method declared for a closure looks like. Declaring the methods of
a graph one after the other succeeds: a host is live and has a type, and values are handed over only
to functions that may take references, since otherwise their environment would live on the heap. The
declarations then pass their check.

## Main statements

* `DeclarationDraft.declareMethods_eq` : all methods are declared.
* `DeclarationDraft.declareAll_eq` : everything is declared, up to the check for stored values.
* `Declarations.Declared.defect_eq_none` : declarations that store no value have no defect.
-/

namespace Unnest

variable {g g' g'' : Graph} {m : MethodBody} {method : Method} {d : Declarations} {c : ClosureId}
  {e : EnvId} {lm : LoweredMethod}

/-! ## Parameters chosen for closures -/

namespace Graph

/-- The graphs differ only in the parameters chosen for closures. -/
structure SameExceptParams (g g' : Graph) : Prop where
  body : g'.body = g.body
  scopes : g'.scopes = g.scopes
  envs : g'.envs = g.envs
  size : g'.closures.size = g.closures.size
  closure : ∀ c, ∃ ps, g'.closure c = { g.closure c with envParams := ps }

namespace SameExceptParams

theorem refl (g : Graph) : SameExceptParams g g := ⟨rfl, rfl, rfl, rfl, fun _ => ⟨_, rfl⟩⟩

theorem symm (h : SameExceptParams g g') : SameExceptParams g' g where
  body := h.body.symm
  scopes := h.scopes.symm
  envs := h.envs.symm
  size := h.size.symm
  closure c := by
    obtain ⟨ps, hps⟩ := h.closure c
    exact ⟨(g.closure c).envParams, by rw [hps]⟩

theorem setParams (h : SameExceptParams g g') (c : ClosureId) (ps : List EnvId) :
    SameExceptParams g (g'.modifyClosure c fun cl => { cl with envParams := ps }) where
  body := h.body
  scopes := h.scopes
  envs := h.envs
  size := (size_closures_modifyClosure _ _ _).trans h.size
  closure d := by
    obtain ⟨qs, hqs⟩ := h.closure d
    rw [closure_modifyClosure, hqs]
    split
    · exact ⟨ps, rfl⟩
    · exact ⟨qs, rfl⟩

variable (h : SameExceptParams g g')

include h

theorem proj {α : Type} (proj : Closure → α)
    (hproj : ∀ cl ps, proj { cl with envParams := ps } = proj cl) (c : ClosureId) :
    proj (g'.closure c) = proj (g.closure c) := by
  obtain ⟨ps, hps⟩ := h.closure c
  rw [hps, hproj]

theorem scope (s : ScopeId) : g'.scope s = g.scope s := by rw [Graph.scope, h.scopes, Graph.scope]

theorem env (e : EnvId) : g'.env e = g.env e := by rw [Graph.env, h.envs, Graph.env]

theorem sameCaptures : SameCaptures g g' := by
  refine ⟨?_, fun c => h.proj _ (fun _ _ => rfl) c, fun c => h.proj _ (fun _ _ => rfl) c,
    fun c => h.proj _ (fun _ _ => rfl) c⟩
  exact shape_of_entries h.body (by rw [h.scopes]) (fun s => by rw [h.scope]) h.size
    fun c => h.proj _ (fun _ _ => rfl) c

theorem receiverEnv : g'.receiverEnv? = g.receiverEnv? :=
  receiverEnv_congr h.sameCaptures.shape (fun s => by rw [h.scope]) fun e => by simp [h.env]

theorem runtimeParent (hh : g.Holds m) (e : EnvId) : g'.runtimeParent? e = g.runtimeParent? e :=
  runtimeParent_congr hh h.sameCaptures.shape (fun s => by rw [h.scope]) (fun e => by simp [h.env])
    fun d _ _ => h.proj Closure.host (fun _ _ => rfl) d

theorem valueEnvsOf (c : ClosureId) :
    g'.valueEnvsOf (g'.closure c) = g.valueEnvsOf (g.closure c) := by
  simp only [Graph.valueEnvsOf, h.scope, h.env, h.proj Closure.envs fun _ _ => rfl]

/-- The parameters do not matter to hosts. -/
theorem seated (hs : g.Seated m) : g'.Seated m where
  exact := h.sameCaptures.exact hs.exact
  placed := hs.placed.of_eq h.sameCaptures (fun s => by rw [h.scope]) (by rw [h.envs])
    (fun e => by simp [h.env]) fun c => h.proj Closure.envs (fun _ _ => rfl) c
  host c e he := by
    rw [h.proj Closure.host fun _ _ => rfl] at he
    rw [h.env, ancestors_of_shape h.sameCaptures.shape, home_of_shape h.sameCaptures.shape]
    exact hs.host c e he
  env_closures e c := by
    rw [h.env, h.proj Closure.host fun _ _ => rfl]
    exact hs.env_closures e c
  removed e he := by
    rw [h.env] at he ⊢
    exact hs.removed e he

/-- The parameters do not matter to chains. -/
theorem chained (hc : g.Chained m) : g'.Chained m := by
  have hcap := h.sameCaptures
  have hhost (c : ClosureId) := h.proj Closure.host (fun _ _ => rfl) c
  have henvs (c : ClosureId) := h.proj Closure.envs (fun _ _ => rfl) c
  have hlink {a b : EnvId} (hab : Relation.ReflTransGen g.Link a b) :
      Relation.ReflTransGen g'.Link a b :=
    Relation.ReflTransGen.mono (fun a b hab => ⟨(h.runtimeParent hc.exact.holds a).trans hab.1,
      by rw [h.env]; exact hab.2⟩) _ _ hab
  constructor
  case exact => exact hcap.exact hc.exact
  case placed =>
    exact hc.placed.of_eq hcap (fun s => by rw [h.scope]) (by rw [h.envs])
      (fun e => by simp [h.env]) henvs
  case host =>
    intro c hlt
    rw [hhost, hc.host c (h.size ▸ hlt)]
    exact (nearestHost_congr hcap.shape (fun s => by rw [h.scope]) (fun e => by rw [h.env])
      (henvs c)).symm
  case env_closures =>
    intro e c
    rw [h.env, hhost]
    exact hc.env_closures e c
  case linked =>
    intro c i hi e he hk
    rw [hhost] at hi
    rw [henvs] at he
    rw [h.env] at hk
    exact hlink (hc.linked c i hi e he hk)
  case receiver =>
    intro c i hi hcap' r hr hk
    rw [hhost] at hi
    rw [hcap.capturesReceiver] at hcap'
    rw [h.receiverEnv] at hr
    rw [h.env] at hk ⊢
    exact hc.receiver c i hi hcap' r hr hk
  case receiverLink =>
    intro c i hi hcap' hnone
    rw [hhost] at hi
    rw [hcap.capturesReceiver] at hcap'
    rw [h.receiverEnv] at hnone
    obtain ⟨e, hpath, hparent, hneeds⟩ := hc.receiverLink c i hi hcap' hnone
    exact ⟨e, hlink hpath, (h.runtimeParent hc.exact.holds e).trans hparent, by rwa [h.env]⟩
  case marked =>
    intro e he
    rw [h.env] at he
    rcases hc.marked e he with ⟨t, hne, hv⟩ | ⟨hr, hall⟩
    · rw [h.env]
      exact .inl ⟨t, hne, hv.of_eq hcap.shape (by rw [h.env]) (by rw [h.env])
        fun d hd => by rwa [henvs]⟩
    · refine .inr ⟨hr, fun d hd hbody => ?_⟩
      rw [bodyScope_of_shape hcap.shape, h.env, ancestors_of_shape hcap.shape] at hbody
      rw [hcap.capturesReceiver]
      exact hall d (h.size ▸ hd) hbody
  case removed =>
    intro e he
    rw [h.env] at he ⊢
    exact hc.removed e he

end SameExceptParams

end Graph

/-! ## Parameters of methods -/

namespace Supply

theorem map_fst_copyParams (spell : String → String) (ps : List Variable) (s : Supply) :
    (s.copyParams spell ps).1.map (·.1) = ps := by
  induction ps generalizing s with
  | nil => rfl
  | cons p ps ih => exact congrArg (p :: ·) (ih _)

theorem of_mem_copyParams {spell : String → String} {ps : List Variable} {s : Supply}
    {p : Variable × Variable} (h : p ∈ (s.copyParams spell ps).1) :
    p.2.type = spell p.1.type ∧ p.2.byRef = false ∧ ∃ n, p.2.id = .copy n p.1.id := by
  induction ps generalizing s with
  | nil => exact absurd h List.not_mem_nil
  | cons q ps ih =>
    rcases List.mem_cons.mp h with rfl | h
    · exact ⟨rfl, rfl, s.vars, rfl⟩
    · exact ih h

theorem map_fst_holderParams (type : EnvId → String) (es : List EnvId) (s : Supply) :
    (s.holderParams type es).1.map (·.1) = es := by
  induction es generalizing s with
  | nil => rfl
  | cons e es ih => exact congrArg (e :: ·) (ih _)

theorem of_mem_holderParams {type : EnvId → String} {es : List EnvId} {s : Supply}
    {p : EnvId × Variable} (h : p ∈ (s.holderParams type es).1) :
    p.2.type = type p.1 ∧ p.2.byRef = true ∧ ∃ n, p.2.id = .holder n p.1 := by
  induction es generalizing s with
  | nil => exact absurd h List.not_mem_nil
  | cons e es ih =>
    rcases List.mem_cons.mp h with rfl | h
    · exact ⟨rfl, rfl, s.vars, rfl⟩
    · exact ih h

end Supply

namespace Graph

theorem mem_valueEnvsOf : e ∈ g.valueEnvsOf (g.closure c) ↔
    e ∈ (g.closure c).envs ∧ (g.env e).isValue = true := by
  rw [valueEnvsOf, List.mem_mergeSort, List.mem_filter]
  rfl

theorem nodup_valueEnvsOf (g : Graph) (cl : Closure) : (g.valueEnvsOf cl).Nodup :=
  (List.mergeSort_perm _ _).nodup_iff.mpr (cl.envs.nodup.filter _)

/-- Method `lm` is declared for closure `c`; its body is still missing. -/
structure DeclaredAs (g : Graph) (c : ClosureId) (lm : LoweredMethod) : Prop where
  id : lm.symbol.id = .lowered c
  closure : lm.closure = c
  host : lm.host = (g.closure c).host
  isStatic : lm.symbol.isStatic = ((g.closure c).host.isNone &&
    !((g.closure c).capturesReceiver && g.receiverEnv?.isNone))
  copies : lm.copies.reverse.map (·.1) = (g.closure c).function.params.reduceOption
  copy : ∀ p ∈ lm.copies, p.2.byRef = false ∧ ∃ n, p.2.id = .copy n p.1.id
  envParams : lm.envParams.map (·.1) = g.valueEnvsOf (g.closure c)
  holder : ∀ p ∈ lm.envParams, p.2.byRef = true ∧ ∃ n, p.2.id = .holder n p.1
  params : lm.symbol.params = (lm.copies.reverse.map (·.2) ++ lm.envParams.map (·.2)).map some
  takesReferences : lm.envParams ≠ [] → (g.closure c).takesReferences = true
  body : lm.body = none

/-- A closure that reads from a value may take references. -/
theorem Placed.takesReferences (hp : g.Placed) (he : e ∈ (g.closure c).envs)
    (hk : (g.env e).isValue = true) : (g.closure c).takesReferences = true := by
  obtain ⟨hlt, -, hreads⟩ := (hp.closure_envs c e).mp he
  have hkind := hp.kind e hlt
  simp only [Environment.isValue, decide_eq_true_eq] at hk
  rw [hk, envKindFor] at hkind
  split at hkind
  · rename_i hall
    have := (g.closures_all _).mp hall c (lt_of_mem_envs he)
    simpa [hreads] using this
  · cases hkind

end Graph

theorem Declarations.methodOf_push {new : LoweredMethod}
    (h : (d.push new).methodOf? c = some lm) :
    d.methodOf? c = some lm ∨ c = d.methods.length ∧ lm = new := by
  rw [methodOf?, push, List.getElem?_append] at h
  split at h
  · exact .inl h
  · rw [List.getElem?_singleton] at h
    split at h
    · exact .inr ⟨by lia, (Option.some.inj h).symm⟩
    · cases h

/-- The method belongs to the type of its host, or else to the enclosing type. -/
def Declarations.Owns (d : Declarations) (method : Method) (lm : LoweredMethod) : Prop :=
  lm.symbol.owner = (lm.host.map d.typeName).getD method.owner

theorem Declarations.Owns.push {new : LoweredMethod} (h : d.Owns method lm) :
    (d.push new).Owns method lm := by
  rwa [Owns, funext (d.typeName_push new)]

/-- A type of the source as it is spelled in a method that is hosted on an environment type, or in
one of the enclosing type. -/
def Method.spell (method : Method) (hosted : Bool) (type : String) : String :=
  if hosted then TypeName.renameParams method.typeParams type else type

/-- The type arguments of environment types there. -/
def Method.typeArgs (method : Method) (hosted : Bool) : List String :=
  if hosted then method.typeParams.map TypeName.renamedParam else method.typeParams

/-- The types in the signature are those of the nested function `fn`, spelled for the type that has
the method, and those of environments. -/
structure Declarations.Signs (d : Declarations) (method : Method) (fn : NestedFunction)
    (lm : LoweredMethod) : Prop where
  typeParams : lm.symbol.typeParams = if lm.host.isSome then [] else method.typeParams
  returnType : lm.symbol.returnType = method.spell lm.host.isSome fn.returnType
  copy : ∀ p ∈ lm.copies, p.2.type = method.spell lm.host.isSome p.1.type
  holder : ∀ p ∈ lm.envParams,
    p.2.type = TypeName.reference (d.typeName p.1) (method.typeArgs lm.host.isSome)

theorem Declarations.Signs.push {fn : NestedFunction} {new : LoweredMethod}
    (h : d.Signs method fn lm) : (d.push new).Signs method fn lm :=
  ⟨h.typeParams, h.returnType, h.copy, fun p hp => (d.typeName_push new p.1).symm ▸ h.holder p hp⟩

namespace DeclarationDraft

variable {s : DeclarationDraft}

/-- The methods of the closures before `k` are declared. -/
structure DeclaredTo (k : Nat) (g : Graph) (method : Method) (s : DeclarationDraft) : Prop where
  graph : g.SameExceptParams s.graph
  typed : s.declarations.Typed g method
  length : s.declarations.methods.length = k
  declared : ∀ c lm, s.declarations.methodOf? c = some lm → g.DeclaredAs c lm
  owner : ∀ c lm, s.declarations.methodOf? c = some lm → s.declarations.Owns method lm
  signs : ∀ c lm, s.declarations.methodOf? c = some lm →
    s.declarations.Signs method (g.closure c).function lm

theorem DeclaredTo.declareOn (h : s.DeclaredTo c g method) (hs : g.Seated m) {host : Option EnvType}
    (hhost : host.map (·.env) = (g.closure c).host)
    (hname : ∀ t ∈ host, s.declarations.typeName t.env = t.name) :
    ∃ s', s.declareOn method c host = (s', none) ∧ s'.DeclaredTo (c + 1) g method := by
  have henvs := h.graph.valueEnvsOf c
  have htakes : (s.graph.closure c).takesReferences = (g.closure c).takesReferences :=
    h.graph.proj Closure.takesReferences (fun _ _ => rfl) c
  have hvalues (e : EnvId) (he : e ∈ g.valueEnvsOf (g.closure c)) :
      (g.closure c).takesReferences = true := by
    obtain ⟨he, hk⟩ := Graph.mem_valueEnvsOf.mp he
    exact hs.placed.takesReferences he hk
  have hcond : ¬ (!(s.graph.valueEnvsOf (s.graph.closure c)).isEmpty &&
      !(s.graph.closure c).takesReferences) = true := by
    rw [henvs, htakes]
    simp only [Bool.and_eq_true, Bool.not_eq_true', not_and, Bool.not_eq_false]
    intro hne
    obtain ⟨e, he⟩ := List.isEmpty_eq_false_iff_exists_mem.mp hne
    exact hvalues e he
  refine ⟨_, by rw [DeclarationDraft.declareOn]; exact if_neg hcond, ?_⟩
  constructor
  case graph => exact h.graph.setParams c _
  case typed => exact h.typed.push _
  case length => simp [Declarations.push, h.length]
  case declared =>
    intro i lm hlm
    obtain hlm | ⟨hi, rfl⟩ := Declarations.methodOf_push hlm
    · exact h.declared i lm hlm
    obtain rfl : i = c := hi.trans h.length
    constructor
    case id => rfl
    case closure => rfl
    case host => exact hhost
    case isStatic =>
      change (host.isNone && !((s.graph.closure i).capturesReceiver &&
        (s.graph.modifyClosure i _).receiverEnv?.isNone)) = _
      rw [(h.graph.setParams i _).receiverEnv, h.graph.sameCaptures.capturesReceiver, ← hhost,
        Option.isNone_map]
    case copies =>
      refine (congrArg _ (List.reverse_reverse _)).trans
        ((Supply.map_fst_copyParams _ _ _).trans ?_)
      rw [h.graph.proj Closure.function fun _ _ => rfl]
    case copy => exact fun p hp => (Supply.of_mem_copyParams (List.mem_reverse.mp hp)).2
    case envParams => exact (Supply.map_fst_holderParams _ _ _).trans henvs
    case holder => exact fun p hp => (Supply.of_mem_holderParams hp).2
    case params =>
      exact congrArg (fun l => (List.map Prod.snd l ++ _).map some) (List.reverse_reverse _).symm
    case takesReferences =>
      intro hne
      obtain ⟨p, hp⟩ := List.exists_mem_of_ne_nil _ hne
      have hmem := List.mem_map_of_mem (f := Prod.fst) hp
      rw [Supply.map_fst_holderParams, henvs] at hmem
      exact hvalues _ hmem
    case body => rfl
  case owner =>
    intro i lm hlm
    obtain hlm | ⟨-, rfl⟩ := Declarations.methodOf_push hlm
    · exact (h.owner i lm hlm).push
    · refine Declarations.Owns.push ?_
      cases host with
      | none => rfl
      | some t => exact (hname t rfl).symm
  case signs =>
    intro i lm hlm
    obtain hlm | ⟨hi, rfl⟩ := Declarations.methodOf_push hlm
    · exact (h.signs i lm hlm).push
    obtain rfl : i = c := hi.trans h.length
    refine Declarations.Signs.push ?_
    rw [← h.graph.proj Closure.function (fun _ _ => rfl) i]
    cases host <;> exact ⟨rfl, rfl,
      fun p hp => (Supply.of_mem_copyParams (List.mem_reverse.mp hp)).1,
      fun p hp => (Supply.of_mem_holderParams hp).1⟩

/-- All methods are declared. -/
theorem DeclaredTo.declareMethod (h : s.DeclaredTo c g method) (hs : g.Seated m) :
    ∃ s', s.declareMethod method c = (s', none) ∧ s'.DeclaredTo (c + 1) g method := by
  have hhost : (s.graph.closure c).host = (g.closure c).host :=
    h.graph.proj Closure.host (fun _ _ => rfl) c
  rw [DeclarationDraft.declareMethod, hhost]
  cases he : (g.closure c).host with
  | none => exact h.declareOn hs he.symm fun _ => (nomatch ·)
  | some e =>
    have hlive := (hs.host c e he).1
    obtain ⟨t, ht, -, rfl⟩ := h.typed.typeOf (Graph.lt_of_isLiveReference hlive)
      (Graph.removed_of_isLiveReference hlive)
    simp only [ht]
    refine h.declareOn hs he.symm fun u hu => ?_
    obtain rfl := Option.some.inj hu
    rw [Declarations.typeName, ht, Option.map_some, Option.getD_some]

theorem DeclaredTo.declareMethods (hs : g.Seated m) {n : Nat}
    (h : s.DeclaredTo c g method) :
    ∃ s', DeclarationDraft.declareMethods method (List.range' c n) s = (s', none) ∧
      s'.DeclaredTo (c + n) g method := by
  induction n generalizing c s with
  | zero => exact ⟨s, rfl, h⟩
  | succ n ih =>
    obtain ⟨s₁, hs₁, h₁⟩ := h.declareMethod hs
    obtain ⟨s₂, hs₂, h₂⟩ := ih h₁
    refine ⟨s₂, ?_, by rwa [Nat.add_assoc, Nat.add_comm 1 n] at h₂⟩
    rw [List.range'_succ, DeclarationDraft.declareMethods, hs₁]
    exact hs₂

end DeclarationDraft

/-- The declarations are those made for the graph. -/
structure Declarations.Declared (d : Declarations) (g : Graph) (method : Method) : Prop where
  typed : d.Typed g method
  length : d.methods.length = g.closures.size
  declared : ∀ c lm, d.methodOf? c = some lm → g.DeclaredAs c lm
  owner : ∀ c lm, d.methodOf? c = some lm → d.Owns method lm
  signs : ∀ c lm, d.methodOf? c = some lm → d.Signs method (g.closure c).function lm

theorem Declarations.Declared.methodOf (h : d.Declared g method) (hc : c < g.closures.size) :
    ∃ lm, d.methodOf? c = some lm ∧ g.DeclaredAs c lm := by
  have hlt : c < d.methods.length := h.length.symm ▸ hc
  exact ⟨_, List.getElem?_eq_getElem hlt, h.declared c _ (List.getElem?_eq_getElem hlt)⟩

/-- The parameters do not matter to declarations. -/
theorem Declarations.Declared.of_same (h : d.Declared g method) (hh : g.Holds m)
    (hs : g.SameExceptParams g') : d.Declared g' method where
  typed :=
    { envs := by
        rw [h.typed.envs]
        simp only [Graph.liveEnvs, hs.env, hs.envs]
      typedAs := fun t ht => by
        have ht := h.typed.typedAs t ht
        exact ⟨hs.env _ ▸ ht.kind, hs.env _ ▸ ht.fieldOf, hs.env _ ▸ ht.hoisted, hs.env _ ▸ ht.link,
          ht.link_id, ht.typeParams, ht.owner, ht.field_mem, ht.link_mem⟩
      laid := fun t ht => by
        have ht := h.typed.laid t ht
        refine ⟨hs.env _ ▸ ht.fieldOf, ht.fields, ?_⟩
        rw [ht.link, hs.env, Graph.linkField, Graph.linkField, hs.runtimeParent hh]
      name := h.typed.name
      fields := fun t ht => by
        rw [hs.env, hs.runtimeParent hh]
        exact h.typed.fields t ht }
  length := h.length.trans hs.size.symm
  declared := fun c lm hlm => by
    have hd := h.declared c lm hlm
    have hhost := hs.proj Closure.host (fun _ _ => rfl) c
    exact
      { id := hd.id
        closure := hd.closure
        host := hd.host.trans hhost.symm
        isStatic := by rw [hd.isStatic, hhost, hs.sameCaptures.capturesReceiver, hs.receiverEnv]
        copies := by rw [hd.copies, hs.proj Closure.function fun _ _ => rfl]
        copy := hd.copy
        envParams := by rw [hd.envParams, hs.valueEnvsOf]
        holder := hd.holder
        params := hd.params
        takesReferences := by
          rw [hs.proj Closure.takesReferences fun _ _ => rfl]
          exact hd.takesReferences
        body := hd.body }
  owner := h.owner
  signs := fun c lm hlm => by
    rw [hs.proj Closure.function fun _ _ => rfl]
    exact h.signs c lm hlm

/-- Everything is declared, up to the check for stored values. -/
theorem DeclarationDraft.declareAll_eq (hg : g.Seated m)
    (hm : m.method = some method) : ∃ s, DeclarationDraft.declareAll { graph := g } =
      (s, s.declarations.storedValueEnv?) ∧ g.SameExceptParams s.graph ∧
      s.declarations.Declared s.graph method := by
  have hbody : g.body.method = some method := by
    rw [hg.exact.holds.body]
    exact hm
  have hstart :
      DeclaredTo 0 g method { graph := g, declarations := { types := g.envTypes method } } :=
    ⟨.refl g, g.typed_envTypes method, rfl, fun _ _ => (nomatch ·), fun _ _ => (nomatch ·),
      fun _ _ => (nomatch ·)⟩
  obtain ⟨s, hs, h⟩ := hstart.declareMethods hg (n := g.closures.size)
  rw [Nat.zero_add] at h
  rw [← List.range_eq_range'] at hs
  have hdeclared : s.declarations.Declared g method :=
    ⟨h.typed, h.length, h.declared, h.owner, h.signs⟩
  refine ⟨s, ?_, h.graph, hdeclared.of_same hg.exact.holds h.graph⟩
  simp only [DeclarationDraft.declareAll, hbody, Declarations.isEmpty, List.isEmpty_nil,
    Bool.and_self, if_true, hs]

/-! ## Checking -/

namespace Declarations.Declared

variable (h : d.Declared g method) (hs : g.Seated m)

include h hs

theorem envDefect_eq_none (he : e ∈ g.liveEnvs) : d.envDefect? g e = none := by
  obtain ⟨hlt, hlive⟩ := Graph.mem_liveEnvs.mp he
  obtain ⟨t, ht, hmem, rfl⟩ := h.typed.typeOf hlt hlive
  have hlink := (h.typed.typedAs t hmem).link
  rw [envDefect?, ht]
  simp only [← hlink]
  rw [if_neg (by cases t.link <;> simp), Option.map_eq_none_iff, List.find?_eq_none]
  intro v hv
  have hscope := ((hs.placed.mem_vars_iff hlt).mp hv).1
  simp [hs.exact.holds.declaringScope_eq_some.mpr hscope]

/-- A variable belongs to one scope, and so to one type. -/
theorem sharedVariable_eq_none : d.sharedVariable? = none := by
  refine List.findSome?_eq_none_iff.mpr fun i hi => ?_
  have hi : i < d.types.length := List.mem_range.mp hi
  rw [List.getElem?_eq_getElem hi, Option.bind_some]
  refine List.findSome?_eq_none_iff.mpr fun p hp => Option.map_eq_none_iff.mpr ?_
  refine List.find?_eq_none.mpr fun u hu hany => ?_
  obtain ⟨j, hj, rfl⟩ := List.mem_iff_getElem.mp hu
  obtain ⟨q, hq, hqp⟩ := List.any_eq_true.mp hany
  rw [List.getElem_take] at hq
  have hji : j < i ∧ j < d.types.length := by
    rw [List.length_take] at hj
    exact Nat.lt_min.mp hj
  have hlt (k : Nat) (hk : k < d.types.length) : d.types[k].env < g.envs.size :=
    (Graph.mem_liveEnvs.mp (h.typed.env_mem (List.getElem_mem hk))).1
  have hmem (k : Nat) (hk : k < d.types.length) {r : Variable × Option Field}
      (hr : r ∈ d.types[k].fieldOf) : r.1 ∈ (g.scope (g.env d.types[k].env).scope).vars := by
    have hv := ((h.typed.typedAs _ (List.getElem_mem hk)).fieldOf r.1 r.2 hr).1
    exact ((hs.placed.mem_vars_iff (hlt k hk)).mp hv).1
  have hscope := hs.exact.holds.tidy.vars_unique _ _ _ (hmem j hji.2 hq)
    (of_decide_eq_true hqp ▸ hmem i hi hp)
  have henv := hs.placed.scope_inj (hlt j hji.2) (hlt i hi) hscope
  have hnodup : (d.types.map (·.env)).Nodup := by
    rw [h.typed.envs]
    exact List.nodup_range.filter _
  have hij : j = i := by
    refine (List.getElem?_inj (by simpa using hji.2) hnodup).mp ?_
    rw [List.getElem?_map, List.getElem?_map, List.getElem?_eq_getElem hi,
      List.getElem?_eq_getElem hji.2, Option.map_some, Option.map_some, henv]
  exact absurd hij (Nat.ne_of_lt hji.1)

theorem methodDefect_eq_none (hlm : lm ∈ d.methods) :
    d.methodDefect? g lm = none := by
  obtain ⟨c, hlt, rfl⟩ := List.mem_iff_getElem.mp hlm
  have hd := h.declared c _ (List.getElem?_eq_getElem hlt)
  rw [methodDefect?, hd.closure, if_neg]
  · have hhost : (d.methods[c].host.filter fun e => !(g.env e).isLiveReference) = none := by
      rw [hd.host]
      refine Option.filter_eq_none_iff.mpr fun e he => ?_
      simp [(hs.host c e he).1]
    rw [hhost]
    refine Option.map_eq_none_iff.mpr (List.find?_eq_none.mpr fun p hp => ?_)
    simp [(hd.holder p hp).1]
  · simp only [Bool.and_eq_true, Bool.not_eq_true', not_and, Bool.not_eq_false]
    intro hne
    exact hd.takesReferences (List.isEmpty_eq_false_iff.mp hne)

/-- Declarations that store no value have no defect. -/
theorem defect_eq_none (hstored : d.storedValueEnv? = none) : d.defect? g = none := by
  have henvs : g.liveEnvs.findSome? (d.envDefect? g) = none :=
    List.findSome?_eq_none_iff.mpr fun e he => h.envDefect_eq_none hs he
  have hmethods : d.methods.findSome? (d.methodDefect? g) = none :=
    List.findSome?_eq_none_iff.mpr fun lm hlm => h.methodDefect_eq_none hs hlm
  have hlength : g.liveEnvs.length = d.types.length := by rw [← h.typed.envs, List.length_map]
  simp [defect?, henvs, hmethods, hlength, h.sharedVariable_eq_none hs, hstored, h.length]

end Declarations.Declared

end Unnest

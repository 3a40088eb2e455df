import Mathlib.Data.List.ReduceOption
import Unnest.Declarations.Verify
import Unnest.Proofs.Names.Analysis

/-!
# Declarations under new names

The types and methods declared for a renamed graph. The conversion makes up names of its own out of
the names it finds: a field is called like the variable in it, a copy of a variable like the
variable, a method has the name of its function in its own. Those are the names that cannot be told
from a renaming. The names of environment types, of parent links and of the variables that hold
environments do not depend on any name of the body.

A sketch of declarations has the made-up names left blank, and its variables changed by a map of
one's choice. Two declarations differ by a renaming if the plain sketch of one is the renamed sketch
of the other. What is looked up in declarations can be read off their sketches.

## Main definitions

* `Variable.nameless`, `Field.nameless`, `Method.sketch` : blank names.
* `SymbolMap.sketch`, `Declarations.sketch` : trees and declarations with blank names.
* `Declarations.Renamed`, `DeclarationDraft.Renamed` : what a renaming can change.

## Main statements

* `DeclarationDraft.Renamed.declareAll` : a renamed graph gets the same declarations up to names,
  and the same failure or none.
* `Declarations.Renamed.defect` : the check finds a fault in both or in neither.
-/

namespace Unnest

variable {ρ : Renaming}

/-! ## Sketches -/

/-- A copy has its name from another variable. -/
def Variable.nameless (v : Variable) : Variable :=
  match v.id with
  | .copy .. => { v with name := "" }
  | _ => v

/-- The field for a variable has its name from the variable. -/
def Field.nameless (f : Field) : Field :=
  match f.id with
  | .hoisted .. => { f with name := "" }
  | _ => f

/-- The method for a nested function has its name from the function. -/
def Method.sketch (f : Variable → Variable) (m : Method) : Method :=
  { m.mapVariables fun v => (f v).nameless with
    name :=
      match m.id with
      | .given _ => m.name
      | .lowered _ => "" }

/-- For lowered trees, which mention no nested function. -/
def SymbolMap.sketch (f : Variable → Variable) : SymbolMap where
  var v := (f v).nameless
  fn := id
  method := Method.sketch f
  field := Field.nameless

/-- Blank names, and variables as they are. -/
abbrev SymbolMap.plain : SymbolMap := .sketch id

def EnvType.sketch (f : Variable → Variable) (t : EnvType) : EnvType :=
  { t with
    fields := t.fields.map Field.nameless
    fieldOf := t.fieldOf.map fun p => (f p.1, p.2.map Field.nameless)
    methods := t.methods.map (·.sketch f) }

def LoweredMethod.sketch (f : Variable → Variable) (m : LoweredMethod) : LoweredMethod :=
  { m with
    symbol := m.symbol.sketch f
    copies := m.copies.map fun p => (f p.1, (f p.2).nameless)
    envParams := m.envParams.map fun p => (p.1, f p.2)
    body := m.body.map (·.mapSymbols (.sketch f)) }

/-- What a renaming can change of a type. -/
def EnvType.Renamed (ρ : Renaming) (t t' : EnvType) : Prop :=
  t'.sketch id = t.sketch (Variable.rename ρ)

/-- What a renaming can change of a method. -/
def LoweredMethod.Renamed (ρ : Renaming) (m m' : LoweredMethod) : Prop :=
  m'.sketch id = m.sketch (Variable.rename ρ)

@[simp] theorem Field.type_nameless (f : Field) : f.nameless.type = f.type := by
  unfold nameless
  split <;> rfl

theorem sketch_mapVariables (f : Variable → Variable) (m : Method) :
    (m.mapVariables f).sketch id = m.sketch f := by
  simp only [Method.sketch, Method.mapVariables, List.map_map, Function.comp_def, Option.map_map,
    id]

/-- Looking up a key by its image. -/
theorem lookup_map_of_injective {α β γ : Type} [DecidableEq α] {f : α → α}
    (hf : Function.Injective f) (k : β → γ) (l : List (α × β)) (a : α) :
    (l.map fun p => (f p.1, k p.2)).lookup (f a) = (l.lookup a).map k := by
  induction l with
  | nil => rfl
  | cons p l ih =>
    obtain ⟨b, x⟩ := p
    rw [List.map_cons, List.lookup_cons, List.lookup_cons]
    by_cases ha : a = b
    · simp [ha]
    · rw [beq_eq_false_iff_ne.mpr ha, beq_eq_false_iff_ne.mpr (hf.ne ha)]
      exact ih

namespace EnvType

variable {f : Variable → Variable}

theorem field_sketch (hf : Function.Injective f) (t : EnvType) (v : Variable) :
    (t.sketch f).field? (f v) = (t.field? v).map Field.nameless := by
  rw [field?, sketch, lookup_map_of_injective hf (Option.map Field.nameless), field?]
  rcases t.fieldOf.lookup v with _ | _ | _ <;> rfl

namespace Renamed

variable {t t' : EnvType}

theorem name (h : t.Renamed ρ t') : t'.name = t.name := (congrArg EnvType.name h :)

theorem kind (h : t.Renamed ρ t') : t'.kind = t.kind := (congrArg EnvType.kind h :)

theorem env (h : t.Renamed ρ t') : t'.env = t.env := (congrArg EnvType.env h :)

theorem typeParams (h : t.Renamed ρ t') : t'.typeParams = t.typeParams :=
  (congrArg EnvType.typeParams h :)

theorem link (h : t.Renamed ρ t') : t'.link = t.link := (congrArg EnvType.link h :)

theorem field (h : t.Renamed ρ t') (v : Variable) :
    (t'.field? (v.rename ρ)).map Field.nameless = (t.field? v).map Field.nameless := by
  rw [← field_sketch Function.injective_id, h, id, field_sketch Variable.rename_injective]

end Renamed

end EnvType

namespace LoweredMethod.Renamed

variable {m m' : LoweredMethod}

theorem symbol (h : m.Renamed ρ m') : m'.symbol.sketch id = m.symbol.sketch (Variable.rename ρ) :=
  (congrArg LoweredMethod.symbol h :)

theorem isStatic (h : m.Renamed ρ m') : m'.symbol.isStatic = m.symbol.isStatic :=
  (congrArg Method.isStatic h.symbol :)

theorem closure (h : m.Renamed ρ m') : m'.closure = m.closure :=
  (congrArg LoweredMethod.closure h :)

theorem host (h : m.Renamed ρ m') : m'.host = m.host := (congrArg LoweredMethod.host h :)

theorem copies (h : m.Renamed ρ m') : m'.copies.map (fun p => (p.1, p.2.nameless)) =
    m.copies.map fun p => (p.1.rename ρ, (p.2.rename ρ).nameless) :=
  (congrArg LoweredMethod.copies h :)

theorem envParams (h : m.Renamed ρ m') :
    m'.envParams = m.envParams.map fun p => (p.1, p.2.rename ρ) := by
  have hparams := congrArg LoweredMethod.envParams h
  simpa [LoweredMethod.sketch] using hparams

end LoweredMethod.Renamed

namespace Declarations

def sketch (f : Variable → Variable) (d : Declarations) : Declarations where
  types := d.types.map (·.sketch f)
  methods := d.methods.map (·.sketch f)

/-- What a renaming can change of declarations. -/
def Renamed (ρ : Renaming) (d d' : Declarations) : Prop :=
  d'.sketch id = d.sketch (Variable.rename ρ)

variable {f : Variable → Variable} {d d' : Declarations}

theorem typeOf_sketch (d : Declarations) (e : EnvId) :
    (d.sketch f).typeOf? e = (d.typeOf? e).map (·.sketch f) := by
  rw [typeOf?, sketch, List.find?_map]
  rfl

@[simp] theorem typeName_sketch (d : Declarations) (e : EnvId) :
    (d.sketch f).typeName e = d.typeName e := by
  rw [typeName, typeOf_sketch, Option.map_map]
  rfl

theorem methodOf_sketch (d : Declarations) (c : ClosureId) :
    (d.sketch f).methodOf? c = (d.methodOf? c).map (·.sketch f) := List.getElem?_map

theorem push_sketch (d : Declarations) (m : LoweredMethod) :
    (d.push m).sketch f = (d.sketch f).push (m.sketch f) := by
  simp only [push, sketch, List.map_map, List.map_append, List.map_cons, List.map_nil, mk.injEq,
    and_true]
  refine List.map_congr_left fun t _ => ?_
  by_cases hhost : m.host = some t.env <;>
    simp [Function.comp, LoweredMethod.sketch, EnvType.sketch, hhost]

namespace Renamed

variable (h : d.Renamed ρ d')

include h

theorem typeOf (e : EnvId) :
    Option.Rel (EnvType.Renamed ρ) (d.typeOf? e) (d'.typeOf? e) := by
  apply rel_of_map_eq
  rw [← typeOf_sketch, h, typeOf_sketch]

theorem typeName (e : EnvId) : d'.typeName e = d.typeName e := by
  rw [← typeName_sketch, h, typeName_sketch]

theorem methodOf (c : ClosureId) :
    Option.Rel (LoweredMethod.Renamed ρ) (d.methodOf? c) (d'.methodOf? c) := by
  apply rel_of_map_eq
  rw [← methodOf_sketch, h, methodOf_sketch]

theorem findMethod (p : ClosureId → Bool) : Option.Rel (LoweredMethod.Renamed ρ)
    (d.methods.find? fun m => p m.closure) (d'.methods.find? fun m => p m.closure) := by
  have hfind (f : Variable → Variable) (ms : List LoweredMethod) :
      (ms.find? fun m => p m.closure).map (·.sketch f) =
        (ms.map (·.sketch f)).find? fun m => p m.closure := by
    rw [List.find?_map]
    rfl
  apply rel_of_map_eq
  rw [hfind, hfind]
  exact congrArg (fun d : Declarations => d.methods.find? fun m => p m.closure) h

theorem push {m m' : LoweredMethod} (hm : m.Renamed ρ m') : (d.push m).Renamed ρ (d'.push m') := by
  rw [Renamed, push_sketch, h, hm, push_sketch]

end Renamed

end Declarations

/-! ## Types -/

namespace Graph

variable {g : Graph} (m : Method)

@[simp] theorem liveEnvs_rename : (g.rename ρ).liveEnvs = g.liveEnvs := by
  simp only [liveEnvs, size_envs_rename, env_rename, Environment.rename]

theorem hoistedField_rename (name : String) (e : EnvId) (kind : EnvKind) (v : Variable) :
    (hoistedField? (m.mapVariables (Variable.rename ρ)) name e kind (v.rename ρ)).map
      Field.nameless = (hoistedField? m name e kind v).map Field.nameless := by
  simp only [hoistedField?, Variable.isReceiver_rename, Variable.id_rename, Variable.type_rename]
  split <;> rfl

theorem envType_rename (e : EnvId) (i : Nat) : (g.envType m e i).Renamed ρ
    ((g.rename ρ).envType (m.mapVariables (Variable.rename ρ)) e i) := by
  let name := m.name ++ "$Env" ++ toString i
  let kind := (g.env e).kind
  let pairs := (g.env e).vars.toList.filterMap fun v =>
    (hoistedField? m name e kind v).map fun f => (v, f)
  let pairs' := ((g.env e).vars.toList.map (·.rename ρ)).filterMap fun v =>
    (hoistedField? (m.mapVariables (Variable.rename ρ)) name e kind v).map fun f => (v, f)
  have hpairs : pairs'.map (fun p => (p.1, p.2.nameless)) =
      pairs.map (fun p => (p.1.rename ρ, p.2.nameless)) := by
    simp only [pairs, pairs', List.filterMap_map, List.map_filterMap]
    refine List.filterMap_congr fun v _ => ?_
    have hfield := congrArg (Option.map fun f => (v.rename ρ, f))
      (hoistedField_rename (ρ := ρ) m name e kind v)
    simpa only [Option.map_map, Function.comp_def] using hfield
  have hfields := congrArg (List.map Prod.snd) hpairs
  have hfieldOf := congrArg (List.map fun p => (p.1, some p.2)) hpairs
  simp only [List.map_map, Function.comp_def] at hfields hfieldOf
  simp only [EnvType.Renamed, EnvType.sketch, envType, env_rename, List.map_map, Function.comp_def,
    EnvType.mk.injEq, true_and]
  exact ⟨rfl, rfl, rfl, hfields, hfieldOf, rfl⟩

/-- A link is made for the numbers of environments and the names of their types. -/
theorem linkField_rename {d d' : Declarations} (hd : ∀ e, d'.typeName e = d.typeName e)
    {t t' : EnvType} (ht : t.Renamed ρ t') :
    (g.rename ρ).linkField (m.mapVariables (Variable.rename ρ)) d' t' = g.linkField m d t := by
  simp only [linkField, runtimeParent_rename, hd, ht.env, ht.name]
  rfl

theorem withLink_rename {d d' : Declarations} (hd : ∀ e, d'.typeName e = d.typeName e)
    {t t' : EnvType} (ht : t.Renamed ρ t') : (g.withLink m d t).Renamed ρ
      ((g.rename ρ).withLink (m.mapVariables (Variable.rename ρ)) d' t') := by
  have hfields : t'.fields.map Field.nameless = t.fields.map Field.nameless :=
    (congrArg EnvType.fields ht :)
  have hneeds : ((g.rename ρ).env t'.env).needsParent = (g.env t.env).needsParent := by
    rw [env_rename, ht.env]
    rfl
  simp only [withLink, hneeds, linkField_rename m hd ht]
  split
  · have hlinked := congrArg (fun u : EnvType => { u with
      fields := u.fields ++ [(g.linkField m d t).nameless]
      link := some (g.linkField m d t) }) ht
    simpa [EnvType.Renamed, EnvType.sketch] using hlinked
  · exact ht

/-- The types of a renamed graph are the same up to the names of fields. -/
theorem envTypes_rename : Declarations.Renamed ρ { types := g.envTypes m }
    { types := (g.rename ρ).envTypes (m.mapVariables (Variable.rename ρ)) } := by
  let types := g.liveEnvs.mapIdx fun i e => g.envType m e i
  let types' := g.liveEnvs.mapIdx fun i e =>
    (g.rename ρ).envType (m.mapVariables (Variable.rename ρ)) e i
  have htypes : Declarations.Renamed ρ { types } { types := types' } := by
    simp only [Declarations.Renamed, Declarations.sketch, types, types',
      List.mapIdx_eq_zipIdx_map, List.map_map, Declarations.mk.injEq, List.map_nil, and_true]
    exact List.map_congr_left fun x _ => envType_rename m x.1 x.2
  simp only [Declarations.Renamed, Declarations.sketch, envTypes, liveEnvs_rename,
    List.mapIdx_eq_zipIdx_map, List.map_map, Declarations.mk.injEq, List.map_nil, and_true]
  refine List.map_congr_left fun x _ => ?_
  refine withLink_rename m (fun e => ?_) (envType_rename m x.1 x.2)
  simpa only [types, types', List.mapIdx_eq_zipIdx_map] using htypes.typeName e

theorem valueEnvsOf_rename (c : ClosureId) :
    (g.rename ρ).valueEnvsOf ((g.rename ρ).closure c) = g.valueEnvsOf (g.closure c) := by
  have henvs : ((g.rename ρ).closure c).envs = (g.closure c).envs :=
    proj_closure_rename (fun _ => rfl) c
  simp only [valueEnvsOf, henvs, env_rename, scope_rename, Environment.isValue_rename]
  rfl

end Graph

/-! ## Methods -/

namespace Supply

/-- Copies are made for the identities and the types of parameters. -/
theorem copyParams_rename (spell : String → String) (ps : List Variable) (s : Supply) :
    (s.copyParams spell (ps.map (·.rename ρ))).1.map (fun p => (p.1, p.2.nameless)) =
        (s.copyParams spell ps).1.map (fun p => (p.1.rename ρ, (p.2.rename ρ).nameless)) ∧
      (s.copyParams spell (ps.map (·.rename ρ))).2 = (s.copyParams spell ps).2 := by
  induction ps generalizing s with
  | nil => exact ⟨rfl, rfl⟩
  | cons p ps ih =>
    have hcopy := ih (s.copy p .parameter (spell p.type)).2
    simp only [List.map_cons, copyParams, copy, fresh, Variable.id_rename, Variable.type_rename]
    exact ⟨congrArg (_ :: ·) hcopy.1, hcopy.2⟩

/-- Parameters that hold environments have names that no renaming changes. -/
theorem holderParams_rename (type : EnvId → String) (es : List EnvId) (s : Supply) :
    (s.holderParams type es).1.map (fun p => (p.1, p.2.rename ρ)) = (s.holderParams type es).1 := by
  induction es generalizing s with
  | nil => rfl
  | cons e es ih => exact congrArg (_ :: ·) (ih (s.holderParam e (type e)).2)

end Supply

namespace DeclarationDraft

/-- What a renaming can change of declarations in the making. -/
structure Renamed (ρ : Renaming) (s s' : DeclarationDraft) : Prop where
  graph : s'.graph = s.graph.rename ρ
  declarations : s.declarations.Renamed ρ s'.declarations
  supply : s'.supply = s.supply

/-- The same for declarations that may have failed. -/
def StepRenamed (ρ : Renaming) (x x' : DeclarationDraft × Option Failure) : Prop :=
  x.1.Renamed ρ x'.1 ∧ x'.2.map Failure.key = x.2.map Failure.key

variable {s s' : DeclarationDraft} {m : Method} {c : ClosureId}

theorem size_declareOn (s : DeclarationDraft) (m : Method) (c : ClosureId)
    (host : Option EnvType) :
    (s.declareOn m c host).1.graph.closures.size = s.graph.closures.size := by
  simp only [declareOn]
  split <;> simp [Graph.modifyClosure]

theorem size_declareMethod (s : DeclarationDraft) (m : Method) (c : ClosureId) :
    (s.declareMethod m c).1.graph.closures.size = s.graph.closures.size := by
  unfold declareMethod
  split
  · exact size_declareOn s m c none
  · split
    · exact size_declareOn s m c _
    · rfl

theorem Renamed.declareOn (h : s.Renamed ρ s') (hc : c < s.graph.closures.size)
    {host host' : Option EnvType} (hhost : Option.Rel (EnvType.Renamed ρ) host host') :
    StepRenamed ρ (s.declareOn m c host)
      (s'.declareOn (m.mapVariables (Variable.rename ρ)) c host') := by
  have hisSome : host'.isSome = host.isSome := by cases hhost <;> rfl
  have hisNone : host'.isNone = host.isNone := by cases hhost <;> rfl
  have hname : host'.map (·.name) = host.map (·.name) := by
    cases hhost with
    | none => rfl
    | some ht => exact congrArg some ht.name
  have henv : host'.map (·.env) = host.map (·.env) := by
    cases hhost with
    | none => rfl
    | some ht => exact congrArg some ht.env
  have hclosure : s'.graph.closure c = (s.graph.closure c).rename ρ := by
    rw [h.graph, Graph.closure_rename hc]
  have henvs : s'.graph.valueEnvsOf ((s.graph.closure c).rename ρ) =
      s.graph.valueEnvsOf (s.graph.closure c) := by
    rw [← hclosure, h.graph, Graph.valueEnvsOf_rename]
  have hparams : ((s.graph.closure c).rename ρ).function.params.reduceOption =
      (s.graph.closure c).function.params.reduceOption.map (·.rename ρ) :=
    List.reduceOption_map
  have hgraph : s'.graph.modifyClosure c (fun cl =>
      { cl with envParams := s.graph.valueEnvsOf (s.graph.closure c) }) =
      (s.graph.modifyClosure c fun cl =>
        { cl with envParams := s.graph.valueEnvsOf (s.graph.closure c) }).rename ρ := by
    rw [h.graph]
    exact Graph.modifyClosure_rename fun _ => rfl
  obtain ⟨hcopies, hsupply⟩ := Supply.copyParams_rename (ρ := ρ)
    (fun type => if host.isSome then TypeName.renameParams m.typeParams type else type)
    (s.graph.closure c).function.params.reduceOption s.supply
  simp only [DeclarationDraft.declareOn, hclosure, henvs, hparams, hisSome, hisNone, hname, henv,
    hgraph, h.supply, hsupply, h.declarations.typeName, Closure.takesReferences_rename,
    Graph.bodyLoc_rename, Graph.receiverEnv_rename, Method.mapVariables]
  split
  · exact ⟨⟨rfl, h.declarations, rfl⟩, rfl⟩
  · refine ⟨⟨rfl, h.declarations.push ?_, rfl⟩, rfl⟩
    -- A signature consists of copies, up to their names, and of holders, which are the same.
    have hmade := congrArg (List.map fun p => some p.2) hcopies
    generalize hholders : Supply.holderParams _ _ _ = holders
    have hfixed : holders.1.map (fun p => (p.1, p.2.rename ρ)) = holders.1 :=
      hholders ▸ Supply.holderParams_rename _ _ _
    have hpassed := congrArg (List.map fun p => some p.2.nameless) hfixed
    simp only [List.map_map, Function.comp_def] at hmade hpassed
    simp only [LoweredMethod.Renamed, LoweredMethod.sketch, Method.sketch, Method.mapVariables,
      List.map_append, List.map_map, Function.comp_def, List.map_reverse, Option.map_some, hmade,
      id, hcopies, hpassed, hfixed, List.map_id']
    rfl

theorem Renamed.declareMethod (h : s.Renamed ρ s') (hc : c < s.graph.closures.size) :
    StepRenamed ρ (s.declareMethod m c)
      (s'.declareMethod (m.mapVariables (Variable.rename ρ)) c) := by
  unfold DeclarationDraft.declareMethod
  rw [h.graph, Graph.host_rename]
  cases (s.graph.closure c).host with
  | none => exact h.declareOn hc .none
  | some e =>
    have htype := h.declarations.typeOf e
    simp only
    generalize s.declarations.typeOf? e = t at htype
    generalize s'.declarations.typeOf? e = t' at htype
    cases htype with
    | none => exact ⟨h, rfl⟩
    | some htype => exact h.declareOn hc (.some htype)

theorem Renamed.declareMethods (h : s.Renamed ρ s') (cs : List ClosureId)
    (hcs : ∀ c ∈ cs, c < s.graph.closures.size) :
    StepRenamed ρ (declareMethods m cs s)
      (declareMethods (m.mapVariables (Variable.rename ρ)) cs s') := by
  induction cs generalizing s s' with
  | nil => exact ⟨h, rfl⟩
  | cons c cs ih =>
    have hsize := size_declareMethod s m c
    obtain ⟨hstep, hfailure⟩ := h.declareMethod (m := m) (hcs c List.mem_cons_self)
    rw [DeclarationDraft.declareMethods, DeclarationDraft.declareMethods]
    generalize s.declareMethod m c = x at hstep hfailure hsize
    generalize s'.declareMethod (m.mapVariables (Variable.rename ρ)) c = x' at hstep hfailure
    obtain ⟨s₁, o⟩ := x
    obtain ⟨s₁', o'⟩ := x'
    cases rel_of_map_eq hfailure with
    | none =>
      refine ih hstep fun c hc => ?_
      rw [hsize]
      exact hcs c (List.mem_cons_of_mem _ hc)
    | some hf => exact ⟨hstep, congrArg some hf⟩

end DeclarationDraft

/-! ## Faults -/

namespace Declarations

variable {f : Variable → Variable} {d d' : Declarations}

/-- Whether a value is stored can be seen from the types of fields. -/
theorem storedValueEnv_sketch (d : Declarations) :
    (d.sketch f).storedValueEnv?.map Failure.key = d.storedValueEnv?.map Failure.key := by
  have hvalues : ((d.sketch f).types.filter (·.isValue)).map (·.name) =
      (d.types.filter (·.isValue)).map (·.name) := by
    simp only [sketch, List.filter_map, List.map_map]
    rfl
  rw [storedValueEnv?, hvalues, storedValueEnv?]
  simp only [sketch, EnvType.sketch, List.findSome?_map, List.map_findSome?, Function.comp_def,
    Field.type_nameless]
  congr 1
  funext t
  congr 1
  funext x
  split <;> rfl

/-- A variable with two places has them under its new name too. -/
theorem sharedVariable_sketch (hf : Function.Injective f) (d : Declarations) :
    (d.sketch f).sharedVariable?.map Cause.kind = d.sharedVariable?.map Cause.kind := by
  have hany (u : EnvType) (v : Variable) :
      (u.sketch f).fieldOf.any (·.1 = f v) = u.fieldOf.any (·.1 = v) := by
    simp only [EnvType.sketch, List.any_map, Function.comp_def, hf.eq_iff]
  have hfind (i : Nat) (v : Variable) :
      ((d.sketch f).types.take i).find? (fun u => u.fieldOf.any (·.1 = f v)) =
        ((d.types.take i).find? fun u => u.fieldOf.any (·.1 = v)).map (·.sketch f) := by
    simp only [sketch, ← List.map_take, List.find?_map, Function.comp_def, hany]
  simp only [sharedVariable?, List.map_findSome?, Function.comp_def]
  rw [show (d.sketch f).types.length = d.types.length from List.length_map _]
  congr 1
  funext i
  rw [show (d.sketch f).types[i]? = d.types[i]?.map (·.sketch f) from List.getElem?_map]
  cases d.types[i]? with
  | none => rfl
  | some t =>
    have hkeys : (t.sketch f).fieldOf = t.fieldOf.map fun p => (f p.1, p.2.map Field.nameless) :=
      rfl
    simp only [Option.map_some, Option.bind_some, hkeys, List.map_findSome?, List.findSome?_map,
      Function.comp_def, hfind, Option.map_map]
    rfl

theorem methodDefect_rename (d d' : Declarations) (g : Graph) {m m' : LoweredMethod}
    (hm : m.Renamed ρ m') :
    (d'.methodDefect? (g.rename ρ) m').map Cause.kind = (d.methodDefect? g m).map Cause.kind := by
  have htakes : ((g.rename ρ).closure m.closure).takesReferences =
      (g.closure m.closure).takesReferences := Graph.proj_closure_rename (fun _ => rfl) _
  simp only [methodDefect?, hm.envParams, hm.closure, hm.host, htakes, Graph.env_rename,
    Environment.isLiveReference_rename, List.isEmpty_map, List.find?_map, Function.comp_def,
    Variable.byRef_rename]
  split
  · rfl
  · split
    · rfl
    · simp only [Option.map_map]
      rfl

namespace Renamed

variable (h : d.Renamed ρ d')

include h

theorem storedValueEnv :
    d'.storedValueEnv?.map Failure.key = d.storedValueEnv?.map Failure.key := by
  rw [← storedValueEnv_sketch, h, storedValueEnv_sketch]

theorem sharedVariable : d'.sharedVariable?.map Cause.kind = d.sharedVariable?.map Cause.kind := by
  rw [← sharedVariable_sketch Function.injective_id, h,
    sharedVariable_sketch Variable.rename_injective]

theorem envDefect (g : Graph) (e : EnvId) :
    (d'.envDefect? (g.rename ρ) e).map Cause.kind = (d.envDefect? g e).map Cause.kind := by
  have htype := h.typeOf e
  unfold envDefect?
  generalize d.typeOf? e = t at htype
  generalize d'.typeOf? e = t' at htype
  cases htype with
  | none => rfl
  | some ht =>
    have hfind : ((g.rename ρ).env e).vars.toList.find?
        (fun v => (g.rename ρ).declaringScope? v ≠ some ((g.rename ρ).env e).scope) =
        ((g.env e).vars.toList.find? fun v => g.declaringScope? v ≠ some (g.env e).scope).map
          (·.rename ρ) := by
      simp only [Graph.env_rename, Environment.rename, OrderedSet.toList_rename, List.find?_map,
        Function.comp_def, Graph.declaringScope_rename]
    have hneeds : ((g.rename ρ).env e).needsParent = (g.env e).needsParent := by
      rw [Graph.env_rename]
      rfl
    simp only [hneeds, ht.link, hfind]
    split
    · rfl
    · simp only [Option.map_map]
      rfl

theorem methodDefects (g : Graph) :
    (d'.methods.findSome? (d'.methodDefect? (g.rename ρ))).map Cause.kind =
      (d.methods.findSome? (d.methodDefect? g)).map Cause.kind := by
  have hmethods : List.Forall₂ (LoweredMethod.Renamed ρ) d.methods d'.methods := by
    have heq : List.Forall₂ Eq (d.methods.map (·.sketch (Variable.rename ρ)))
        (d'.methods.map (·.sketch id)) := by
      rw [List.forall₂_eq_eq_eq]
      exact (congrArg Declarations.methods h).symm
    rw [List.forall₂_map_left_iff, List.forall₂_map_right_iff] at heq
    exact heq.imp fun _ _ => Eq.symm
  rw [List.map_findSome?, List.map_findSome?]
  generalize d.methods = ms at hmethods
  generalize d'.methods = ms' at hmethods
  induction hmethods with
  | nil => rfl
  | cons hm _ ih =>
    have hfirst := methodDefect_rename d d' g hm
    simp only [List.findSome?_cons, Function.comp, hfirst, ih]

/-- The check finds a fault in declarations and in those for a renamed graph, or in neither. -/
theorem defect (g : Graph) :
    (d'.defect? (g.rename ρ)).map Failure.key = (d.defect? g).map Failure.key := by
  have hat {c c' : Option Cause} (hc : c'.map Cause.kind = c.map Cause.kind) :
      (c'.map fun cause => ({ cause } : Failure)).map Failure.key =
        (c.map fun cause => ({ cause } : Failure)).map Failure.key := by
    have hkey := congrArg (Option.map fun k => (k, ({} : Loc))) hc
    rw [Option.map_map, Option.map_map] at hkey
    rw [Option.map_map, Option.map_map]
    exact hkey
  have hor {x x' y y' : Option Failure} (hx : x'.map Failure.key = x.map Failure.key)
      (hy : y'.map Failure.key = y.map Failure.key) :
      (x' <|> y').map Failure.key = (x <|> y).map Failure.key := by
    cases x <;> cases x' <;> simp_all
  have henvs : ((g.rename ρ).liveEnvs.findSome? (d'.envDefect? (g.rename ρ))).map Cause.kind =
      (g.liveEnvs.findSome? (d.envDefect? g)).map Cause.kind := by
    simp only [Graph.liveEnvs_rename, List.map_findSome?, Function.comp_def, h.envDefect]
  have htypes : d'.types.length = d.types.length := by
    simpa [sketch] using congrArg (·.types.length) h
  have hmethods : d'.methods.length = d.methods.length := by
    simpa [sketch] using congrArg (·.methods.length) h
  unfold defect?
  rw [htypes, hmethods, Graph.size_closures_rename]
  refine hor (hat henvs) (hor ?_ (hor (hat h.sharedVariable) (hor h.storedValueEnv (hor rfl
    (hat (h.methodDefects g))))))
  rw [Graph.liveEnvs_rename]

end Renamed

end Declarations

/-! ## Declaring everything -/

theorem DeclarationDraft.Renamed.declareAll {s s' : DeclarationDraft} (h : s.Renamed ρ s') :
    StepRenamed ρ s.declareAll s'.declareAll := by
  have hempty : s'.declarations.isEmpty = s.declarations.isEmpty := by
    simpa [Declarations.sketch, Declarations.isEmpty] using congrArg (·.isEmpty) h.declarations
  have hmethod : s'.graph.body.method =
      s.graph.body.method.map (·.mapVariables (Variable.rename ρ)) := by
    rw [h.graph]
    rfl
  unfold DeclarationDraft.declareAll
  rw [hempty, hmethod]
  split
  · cases s.graph.body.method with
    | none => exact ⟨h, rfl⟩
    | some m =>
      have htyped : Renamed ρ { s with declarations := { types := s.graph.envTypes m } }
          { s' with declarations :=
            { types := s'.graph.envTypes (m.mapVariables (Variable.rename ρ)) } } := by
        refine ⟨h.graph, ?_, h.supply⟩
        rw [h.graph]
        exact Graph.envTypes_rename m
      have hsize : s'.graph.closures.size = s.graph.closures.size := by
        rw [h.graph, Graph.size_closures_rename]
      obtain ⟨hdone, hfailure⟩ := htyped.declareMethods (m := m)
        (List.range s.graph.closures.size) fun c hc => List.mem_range.mp hc
      simp only [Option.map_some, hsize]
      generalize DeclarationDraft.declareMethods m (List.range s.graph.closures.size)
        { s with declarations := { types := s.graph.envTypes m } } = x at hdone hfailure
      generalize DeclarationDraft.declareMethods (m.mapVariables (Variable.rename ρ))
        (List.range s.graph.closures.size) { s' with declarations :=
          { types := s'.graph.envTypes (m.mapVariables (Variable.rename ρ)) } } = x'
        at hdone hfailure
      obtain ⟨s₁, o⟩ := x
      obtain ⟨s₁', o'⟩ := x'
      cases rel_of_map_eq hfailure with
      | none => exact ⟨hdone, hdone.declarations.storedValueEnv⟩
      | some hf => exact ⟨hdone, congrArg some hf⟩
  · exact ⟨h, rfl⟩

end Unnest

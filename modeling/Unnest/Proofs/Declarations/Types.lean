import Mathlib.Data.List.Nodup
import Mathlib.Data.List.TakeWhile
import Unnest.Declarations.Make
import Unnest.Proofs.Environments.Chain

/-!
# Types of environments

`Declarations.Typed` says what the types made for a graph look like: there is one for each live
environment, in the order of their numbers, with a field for each hoisted variable and a link where
one is needed. Nothing in it depends on the methods declared later.

A name made for an environment is its own base, and no two are the same, so that a link, which leads
to an environment on the heap, is never taken for a field that stores a value.

## Main statements

* `Graph.typed_envTypes` : the types made for a graph fit it.
* `Declarations.Typed.typeOf` : every live environment has its type.
* `Declarations.Typed.storedValueEnv_eq_none` : no value is stored, unless by a name from outside.
-/

namespace Unnest

/-! ## Association lists -/

theorem mem_of_lookup {α β : Type} [BEq α] [LawfulBEq α] {l : List (α × β)} {a : α} {b : β}
    (h : l.lookup a = some b) : (a, b) ∈ l := by
  obtain ⟨l₁, l₂, rfl, -⟩ := List.lookup_eq_some_iff.mp h
  exact List.mem_append_right _ List.mem_cons_self

theorem mem_of_lookup_zip {α β : Type} [BEq α] [LawfulBEq α] {l : List α} {l' : List β} {a : α}
    (h : (l.zip l').lookup a ≠ none) : a ∈ l := by
  obtain ⟨b, hb⟩ := Option.ne_none_iff_exists'.mp h
  exact (List.of_mem_zip (mem_of_lookup hb)).1

theorem exists_lookup {α β : Type} [BEq α] [LawfulBEq α] {l : List (α × β)} {a : α}
    (h : a ∈ l.map (·.1)) : ∃ b, l.lookup a = some b := by
  obtain ⟨p, hp, rfl⟩ := List.mem_map.mp h
  exact Option.isSome_iff_exists.mp (List.lookup_isSome_iff.mpr ⟨p, hp, beq_self_eq_true _⟩)

/-- A key is looked up to the only value it has. -/
theorem lookup_eq_some_of_forall {α β : Type} [BEq α] [LawfulBEq α] {l : List (α × β)} {a : α}
    {b : β} (h : (a, b) ∈ l) (hb : ∀ p ∈ l, p.1 = a → p.2 = b) : l.lookup a = some b := by
  obtain ⟨b', hb'⟩ := exists_lookup (List.mem_map_of_mem h)
  exact hb'.trans (congrArg some (hb _ (mem_of_lookup hb') rfl))

/-! ## Names -/

namespace TypeName

/-- The name made for the environment with number `i` of a method. -/
def envName (method : String) (i : Nat) : String := method ++ "$Env" ++ toString i

theorem toList_envName (method : String) (i : Nat) :
    (envName method i).toList = method.toList ++ ("$Env".toList ++ Nat.toDigits 10 i) := by
  rw [envName, String.toList_append, String.toList_append, List.append_assoc,
    show toString i = Nat.repr i from rfl, Nat.repr_eq_ofList_toDigits]
  simp

theorem envName_inj {method : String} {i j : Nat} :
    envName method i = envName method j ↔ i = j := by
  refine ⟨fun h => ?_, fun h => by rw [h]⟩
  have h := congrArg String.toList h
  rw [toList_envName, toList_envName, List.append_cancel_left_eq, List.append_cancel_left_eq] at h
  rw [← Nat.ofDigitChars_toDigits (b := 10) (n := i) (by decide) (by decide), h,
    Nat.ofDigitChars_toDigits (by decide) (by decide)]

private theorem ne_of_isDigit {c d : Char} (h : c.isDigit = true) (hd : d.isDigit = false) :
    c ≠ d := by
  rintro rfl
  rw [h] at hd
  exact nomatch hd

private theorem mem_base_ne (type : String) : '<' ∉ (base type).toList := by
  intro h
  rw [base, String.toList_ofList, List.mem_reverse] at h
  have hmem := (List.dropWhile_sublist _).subset h
  rw [List.mem_reverse] at hmem
  simpa using List.mem_takeWhile_imp hmem

/-- A reference to a made name leads back to it and to no other made name. -/
theorem eq_of_base_reference {method : String} {i j : Nat} {args : List String}
    (h : base (reference (envName method i) args) = envName method j) : i = j := by
  by_cases hmem : '<' ∈ method.toList
  · -- then every made name has the character that no base has
    have hin : '<' ∈ (envName method j).toList := by
      rw [toList_envName]
      exact List.mem_append_left _ hmem
    rw [← h] at hin
    exact absurd hin (mem_base_ne _)
  · refine envName_inj.mp (Eq.trans ?_ h)
    have hname : ∀ c ∈ (envName method i).toList, (c != '<') = true := by
      intro c hc
      rw [toList_envName, List.mem_append, List.mem_append] at hc
      rcases hc with hc | hc | hc
      · rw [bne_iff_ne]
        rintro rfl
        exact hmem hc
      · exact List.all_eq_true.mp (show "$Env".toList.all (· != '<') = true by decide) c hc
      · rw [bne_iff_ne]
        exact ne_of_isDigit (Nat.isDigit_of_mem_toDigits (by decide) (by decide) hc) (by decide)
    have htake : ((reference (envName method i) args).toList.takeWhile (· != '<')) =
        (envName method i).toList := by
      rw [reference]
      split
      · exact List.takeWhile_eq_self_iff.mpr hname
      · rw [String.toList_append, String.toList_append, String.toList_append, List.append_assoc,
          List.append_assoc, List.takeWhile_append_of_pos hname]
        simp
    -- the last character is a digit, so nothing is trimmed
    have hdrop : (envName method i).toList.reverse.dropWhile isBlank =
        (envName method i).toList.reverse := by
      have hne : (Nat.toDigits 10 i).reverse ≠ [] := by simp
      obtain ⟨c, cs, hcs⟩ := List.exists_cons_of_ne_nil hne
      have hc : c.isDigit = true := Nat.isDigit_of_mem_toDigits (by decide) (by decide)
        (List.mem_reverse.mp (hcs ▸ List.mem_cons_self))
      have hblank : isBlank c = false := by
        simp only [isBlank, Bool.or_eq_false_iff, beq_eq_false_iff_ne, ne_eq]
        refine ⟨⟨⟨⟨⟨?_, ?_⟩, ?_⟩, ?_⟩, ?_⟩, ?_⟩ <;> exact ne_of_isDigit hc (by decide)
      rw [toList_envName, List.reverse_append, List.reverse_append, hcs]
      simp [hblank]
    rw [base, htake, hdrop, List.reverse_reverse, String.ofList_toList]

end TypeName

/-! ## Types -/

variable {g g' : Graph} {method : Method} {d : Declarations} {e : EnvId} {t : EnvType}
  {v : Variable}

namespace Graph

theorem mem_liveEnvs : e ∈ g.liveEnvs ↔ e < g.envs.size ∧ (g.env e).removed = false := by
  simp [liveEnvs]

/-- Type `t` is made for its environment. -/
structure TypedAs (g : Graph) (method : Method) (t : EnvType) : Prop where
  kind : t.kind = (g.env t.env).kind
  fieldOf : ∀ v o, (v, o) ∈ t.fieldOf → v ∈ (g.env t.env).vars ∧
    ∃ f, o = some f ∧ hoistedField? method t.name t.env t.kind v = some f
  hoisted : ∀ v ∈ (g.env t.env).vars, ∀ f,
    hoistedField? method t.name t.env t.kind v = some f → (v, some f) ∈ t.fieldOf
  link : t.link.isSome = (g.env t.env).needsParent
  link_id : ∀ f, t.link = some f → f.id = .parent t.env
  typeParams : t.typeParams = method.typeParams.map TypeName.renamedParam
  owner : ∀ f ∈ t.fields, f.owner = t.name
  field_mem : ∀ v f, (v, some f) ∈ t.fieldOf → f ∈ t.fields
  link_mem : ∀ f, t.link = some f → f ∈ t.fields

theorem owner_hoistedField {name : String} {kind : EnvKind} {f : Field}
    (hf : hoistedField? method name e kind v = some f) : f.owner = name := by
  rw [hoistedField?.eq_def] at hf
  split at hf
  · split at hf
    · rw [← Option.some.inj hf]
    · exact nomatch hf
  · rw [← Option.some.inj hf]

theorem owner_linkField (g : Graph) (method : Method) (d : Declarations) (t : EnvType) :
    (g.linkField method d t).owner = t.name ∧ (g.linkField method d t).id = .parent t.env := by
  rw [linkField]
  split <;> exact ⟨rfl, rfl⟩

theorem typedAs_envType (g : Graph) (method : Method) (e : EnvId) (i : Nat) (d : Declarations) :
    g.TypedAs method (g.withLink method d (g.envType method e i)) := by
  have hfield (v : Variable) (o : Option Field) : (v, o) ∈ (g.envType method e i).fieldOf ↔
      v ∈ (g.env e).vars ∧ ∃ f, o = some f ∧
        hoistedField? method (TypeName.envName method.name i) e (g.env e).kind v = some f := by
    simp only [envType, List.mem_map, List.mem_filterMap, Option.map_eq_some_iff]
    constructor
    · rintro ⟨⟨_, f⟩, ⟨w, hw, f', hf, heq⟩, heq'⟩
      simp only [Prod.mk.injEq] at heq heq'
      obtain ⟨rfl, rfl⟩ := heq
      obtain ⟨rfl, rfl⟩ := heq'
      exact ⟨hw, f', rfl, hf⟩
    · rintro ⟨hv, f, rfl, hf⟩
      exact ⟨(v, f), ⟨v, hv, f, hf, rfl⟩, rfl⟩
  have howner (f : Field) (hf : f ∈ (g.envType method e i).fields) :
      f.owner = TypeName.envName method.name i := by
    simp only [envType, List.mem_map, List.mem_filterMap, Option.map_eq_some_iff] at hf
    obtain ⟨_, ⟨v, -, f', hf, rfl⟩, rfl⟩ := hf
    exact owner_hoistedField hf
  have hmem (v : Variable) (f : Field) (hf : (v, some f) ∈ (g.envType method e i).fieldOf) :
      f ∈ (g.envType method e i).fields := by
    simp only [envType, List.mem_map] at hf ⊢
    obtain ⟨p, hp, heq⟩ := hf
    exact ⟨p, hp, Option.some.inj (congrArg Prod.snd heq)⟩
  have henv : (g.envType method e i).env = e := rfl
  rw [withLink, henv]
  split
  · rename_i hneeds
    constructor
    case kind => rfl
    case fieldOf => exact fun v o hv => (hfield v o).mp hv
    case hoisted => exact fun v hv f hf => (hfield v _).mpr ⟨hv, f, rfl, hf⟩
    case link => exact hneeds.symm
    case link_id =>
      intro f hf
      rw [← Option.some.inj hf]
      exact (g.owner_linkField method d _).2
    case typeParams => rfl
    case owner =>
      intro f hf
      rcases List.mem_append.mp hf with hf | hf
      · exact howner f hf
      · rw [List.mem_singleton.mp hf]
        exact (g.owner_linkField method d _).1
    case field_mem => exact fun v f hf => List.mem_append_left _ (hmem v f hf)
    case link_mem =>
      intro f hf
      rw [← Option.some.inj hf]
      exact List.mem_append_right _ (List.mem_singleton.mpr rfl)
  · rename_i hneeds
    exact ⟨rfl, fun v o hv => (hfield v o).mp hv,
      fun v hv f hf => (hfield v _).mpr ⟨hv, f, rfl, hf⟩,
      (Bool.eq_false_iff.mpr hneeds).symm, fun _ => (nomatch ·), rfl, howner, hmem,
      fun _ => (nomatch ·)⟩

/-- A hoisted variable is found in its field. -/
theorem TypedAs.field_eq (ht : g.TypedAs method t) (hv : v ∈ (g.env t.env).vars) :
    t.field? v = hoistedField? method t.name t.env t.kind v := by
  rw [EnvType.field?]
  cases hlookup : t.fieldOf.lookup v with
  | some o =>
    obtain ⟨-, f, rfl, hf⟩ := ht.fieldOf v o (mem_of_lookup hlookup)
    exact hf.symm
  | none =>
    cases hf : hoistedField? method t.name t.env t.kind v with
    | none => rfl
    | some f =>
      have hmem := List.mem_map_of_mem (f := Prod.fst) (ht.hoisted v hv f hf)
      obtain ⟨o, ho⟩ := exists_lookup hmem
      rw [hlookup] at ho
      exact nomatch ho

/-- The field of a variable is one of the type. -/
theorem TypedAs.mem_fields (ht : g.TypedAs method t) {f : Field} (hf : t.field? v = some f) :
    f ∈ t.fields := by
  rw [EnvType.field?, Option.join_eq_some_iff] at hf
  exact ht.field_mem v f (mem_of_lookup hf)

/-- The field of a variable shows in its identity whose it is. -/
theorem id_hoistedField {name : String} {kind : EnvKind} {f : Field}
    (hf : hoistedField? method name e kind v = some f) : f.id = .hoisted e v.id := by
  rw [hoistedField?.eq_def] at hf
  split at hf
  · split at hf
    · rw [← Option.some.inj hf]
    · exact nomatch hf
  · rw [← Option.some.inj hf]

theorem TypedAs.field_id (ht : g.TypedAs method t) {f : Field} (hf : t.field? v = some f) :
    v ∈ (g.env t.env).vars ∧ f.id = .hoisted t.env v.id := by
  rw [EnvType.field?, Option.join_eq_some_iff] at hf
  obtain ⟨hv, f', hf', hfield⟩ := ht.fieldOf v _ (mem_of_lookup hf)
  obtain rfl := Option.some.inj hf'
  exact ⟨hv, id_hoistedField hfield⟩

/-- The fields of type `t` in their order: those of the hoisted variables, and then the link. -/
structure LaidAs (g : Graph) (method : Method) (d : Declarations) (t : EnvType) : Prop where
  fieldOf : t.fieldOf = (g.env t.env).vars.toList.filterMap fun v =>
    (hoistedField? method t.name t.env t.kind v).map fun f => (v, some f)
  fields : t.fields = t.fieldOf.filterMap (·.2) ++ t.link.toList
  link : t.link = if (g.env t.env).needsParent then some (g.linkField method d t) else none

/-- A link depends on the names of types only. -/
theorem linkField_congr {d' : Declarations} {u : EnvType} (henv : u.env = t.env)
    (hname : u.name = t.name) (hnames : ∀ p, d'.typeName p = d.typeName p) :
    g.linkField method d' u = g.linkField method d t := by
  simp only [linkField, henv, hname, hnames]

theorem laidAs_envType (g : Graph) (method : Method) (e : EnvId) (i : Nat) (d : Declarations) :
    g.LaidAs method d (g.withLink method d (g.envType method e i)) := by
  have hfields : (g.envType method e i).fieldOf.filterMap (·.2) =
      (g.envType method e i).fields := by
    simp [envType, List.filterMap_map]
  have hfieldOf : (g.envType method e i).fieldOf =
      (g.env e).vars.toList.filterMap fun v => (hoistedField? method
        (TypeName.envName method.name i) e (g.env e).kind v).map fun f => (v, some f) := by
    simp only [envType, List.map_filterMap, Option.map_map]
    rfl
  have henv : (g.envType method e i).env = e := rfl
  rw [withLink, henv]
  split
  · rename_i hneeds
    refine ⟨hfieldOf, ?_, ?_⟩
    · change _ ++ _ = _ ++ _
      rw [hfields]
      rfl
    · exact (if_pos hneeds).symm
  · rename_i hneeds
    refine ⟨hfieldOf, ?_, (if_neg hneeds).symm⟩
    rw [hfields]
    exact (List.append_nil _).symm

end Graph

namespace Declarations

/-- The types fit the graph: one for each live environment. -/
structure Typed (d : Declarations) (g : Graph) (method : Method) : Prop where
  envs : d.types.map (·.env) = g.liveEnvs
  typedAs : ∀ t ∈ d.types, g.TypedAs method t
  laid : ∀ t ∈ d.types, g.LaidAs method d t
  name : ∀ i t, d.types[i]? = some t → t.name = TypeName.envName method.name i
  /-- The types of fields come from outside or lead to the environment around. -/
  fields : ∀ t ∈ d.types, ∀ f ∈ t.fields, f.type = method.owner ∨
    (∃ v ∈ (g.env t.env).vars, f.type = TypeName.renameParams method.typeParams v.type) ∨
    ∃ p args, g.runtimeParent? t.env = some p ∧ f.type = TypeName.reference (d.typeName p) args

theorem typeOf_push (d : Declarations) (m : LoweredMethod) (e : EnvId) : (d.push m).typeOf? e =
    (d.typeOf? e).map fun t =>
      if m.host = some t.env then { t with methods := t.methods ++ [m.symbol] } else t := by
  rw [typeOf?, push, List.find?_map, typeOf?]
  congr 2
  funext t
  simp only [Function.comp_apply]
  split <;> rfl

theorem typeName_push (d : Declarations) (m : LoweredMethod) (e : EnvId) :
    (d.push m).typeName e = d.typeName e := by
  rw [typeName, typeOf_push, typeName]
  cases d.typeOf? e with
  | none => rfl
  | some t =>
    simp only [Option.map_some, Option.getD_some]
    split <;> rfl

/-- Methods do not matter to types. -/
theorem Typed.push (h : d.Typed g method) (m : LoweredMethod) : (d.push m).Typed g method := by
  have hproj {α : Type} (proj : EnvType → α)
      (hproj : ∀ t ms, proj { t with methods := ms } = proj t) (t : EnvType) :
      proj (if m.host = some t.env then { t with methods := t.methods ++ [m.symbol] } else t) =
        proj t := by
    split
    · exact hproj t _
    · rfl
  constructor
  case envs =>
    rw [← h.envs, Declarations.push, List.map_map]
    exact List.map_congr_left fun t _ => hproj EnvType.env (fun _ _ => rfl) t
  case typedAs =>
    intro t ht
    obtain ⟨u, hu, rfl⟩ := List.mem_map.mp ht
    have hu := h.typedAs u hu
    split
    · exact ⟨hu.kind, hu.fieldOf, hu.hoisted, hu.link, hu.link_id, hu.typeParams, hu.owner,
        hu.field_mem, hu.link_mem⟩
    · exact hu
  case laid =>
    intro t ht
    obtain ⟨u, hu, rfl⟩ := List.mem_map.mp ht
    have hu := h.laid u hu
    refine ⟨?_, ?_, ?_⟩
    · rw [hproj EnvType.fieldOf fun _ _ => rfl, hproj EnvType.env fun _ _ => rfl,
        hproj EnvType.name fun _ _ => rfl, hproj EnvType.kind fun _ _ => rfl]
      exact hu.fieldOf
    · rw [hproj EnvType.fieldOf fun _ _ => rfl, hproj EnvType.fields fun _ _ => rfl,
        hproj EnvType.link fun _ _ => rfl]
      exact hu.fields
    · rw [hproj EnvType.link fun _ _ => rfl, hproj EnvType.env fun _ _ => rfl,
        Graph.linkField_congr (hproj EnvType.env (fun _ _ => rfl) u)
          (hproj EnvType.name (fun _ _ => rfl) u) (d.typeName_push m)]
      exact hu.link
  case name =>
    intro i t ht
    rw [Declarations.push, List.getElem?_map] at ht
    obtain ⟨u, hu, rfl⟩ := Option.map_eq_some_iff.mp ht
    rw [hproj EnvType.name fun _ _ => rfl]
    exact h.name i u hu
  case fields =>
    intro t ht f hf
    obtain ⟨u, hu, rfl⟩ := List.mem_map.mp ht
    rw [hproj EnvType.fields fun _ _ => rfl] at hf
    rw [hproj EnvType.env fun _ _ => rfl]
    simp only [typeName_push]
    exact h.fields u hu f hf

theorem Typed.env_mem (h : d.Typed g method) {t : EnvType} (ht : t ∈ d.types) :
    t.env ∈ g.liveEnvs := by
  rw [← h.envs]
  exact List.mem_map_of_mem ht

/-- Every live environment has its type. -/
theorem Typed.typeOf (h : d.Typed g method) (he : e < g.envs.size)
    (hlive : (g.env e).removed = false) :
    ∃ t, d.typeOf? e = some t ∧ t ∈ d.types ∧ t.env = e := by
  have hmem : e ∈ d.types.map (·.env) := h.envs ▸ Graph.mem_liveEnvs.mpr ⟨he, hlive⟩
  obtain ⟨t, ht, hte⟩ := List.mem_map.mp hmem
  have hsome : (d.typeOf? e).isSome = true := List.find?_isSome.mpr ⟨t, ht, by simpa using hte⟩
  obtain ⟨u, hu⟩ := Option.isSome_iff_exists.mp hsome
  exact ⟨u, hu, List.mem_of_find?_eq_some hu, by simpa using List.find?_some hu⟩

theorem Typed.nodup_envs (h : d.Typed g method) : (d.types.map (·.env)).Nodup := by
  rw [h.envs]
  exact List.nodup_range.filter _

/-- A type is found by its environment. -/
theorem Typed.typeOf_env (h : d.Typed g method) {t : EnvType} (ht : t ∈ d.types) :
    d.typeOf? t.env = some t := by
  obtain ⟨hlt, hlive⟩ := Graph.mem_liveEnvs.mp (h.env_mem ht)
  obtain ⟨u, hu, hmem, henv⟩ := h.typeOf hlt hlive
  rw [hu, List.inj_on_of_nodup_map h.nodup_envs hmem ht henv]

theorem Typed.of_typeOf (h : d.Typed g method) {t : EnvType} (ht : d.typeOf? e = some t) :
    t ∈ d.types ∧ t.env = e ∧ g.TypedAs method t := by
  have hmem := List.mem_of_find?_eq_some ht
  exact ⟨hmem, by simpa using List.find?_some ht, h.typedAs t hmem⟩

end Declarations

theorem Graph.proj_withLink {α : Type} (proj : EnvType → α)
    (hproj : ∀ t fs l, proj { t with fields := fs, link := l } = proj t) (g : Graph)
    (method : Method) (d : Declarations) (t : EnvType) : proj (g.withLink method d t) = proj t := by
  rw [withLink]
  split
  · exact hproj t _ _
  · rfl

theorem Graph.fields_envType {i : Nat} {f : Field} (hf : f ∈ (g.envType method e i).fields) :
    f.type = method.owner ∨
      ∃ v ∈ (g.env e).vars, f.type = TypeName.renameParams method.typeParams v.type := by
  simp only [envType, List.mem_map, List.mem_filterMap, Option.map_eq_some_iff] at hf
  obtain ⟨_, ⟨v, hv, f', hf, rfl⟩, rfl⟩ := hf
  rw [hoistedField?.eq_def] at hf
  split at hf
  · split at hf
    · rw [← Option.some.inj hf]
      exact .inl rfl
    · exact nomatch hf
  · rw [← Option.some.inj hf]
    exact .inr ⟨v, hv, rfl⟩

/-- The types made for a graph fit it. -/
theorem Graph.typed_envTypes (g : Graph) (method : Method) :
    Declarations.Typed { types := g.envTypes method } g method := by
  let raw : Declarations := { types := g.liveEnvs.mapIdx fun i e => g.envType method e i }
  have htypes : g.envTypes method = raw.types.map (g.withLink method raw) := rfl
  have hname (p : EnvId) :
      Declarations.typeName { types := g.envTypes method } p = raw.typeName p := by
    rw [Declarations.typeName, Declarations.typeName, Declarations.typeOf?, htypes, List.find?_map,
      Declarations.typeOf?]
    have hcomp : ((fun t : EnvType => decide (t.env = p)) ∘ g.withLink method raw) =
        fun t => decide (t.env = p) := by
      funext t
      simp only [Function.comp_apply, proj_withLink EnvType.env fun _ _ _ => rfl]
    rw [hcomp, Option.map_map]
    congr 2
    funext t
    exact proj_withLink EnvType.name (fun _ _ _ => rfl) g method raw t
  constructor
  case envs =>
    change (g.envTypes method).map _ = _
    rw [htypes, List.map_map]
    have hproj : EnvType.env ∘ g.withLink method raw = EnvType.env :=
      funext fun t => proj_withLink EnvType.env (fun _ _ _ => rfl) g method raw t
    rw [show (fun t : EnvType => t.env) = EnvType.env from rfl, hproj]
    exact List.ext_getElem (by simp [raw]) fun i _ _ => by simp [raw, envType]
  case typedAs =>
    intro t ht
    obtain ⟨u, hu, rfl⟩ := List.mem_map.mp ht
    obtain ⟨i, hi, rfl⟩ := List.mem_mapIdx.mp hu
    exact g.typedAs_envType method _ i raw
  case laid =>
    intro t ht
    obtain ⟨u, hu, rfl⟩ := List.mem_map.mp ht
    obtain ⟨i, hi, rfl⟩ := List.mem_mapIdx.mp hu
    have hlaid := g.laidAs_envType method g.liveEnvs[i] i raw
    refine ⟨hlaid.fieldOf, hlaid.fields, hlaid.link.trans ?_⟩
    rw [linkField_congr rfl rfl hname]
  case name =>
    intro i t ht
    change (g.envTypes method)[i]? = some t at ht
    rw [htypes, List.getElem?_map] at ht
    obtain ⟨u, hu, rfl⟩ := Option.map_eq_some_iff.mp ht
    rw [proj_withLink EnvType.name fun _ _ _ => rfl]
    rw [List.getElem?_mapIdx] at hu
    obtain ⟨e, -, rfl⟩ := Option.map_eq_some_iff.mp hu
    rfl
  case fields =>
    intro t ht f hf
    obtain ⟨u, hu, rfl⟩ := List.mem_map.mp ht
    obtain ⟨i, hi, rfl⟩ := List.mem_mapIdx.mp hu
    simp only [hname]
    rw [proj_withLink EnvType.env fun _ _ _ => rfl]
    rw [withLink] at hf
    split at hf
    · rcases List.mem_append.mp hf with hf | hf
      · rcases fields_envType hf with howner | htype
        · exact .inl howner
        · exact .inr (.inl htype)
      · rw [List.mem_singleton.mp hf, linkField]
        split
        · exact .inr (.inr ⟨_, _, ‹_›, rfl⟩)
        · exact .inl rfl
    · rcases fields_envType hf with howner | htype
      · exact .inl howner
      · exact .inr (.inl htype)

/-! ## Values are not stored -/

namespace Declarations.Typed

variable {m : MethodBody}

/-- Types with the same name are made for the same environment. -/
theorem eq_of_name (h : d.Typed g method) {u : EnvType} (ht : t ∈ d.types) (hu : u ∈ d.types)
    {args : List String} (hname : TypeName.base (TypeName.reference t.name args) = u.name) :
    t = u := by
  obtain ⟨i, hi, rfl⟩ := List.mem_iff_getElem.mp ht
  obtain ⟨j, hj, rfl⟩ := List.mem_iff_getElem.mp hu
  rw [h.name i _ (List.getElem?_eq_getElem hi), h.name j _ (List.getElem?_eq_getElem hj)] at hname
  obtain rfl := TypeName.eq_of_base_reference hname
  rfl

/-- No field stores a value, unless a type from outside has the name of an environment. -/
theorem storedValueEnv_eq_none (h : d.Typed g method) (hs : g.Seated m)
    (howner : ∀ t ∈ d.types, TypeName.base method.owner ≠ t.name)
    (hvars : ∀ e, (g.env e).removed = false → ∀ v ∈ (g.env e).vars, ∀ t ∈ d.types,
      TypeName.base (TypeName.renameParams method.typeParams v.type) ≠ t.name) :
    d.storedValueEnv? = none := by
  have hlive (t : EnvType) (ht : t ∈ d.types) : (g.env t.env).removed = false :=
    (Graph.mem_liveEnvs.mp (h.env_mem ht)).2
  refine List.findSome?_eq_none_iff.mpr fun t ht => List.findSome?_eq_none_iff.mpr fun f hf => ?_
  rw [if_neg]
  intro hmem
  obtain ⟨u, hu, hname⟩ := List.mem_map.mp hmem
  obtain ⟨hu, hvalue⟩ := List.mem_filter.mp hu
  rcases h.fields t ht f hf with htype | ⟨v, hv, htype⟩ | ⟨p, args, hp, htype⟩
  · rw [htype] at hname
    exact howner u hu hname.symm
  · rw [htype] at hname
    exact hvars t.env (hlive t ht) v hv u hu hname.symm
  · -- a link leads to the heap
    have hlref := (hs.surroundingEnv_spec hp).1
    have hrem : (g.env p).removed = false := by
      simp only [Environment.isLiveReference, Bool.and_eq_true, Bool.not_eq_true'] at hlref
      exact hlref.1
    obtain ⟨w, hw, hwmem, rfl⟩ := h.typeOf (Graph.lt_of_isLiveReference hlref) hrem
    rw [htype, typeName, hw] at hname
    obtain rfl := h.eq_of_name hwmem hu hname.symm
    have hk := (h.typedAs w hwmem).kind
    simp only [Environment.isLiveReference, Environment.isValue, ← hk] at hlref
    simp only [EnvType.isValue, decide_eq_true_eq] at hvalue
    simp [hvalue] at hlref

end Declarations.Typed

end Unnest

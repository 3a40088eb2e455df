import Mathlib.Data.List.Nodup
import Mathlib.Data.List.ReduceOption
import Unnest.Proofs.Graph.Body
import Unnest.Proofs.Graph.Forest

/-!
# Paths in a body and chains of scopes

In the graph of a body the blocks around a node are the ancestors of its scope, and the functions
around it are the owners among them. So questions about the graph (which scope encloses which, whose
frame a scope belongs to, whether a closure declares a variable in its body) are questions about
paths in the syntax.

## Main statements

* `Graph.Holds.blocks_eq` : the blocks of a path are the ancestors of its scope.
* `Graph.Holds.ranked` : parents come before their children, so the search for an enclosing scope
  finds the ancestors.
* `Graph.Holds.frame_eq` : a scope runs in the frame of the innermost function around it.
* `Graph.Holds.bodyDeclares_iff` : the body of a closure declares what is declared at a path through
  its function.
* `Graph.Holds.preorder_eq` : scopes are visited in the order of their numbers.
-/

namespace Unnest

/-- The scope of the nodes at a path: the innermost block around them. -/
def Path.scope (p : Path) : ScopeId := p.blocks.head?.getD Graph.root

theorem Path.blocks_into {n : Node} {b : Block} (hb : n.opened? = some b) (p : Path) :
    (p.into n).blocks = b.id :: p.blocks := by simp [into, hb]

theorem Path.scope_into {n : Node} {b : Block} (hb : n.opened? = some b) (p : Path) :
    (p.into n).scope = b.id := by simp [scope, blocks_into hb]

theorem Path.functions_into (p : Path) (n : Node) :
    (p.into n).functions = n.function?.toList ++ p.functions := rfl

namespace Node

theorem NumberedFrom.of_mem {k : Nat} {ns : List Node} {n : Node} (h : NumberedFrom k ns)
    (hn : n ∈ ns) : ∃ i, k ≤ i ∧ NumberedFrom i [n] := by
  obtain ⟨before, after, rfl⟩ := List.append_of_mem hn
  obtain ⟨-, hrest⟩ := h.append
  obtain ⟨hn, -⟩ := NumberedFrom.append (show NumberedFrom _ ([n] ++ after) from hrest)
  exact ⟨_, by lia, hn⟩

/-- A block has a larger number than the blocks around it. -/
theorem lt_of_mem_sites {n : Node} {p : Path} {k : Nat} (hnum : NumberedFrom k [n])
    (hp : ∀ i ∈ p.blocks, i < k) {q : Path} {n' : Node} {b : Block} (h : (q, n') ∈ n.sites p)
    (hb : n'.opened? = some b) : ∀ i ∈ q.blocks, i < b.id := by
  induction n using Node.induction generalizing p k with
  | step n ih =>
    obtain heq | ⟨m, hm, h⟩ := mem_sites.mp h
    · obtain ⟨rfl, rfl⟩ := Prod.mk.inj heq
      rw [(hnum.opened hb).1]
      exact hp
    · cases hopen : n.opened? with
      | none =>
        obtain ⟨i, hi, hm'⟩ := (hnum.inner hopen).of_mem hm
        rw [into_of_isNone hopen] at h
        exact ih m hm hm' (fun j hj => Nat.lt_of_lt_of_le (hp j hj) hi) h
      | some b' =>
        obtain ⟨hid, hinner⟩ := hnum.opened hopen
        obtain ⟨i, hi, hm'⟩ := hinner.of_mem hm
        refine ih m hm hm' (fun j hj => ?_) h
        rw [Path.blocks_into hopen, List.mem_cons] at hj
        rcases hj with rfl | hj
        · lia
        · have := hp j hj
          lia

end Node

namespace MethodBody

variable {m : MethodBody} {p : Path} {n : Node}

/-- Path `p` leads to the nodes directly inside a block of the body. -/
inductive Leads (m : MethodBody) : Path → Prop where
  | outermost : m.Leads .outermost
  | into {p : Path} {n : Node} {b : Block} (hp : m.Leads p) (hn : (p, n) ∈ m.numbered.sites)
      (hb : n.opened? = some b) : m.Leads (p.into n)

/-- Where a variable is declared: the receiver and the parameters of the method outermost, the
parameters of a nested function in its body, any other variable at its declaration. -/
inductive Declares (m : MethodBody) : Path → Variable → Prop where
  | receiver {v : Variable} (h : m.receiver = some v) : m.Declares .outermost v
  | methodParam {method : Method} {v : Variable} (hm : m.method = some method)
      (hv : some v ∈ method.params) : m.Declares .outermost v
  | param {p : Path} {n : Node} {f : NestedFunction} {v : Variable}
      (hn : (p, n) ∈ m.numbered.sites) (hf : n.function? = some f) (hv : some v ∈ f.params) :
      m.Declares (p.into n) v
  | statement {p : Path} {n : Node} {v : Variable} (hn : (p, n) ∈ m.numbered.sites)
      (hv : n.declared? = some v) : m.Declares p v

theorem leads_of_mem_sites (h : (p, n) ∈ m.numbered.sites) : m.Leads p := by
  -- downwards from the outermost nodes, all of whose sites are sites of the body
  have hdown (k : Node) : ∀ q, m.Leads q → (∀ s ∈ k.sites q, s ∈ m.numbered.sites) →
      ∀ s ∈ k.sites q, m.Leads s.1 := by
    induction k using Node.induction with
    | step k ih =>
      intro q hq hsub s hs
      obtain rfl | ⟨k', hk', hs⟩ := Node.mem_sites.mp hs
      · exact hq
      · have hinto : m.Leads (q.into k) := by
          cases hb : k.opened? with
          | none => rwa [Node.into_of_isNone hb]
          | some b => exact .into hq (hsub _ (Node.self_mem_sites q k)) hb
        exact ih k' hk' _ hinto (fun t ht => hsub t (Node.mem_sites_of_inner hk' ht)) s hs
  have hsites := m.sites_numbered
  obtain ⟨k, hk, hmem⟩ := List.mem_flatMap.mp (hsites ▸ h)
  refine hdown k _ .outermost (fun s hs => ?_) _ hmem
  rw [hsites]
  exact List.mem_flatMap.mpr ⟨k, hk, hs⟩

/-- A node of a body stands outermost or directly inside another node. -/
theorem outer_of_mem_sites (h : (p, n) ∈ m.numbered.sites) :
    (p = .outermost ∧ n ∈ m.topNodes) ∨
      ∃ q k, (q, k) ∈ m.numbered.sites ∧ n ∈ k.inner ∧ p = q.into k := by
  rw [m.sites_numbered] at h ⊢
  obtain ⟨k, hk, hmem⟩ := List.mem_flatMap.mp h
  obtain heq | ⟨t, ht, hn, hp⟩ := Node.eq_or_inner_of_mem_sites hmem
  · obtain ⟨rfl, rfl⟩ := Prod.mk.inj heq
    exact .inl ⟨rfl, hk⟩
  · exact .inr ⟨t.1, t.2, List.mem_flatMap.mpr ⟨k, hk, ht⟩, hn, hp⟩

theorem mem_sites_of_topNodes (h : n ∈ m.topNodes) : (.outermost, n) ∈ m.numbered.sites := by
  rw [m.sites_numbered]
  exact List.mem_flatMap.mpr ⟨n, h, Node.self_mem_sites _ n⟩

theorem mem_sites_of_inner {k : Node} (h : (p, n) ∈ m.numbered.sites) (hk : k ∈ n.inner) :
    (p.into n, k) ∈ m.numbered.sites := by
  rw [m.sites_numbered] at h ⊢
  obtain ⟨top, htop, hmem⟩ := List.mem_flatMap.mp h
  exact List.mem_flatMap.mpr ⟨top, htop, Node.inner_mem_sites hmem hk⟩

/-- What is inside a node that opens no block stands where the node does. -/
theorem mem_sites_of_isNone {k : Node} (h : (p, n) ∈ m.numbered.sites) (hnone : n.opened? = none)
    (hk : k ∈ n.inner) : (p, k) ∈ m.numbered.sites := by
  have hsite := mem_sites_of_inner h hk
  rwa [Node.into_of_isNone hnone] at hsite

/-- The operands of an expression stand where it does, unless it is a lambda. -/
theorem mem_sites_of_operand {e x : Expr} (h : (p, .expr e) ∈ m.numbered.sites)
    (hnone : (Node.expr e).opened? = none) (hx : x ∈ e.operands) :
    .expr x ∈ (Node.expr e).inner ∧ (p, .expr x) ∈ m.numbered.sites := by
  have hmem := Node.inner_expr hnone ▸ List.mem_map_of_mem hx
  exact ⟨hmem, mem_sites_of_isNone h hnone hmem⟩

theorem Leads.head_blocks (hp : m.Leads p) : p.blocks.head? = some p.scope := by
  cases hp with
  | outermost => rfl
  | into hp hn hb => rw [Path.scope_into hb, Path.blocks_into hb, List.head?_cons]

theorem Leads.scope_mem (hp : m.Leads p) : p.scope ∈ p.blocks :=
  List.mem_of_mem_head? hp.head_blocks

theorem lt_opened {b : Block} (hn : (p, n) ∈ m.numbered.sites) (hb : n.opened? = some b) :
    ∀ i ∈ p.blocks, i < b.id := by
  rw [m.sites_numbered] at hn
  obtain ⟨k, hk, hmem⟩ := List.mem_flatMap.mp hn
  obtain ⟨i, hi, hnum⟩ := m.numberedFrom_topNodes.of_mem hk
  refine Node.lt_of_mem_sites hnum (fun j hj => ?_) hmem hb
  obtain rfl : j = Graph.root := by simpa [Path.outermost] using hj
  exact hi

end MethodBody

namespace Graph

variable {g : Graph} {m : MethodBody} {p q : Path} {n : Node} {b : Block} {s : ScopeId}
  {c : ClosureId} {v : Variable}

/-! ## Chains of scopes -/

namespace Holds

theorem blocks_eq (h : g.Holds m) (hp : m.Leads p) : p.blocks = g.ancestors p.scope := by
  induction hp with
  | outermost =>
    rw [ancestors, show Path.outermost.scope = root from rfl, h.root_parent]
    rfl
  | @into p n b hp hn hb ih =>
    have hparent := ((h.lays p n hn).scope b hb).parent
    have hlt := MethodBody.lt_opened hn hb p.scope hp.scope_mem
    rw [Path.scope_into hb, Path.blocks_into hb, ancestors, hparent, hp.head_blocks, ih]
    simp only [hlt, dite_true]

/-- A block is directly inside the scope of the node that opens it. -/
theorem ancestors_opened (h : g.Holds m) {b : Block} (hn : (p, n) ∈ m.numbered.sites)
    (hb : n.opened? = some b) : g.ancestors b.id = b.id :: g.ancestors p.scope := by
  have hp := MethodBody.leads_of_mem_sites hn
  have hblocks := h.blocks_eq (.into hp hn hb)
  rw [Path.scope_into hb, Path.blocks_into hb, h.blocks_eq hp] at hblocks
  exact hblocks.symm

theorem scope_lt (h : g.Holds m) (hp : m.Leads p) : p.scope < g.scopes.size := by
  cases hp with
  | outermost => exact h.root_lt
  | into hp hn hb => rw [Path.scope_into hb]; exact ((h.lays _ _ hn).scope _ hb).lt

theorem depth_eq (h : g.Holds m) (hp : m.Leads p) :
    (g.scope p.scope).depth + 1 = p.blocks.length := by
  cases hp with
  | outermost => rw [show Path.outermost.scope = root from rfl, h.root_depth]; rfl
  | into hp hn hb =>
    rw [Path.scope_into hb, Path.blocks_into hb, ((h.lays _ _ hn).scope _ hb).depth,
      List.length_cons]

/-- Every scope but the outermost one belongs to a node that opens a block. -/
theorem site_of_scope (h : g.Holds m) (hs : s < g.scopes.size) (hroot : s ≠ root) :
    ∃ p n b, (p, n) ∈ m.numbered.sites ∧ n.opened? = some b ∧ b.id = s := by
  have hmem : s ∈ m.topNodes.flatMap Node.blockIds := by
    rw [h.numbered, List.mem_range'_1, ← h.size]
    exact ⟨Nat.one_le_iff_ne_zero.mpr hroot, hs⟩
  obtain ⟨k, hk, hmem⟩ := List.mem_flatMap.mp hmem
  rw [← Node.filterMap_opened_sites .outermost, List.mem_filterMap] at hmem
  obtain ⟨⟨p, n⟩, hn, hb⟩ := hmem
  obtain ⟨b, hb, hid⟩ := Option.map_eq_some_iff.mp hb
  refine ⟨p, n, b, ?_, hb, hid⟩
  rw [m.sites_numbered]
  exact List.mem_flatMap.mpr ⟨k, hk, hn⟩

theorem exists_path (h : g.Holds m) (hs : s < g.scopes.size) : ∃ p, m.Leads p ∧ p.scope = s := by
  by_cases hroot : s = root
  · exact ⟨.outermost, .outermost, hroot.symm⟩
  · obtain ⟨p, n, b, hn, hb, rfl⟩ := h.site_of_scope hs hroot
    exact ⟨p.into n, .into (MethodBody.leads_of_mem_sites hn) hn hb, Path.scope_into hb p⟩

theorem parent_lt (h : g.Holds m) {s p : ScopeId} (hp : (g.scope s).parent = some p) :
    p < s ∧ (g.scope s).depth = (g.scope p).depth + 1 := by
  have hs : s < g.scopes.size := lt_of_inside hp
  have hroot : s ≠ root := by
    rintro rfl
    rw [h.root_parent] at hp
    cases hp
  obtain ⟨q, n, b, hn, hb, rfl⟩ := h.site_of_scope hs hroot
  have hlays := (h.lays q n hn).scope b hb
  have hq := MethodBody.leads_of_mem_sites hn
  obtain rfl : q.scope = p :=
    Option.some.inj (hq.head_blocks.symm.trans (hlays.parent.symm.trans hp))
  exact ⟨MethodBody.lt_opened hn hb _ hq.scope_mem, hlays.depth.trans (h.depth_eq hq).symm⟩

/-- The scopes of a body are ranked. -/
theorem ranked (h : g.Holds m) : g.Ranked where
  lt _ _ hp := (h.parent_lt hp).1
  depth _ _ hp := (h.parent_lt hp).2 ▸ Nat.lt_succ_self _

/-- The outermost scope declares the receiver, the parameters of the method and its own
variables. -/
theorem vars_root (h : g.Holds m) {method : Method} {b : Block} (hm : m.method = some method)
    (hb : m.numbered.block = some b) : (g.scope root).vars.toList =
      m.receiver.toList ++ method.params.reduceOption ++ b.declared := by
  obtain ⟨method', -, hm', -, -, -, hvars⟩ := h.complete
  obtain rfl := Option.some.inj (hm'.symm.trans hm)
  rw [hvars, MethodBody.topNodes, hb]
  rfl

/-! ## Closures -/

theorem closure_inj (h : g.Holds m) {d : ClosureId} (hc : c < g.closures.size)
    (hd : d < g.closures.size) (heq : (g.closure c).function = (g.closure d).function) :
    c = d := by
  rw [← length_functions] at hc hd
  rw [← functions_getElem g hc, ← functions_getElem g hd] at heq
  exact (List.Nodup.getElem_inj_iff h.tidy.functions_nodup).mp heq

theorem closureOf_eq_some (h : g.Holds m) {f : NestedFunction} :
    g.closureOf? f = some c ↔ c < g.closures.size ∧ (g.closure c).function = f := by
  refine ⟨fun hc => ⟨lt_of_closureOf hc, function_of_closureOf hc⟩, ?_⟩
  rintro ⟨hc, rfl⟩
  cases hd : g.closureOf? (g.closure c).function with
  | none => exact absurd rfl (closureOf_eq_none.mp hd c hc)
  | some d => rw [h.closure_inj (lt_of_closureOf hd) hc (function_of_closureOf hd)]

/-- Every closure belongs to a nested function of the body. -/
theorem site_of_closure (h : g.Holds m) (hc : c < g.closures.size) :
    ∃ p n b, (p, n) ∈ m.numbered.sites ∧ n.nested? = some (some (g.closure c).function, b) ∧
      g.LaysFunction p (g.closure c).function b c := by
  have hmem : (g.closure c).function ∈ m.topNodes.flatMap Node.functions := by
    rw [← h.functions]
    have hc' : c < g.functions.length := by rwa [length_functions]
    rw [← functions_getElem g hc']
    exact List.getElem_mem hc'
  obtain ⟨k, hk, hmem⟩ := List.mem_flatMap.mp hmem
  rw [← Node.filterMap_function_sites .outermost, List.mem_filterMap] at hmem
  obtain ⟨⟨p, n⟩, hn, hf⟩ := hmem
  have hsite : (p, n) ∈ m.numbered.sites := by
    rw [m.sites_numbered]
    exact List.mem_flatMap.mpr ⟨k, hk, hn⟩
  obtain ⟨⟨fn, b⟩, hn', rfl⟩ := Option.bind_eq_some_iff.mp hf
  refine ⟨p, n, b, hsite, hn', ?_⟩
  obtain ⟨f, d, hf, hd⟩ := (h.lays p n hsite).function _ b hn'
  obtain rfl := Option.some.inj hf
  rwa [h.closure_inj hd.lt hc hd.function] at hd

/-- The body of a closure declares the parameters of its function and its own variables. -/
theorem vars_body (h : g.Holds m) (hc : c < g.closures.size) :
    ∃ b, (g.scope (g.closure c).body).block = some b ∧ b.id = (g.closure c).body ∧
      (g.scope (g.closure c).body).vars.toList =
        (g.closure c).function.params.reduceOption ++ b.declared := by
  obtain ⟨p, n, b, hn, hnested, hlays⟩ := h.site_of_closure hc
  have hopen := Node.opened_of_nested hnested
  have hscope := (h.lays p n hn).scope b hopen
  have hparams : n.params = (g.closure c).function.params.reduceOption := by
    simp [Node.params, Node.function?, hnested]
  have hinner : n.inner.filterMap Node.declared? = b.declared := by
    rw [Node.inner_of_opened hopen]
    rfl
  rw [hlays.body]
  exact ⟨b, hscope.block, rfl, by rw [hscope.vars, hparams, hinner]⟩

theorem nodup_params (h : g.Holds m) (hc : c < g.closures.size) :
    (g.closure c).function.params.reduceOption.Nodup := by
  obtain ⟨b, -, -, hvars⟩ := h.vars_body hc
  exact (List.nodup_append.mp (hvars ▸ OrderedSet.nodup _)).1

/-- A scope is owned by the closure whose body it is. -/
theorem owner_eq_some (h : g.Holds m) :
    (g.scope s).owner = some c ↔ c < g.closures.size ∧ (g.closure c).body = s := by
  constructor
  · intro howner
    have hs : s < g.scopes.size := lt_of_scope Scope.owner howner nofun
    have hroot : s ≠ root := by
      rintro rfl
      rw [h.root_owner] at howner
      exact nomatch howner
    obtain ⟨p, n, b, hn, hb, rfl⟩ := h.site_of_scope hs hroot
    have hlays := h.lays p n hn
    cases hn' : n.nested? with
    | none =>
      rw [(hlays.scope b hb).owner hn'] at howner
      exact nomatch howner
    | some fb =>
      obtain ⟨f, d, -, hd⟩ := hlays.function fb.1 fb.2 hn'
      obtain rfl : fb.2 = b := Option.some.inj ((Node.opened_of_nested hn').symm.trans hb)
      obtain rfl : d = c := Option.some.inj (hd.owner.symm.trans howner)
      exact ⟨hd.lt, hd.body⟩
  · rintro ⟨hc, rfl⟩
    obtain ⟨p, n, b, -, -, hlays⟩ := h.site_of_closure hc
    rw [hlays.body]
    exact hlays.owner

/-- The functions of a path are those of the closures that own a scope on it. -/
theorem functions_eq (h : g.Holds m) (hp : m.Leads p) :
    p.functions = (g.ancestors p.scope).filterMap fun s =>
      (g.scope s).owner.map fun c => (g.closure c).function := by
  rw [← h.blocks_eq hp]
  induction hp with
  | outermost => simp [Path.outermost, h.root_owner]
  | @into p n b hp hn hb ih =>
    have hlays := h.lays p n hn
    rw [Path.blocks_into hb, List.filterMap_cons, ← ih]
    cases hn' : n.nested? with
    | none =>
      rw [(hlays.scope b hb).owner hn']
      simp [Path.into, Node.function?, hn']
    | some fb =>
      obtain ⟨f, c, hf, hc⟩ := hlays.function fb.1 fb.2 hn'
      obtain rfl : fb.2 = b := Option.some.inj ((Node.opened_of_nested hn').symm.trans hb)
      simp [Path.into, Node.function?, hn', hf, hc.owner, hc.function]

/-- A scope runs in the frame of the innermost function around it. -/
theorem frame_eq (h : g.Holds m) (hp : m.Leads p) :
    g.frame? p.scope = p.functions.head?.bind g.closureOf? := by
  rw [frame?, h.functions_eq hp, List.head?_filterMap]
  have hmem : ∀ s ∈ g.ancestors p.scope, ∀ c, (g.scope s).owner = some c →
      g.closureOf? (g.closure c).function = some c := fun s _ c howner =>
    h.closureOf_eq_some.mpr ⟨(h.owner_eq_some.mp howner).1, rfl⟩
  generalize g.ancestors p.scope = chain at hmem
  induction chain with
  | nil => rfl
  | cons s chain ih =>
    rw [List.findSome?_cons, List.findSome?_cons]
    cases howner : (g.scope s).owner with
    | none => simpa using ih fun t ht => hmem t (by simp [ht])
    | some c => simpa using (hmem s (by simp) c howner).symm

theorem mem_functions_iff (h : g.Holds m) (hp : m.Leads p) (hc : c < g.closures.size) :
    (g.closure c).function ∈ p.functions ↔ (g.closure c).body ∈ g.ancestors p.scope := by
  rw [h.functions_eq hp, List.mem_filterMap]
  constructor
  · rintro ⟨s, hs, hs'⟩
    obtain ⟨d, howner, hd⟩ := Option.map_eq_some_iff.mp hs'
    obtain ⟨hlt, rfl⟩ := h.owner_eq_some.mp howner
    rwa [h.closure_inj hc hlt hd.symm]
  · intro hmem
    refine ⟨_, hmem, ?_⟩
    rw [h.owner_eq_some.mpr ⟨hc, rfl⟩]
    rfl

/-! ## Variables -/

theorem declaringScope_eq_some (h : g.Holds m) :
    g.declaringScope? v = some s ↔ v ∈ (g.scope s).vars := by
  refine ⟨mem_of_declaringScope, fun hv => ?_⟩
  cases hd : g.declaringScope? v with
  | none => exact absurd hv (declaringScope_eq_none.mp hd s)
  | some t => rw [h.tidy.vars_unique s t v hv (mem_of_declaringScope hd)]

theorem leads_of_declares (hv : m.Declares p v) : m.Leads p := by
  cases hv with
  | receiver | methodParam => exact .outermost
  | param hn hf =>
    obtain ⟨fb, hn', -⟩ := Option.bind_eq_some_iff.mp hf
    exact .into (MethodBody.leads_of_mem_sites hn) hn (Node.opened_of_nested hn')
  | statement hn => exact MethodBody.leads_of_mem_sites hn

theorem mem_vars_of_declares (h : g.Holds m) (hv : m.Declares p v) :
    v ∈ (g.scope p.scope).vars := by
  obtain ⟨method, block, hm, -, -, -, hroot⟩ := h.complete
  rw [OrderedSet.mem_def]
  cases hv with
  | receiver hr =>
    rw [show Path.outermost.scope = root from rfl, hroot]
    simp [hr]
  | methodParam hm' hv =>
    obtain rfl := Option.some.inj (hm'.symm.trans hm)
    rw [show Path.outermost.scope = root from rfl, hroot]
    simp [List.reduceOption_mem_iff, hv]
  | @param q n f _ hn hf hv =>
    obtain ⟨fb, hn', hf'⟩ := Option.bind_eq_some_iff.mp hf
    have hb := Node.opened_of_nested hn'
    rw [Path.scope_into hb, ((h.lays q n hn).scope _ hb).vars]
    simp [Node.params, hf, List.reduceOption_mem_iff, hv]
  | @statement p n _ hn hv =>
    obtain ⟨rfl, htop⟩ | ⟨q, k, hk, hinner, rfl⟩ := MethodBody.outer_of_mem_sites hn
    · rw [show Path.outermost.scope = root from rfl, hroot]
      exact List.mem_append_right _ (List.mem_filterMap.mpr ⟨n, htop, hv⟩)
    · cases hb : k.opened? with
      | none => simp [Node.declared_inner hb hinner] at hv
      | some b =>
        rw [Path.scope_into hb, ((h.lays q k hk).scope b hb).vars]
        exact List.mem_append_right _ (List.mem_filterMap.mpr ⟨n, hinner, hv⟩)

theorem declares_of_mem_vars (h : g.Holds m) (hv : v ∈ (g.scope s).vars) :
    ∃ p, m.Declares p v ∧ p.scope = s := by
  by_cases hroot : s = root
  · subst hroot
    obtain ⟨method, block, hm, -, -, -, heq⟩ := h.complete
    rw [OrderedSet.mem_def, heq, List.mem_append, List.mem_append] at hv
    refine ⟨.outermost, ?_, rfl⟩
    rcases hv with (hv | hv) | hv
    · exact .receiver (by simpa using hv)
    · exact .methodParam hm (List.reduceOption_mem_iff.mp hv)
    · obtain ⟨n, htop, hv⟩ := List.mem_filterMap.mp hv
      exact .statement (MethodBody.mem_sites_of_topNodes htop) hv
  · obtain ⟨p, n, b, hn, hb, rfl⟩ := h.site_of_scope (lt_of_mem_vars hv) hroot
    rw [OrderedSet.mem_def, ((h.lays p n hn).scope b hb).vars, List.mem_append] at hv
    refine ⟨p.into n, ?_, Path.scope_into hb p⟩
    rcases hv with hv | hv
    · cases hf : n.function? with
      | none => simp [Node.params, hf] at hv
      | some f =>
        refine .param hn hf (List.reduceOption_mem_iff.mp ?_)
        simpa [Node.params, hf] using hv
    · obtain ⟨k, hk, hv⟩ := List.mem_filterMap.mp hv
      exact .statement (MethodBody.mem_sites_of_inner hn hk) hv

/-- The body of a closure declares what is declared at a path through its function. -/
theorem bodyDeclares_iff (h : g.Holds m) (hc : c < g.closures.size) :
    g.bodyDeclares c v = true ↔ ∃ p, m.Declares p v ∧ (g.closure c).function ∈ p.functions := by
  constructor
  · intro hv
    unfold bodyDeclares at hv
    split at hv
    · rename_i s hs
      obtain ⟨p, hp, rfl⟩ := h.declares_of_mem_vars (mem_of_declaringScope hs)
      rw [h.ranked.encloses_iff_mem] at hv
      exact ⟨p, hp, (h.mem_functions_iff (leads_of_declares hp) hc).mpr hv⟩
    · simp at hv
  · rintro ⟨p, hp, hf⟩
    have hlead := leads_of_declares hp
    simp only [bodyDeclares, h.declaringScope_eq_some.mpr (h.mem_vars_of_declares hp)]
    rw [h.ranked.encloses_iff_mem]
    exact (h.mem_functions_iff hlead hc).mp hf

/-! ## Blocks -/

/-- Every scope has a block, numbered like it. -/
theorem exists_block (h : g.Holds m) (hs : s < g.scopes.size) :
    ∃ b, (g.scope s).block = some b ∧ b.id = s := by
  by_cases hroot : s = root
  · subst hroot
    obtain ⟨-, block, -, hb, heq, -⟩ := h.complete
    exact ⟨block, heq, MethodBody.id_block hb⟩
  · obtain ⟨p, n, b, hn, hb, rfl⟩ := h.site_of_scope hs hroot
    exact ⟨b, ((h.lays p n hn).scope b hb).block, rfl⟩

/-- The scope of a block has its number. -/
theorem scopeOf_eq (h : g.Holds m) (hs : s < g.scopes.size) : g.scopeOf? s = some s := by
  have hget (t : ScopeId) (ht : t < g.scopes.size) : g.scope t = g.scopes[t] := by simp [scope, ht]
  refine Array.findIdx?_eq_some_iff_getElem.mpr ⟨hs, ?_, fun t ht => ?_⟩
  · obtain ⟨b, hb, hid⟩ := h.exists_block hs
    rw [← hget s hs, hb]
    simp [hid]
  · obtain ⟨b, hb, hid⟩ := h.exists_block (Nat.lt_trans ht hs)
    rw [← hget t (Nat.lt_trans ht hs), hb]
    simp only [Option.any_some, hid, decide_eq_true_eq]
    exact Nat.ne_of_lt ht

end Holds

/-! ## The order of scopes -/

/-- Visiting the blocks of some nodes visits all blocks below them, in reading order. -/
theorem visitScopes_childBlocks {ns : List Node} {fuel : Nat} (stack : List ScopeId)
    (ih : ∀ n ∈ ns, ∀ fuel stack, n.blockIds.length ≤ fuel →
      g.visitScopes fuel (Node.childBlocks p [n] ++ stack) =
        n.blockIds ++ g.visitScopes (fuel - n.blockIds.length) stack)
    (hfuel : (ns.flatMap Node.blockIds).length ≤ fuel) :
    g.visitScopes fuel (Node.childBlocks p ns ++ stack) =
      ns.flatMap Node.blockIds ++
        g.visitScopes (fuel - (ns.flatMap Node.blockIds).length) stack := by
  induction ns generalizing fuel with
  | nil => simp [Node.childBlocks]
  | cons n ns ihs =>
    simp only [List.flatMap_cons, List.length_append] at hfuel ⊢
    rw [show n :: ns = [n] ++ ns from rfl, Node.childBlocks_append, List.append_assoc,
      ih n (by simp) fuel _ (by omega), ihs (fun k hk => ih k (by simp [hk])) (by omega),
      List.append_assoc, Nat.sub_sub]

namespace Holds

theorem visitScopes_node (h : g.Holds m) (n : Node) :
    ∀ p, (∀ s ∈ n.sites p, s ∈ m.numbered.sites) → ∀ fuel stack, n.blockIds.length ≤ fuel →
      g.visitScopes fuel (Node.childBlocks p [n] ++ stack) =
        n.blockIds ++ g.visitScopes (fuel - n.blockIds.length) stack := by
  induction n using Node.induction with
  | step n ih =>
    intro p hsites fuel stack hfuel
    have hinner {fuel : Nat} (stack : List ScopeId)
        (hfuel : (n.inner.flatMap Node.blockIds).length ≤ fuel) :=
      visitScopes_childBlocks stack (fun k hk => ih k hk (p.into n) fun s hs =>
        hsites s (Node.mem_sites_of_inner hk hs)) hfuel
    rw [Node.blockIds_eq] at hfuel ⊢
    cases hb : n.opened? with
    | none =>
      rw [hb] at hfuel
      rw [Node.childBlocks_of_isNone hb]
      rw [Node.into_of_isNone hb] at hinner
      exact hinner stack hfuel
    | some b =>
      rw [hb] at hfuel
      obtain ⟨fuel, rfl⟩ : ∃ k, fuel = k + 1 := ⟨fuel - 1, by simp at hfuel; omega⟩
      have hchildren := ((h.lays p n (hsites _ (Node.self_mem_sites p n))).scope b hb).children
      simp only [Option.map_some, Option.toList_some, List.singleton_append,
        List.length_cons] at hfuel ⊢
      rw [Node.childBlocks_of_opened hb, List.singleton_append, visitScopes, hchildren,
        hinner stack (by omega), Nat.add_sub_add_right, List.cons_append]

/-- Scopes are visited in the order of their numbers. -/
theorem preorder_eq (h : g.Holds m) : g.preorder = List.range g.scopes.size := by
  have hne : g.scopes.isEmpty = false := by
    rw [Array.isEmpty_eq_false_iff]
    exact Array.ne_empty_of_size_pos h.root_lt
  have htop := visitScopes_childBlocks [] (fun n hn => h.visitScopes_node n .outermost
    fun s hs => by
      rw [m.sites_numbered]
      exact List.mem_flatMap.mpr ⟨n, hn, hs⟩) (Nat.le_refl (m.topNodes.flatMap _).length)
  rw [preorder, hne, if_neg Bool.false_ne_true, h.size, Nat.add_comm, visitScopes,
    h.root_children, htop, h.numbered]
  simp [visitScopes, List.range_eq_range', List.range'_succ, root]

end Holds

end Graph

end Unnest

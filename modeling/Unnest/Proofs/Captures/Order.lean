import Unnest.Proofs.Captures.Exact

/-!
# Declarations and references in their order

The variables that come up in one function, in the order in which they are reached: an initial value
before the variable it is for, and nothing of the functions nested inside. In an accepted body no
function declares a variable twice. That a variable is not referred to before its declaration is a
matter of the binder; `MethodBody.DeclaresFirst` asks for it where the variable is not captured.

## Main statements

* `Graph.Holds.declared_once` : no function declares a variable twice.
-/

namespace Unnest

/-- A variable that comes up in a function. -/
inductive Mention where
  | reference (v : Variable)
  | declaration (v : Variable)
  deriving DecidableEq

/-- The second of two mentions does not declare a variable declared by the first. -/
def Mention.DeclaredOnce (a b : Mention) : Prop := ∀ v, b = .declaration v → a ≠ .declaration v

/-- The first of two mentions does not refer to a variable declared by the second. -/
def Mention.InOrder (a b : Mention) : Prop := ∀ v, b = .declaration v → a ≠ .reference v

instance (a b : Mention) : Decidable (a.InOrder b) :=
  match b with
  | .reference _ => .isTrue fun _ h => nomatch h
  | .declaration v =>
    decidable_of_iff (a ≠ .reference v)
      ⟨fun h _ hv => Mention.declaration.inj hv ▸ h, fun h => h v rfl⟩

namespace Node

/-- The variable that comes up at a node itself. -/
def mention? : Node → Option Mention
  | .expr (.ref _ target) => target.map .reference
  | .stmt (.declare _ target _) => target.map .declaration
  | _ => none

/-- The variables that come up in a node, without those in nested functions. -/
def mentions (n : Node) : List Mention :=
  (if n.nested?.isSome then [] else n.inner.attach.flatMap fun m => m.1.mentions) ++
    n.mention?.toList
termination_by sizeOf n
decreasing_by exact sizeOf_inner_lt m.2

variable {n k : Node} {p : Path} {v : Variable} {a : Mention}

theorem mentions_eq (n : Node) : n.mentions =
    (if n.nested?.isSome then [] else n.inner.flatMap mentions) ++ n.mention?.toList := by
  rw [mentions, List.flatMap_subtype (g := mentions) (by simp)]
  simp

theorem mention_of_nested (hn : n.nested?.isSome) : n.mention? = none := by
  cases n with
  | expr e => cases e <;> first | rfl | exact nomatch hn
  | stmt s => cases s <;> first | rfl | exact nomatch hn
  | block b => exact nomatch hn

theorem mentions_of_nested (hn : n.nested?.isSome) : n.mentions = [] := by
  rw [mentions_eq, if_pos hn, mention_of_nested hn]
  rfl

theorem mentions_of_inner (hn : n.nested? = none) :
    n.mentions = n.inner.flatMap mentions ++ n.mention?.toList := by
  rw [mentions_eq, hn]
  rfl

theorem mentions_block (b : Block) :
    (Node.block b).mentions = (b.stmts.map Node.stmt).flatMap mentions := by
  rw [mentions_of_inner rfl]
  exact List.append_nil _

theorem mentions_declare (loc : Loc) (v : Variable) (init : Option Expr) :
    (Node.stmt (.declare loc (some v) init)).mentions =
      (init.toList.map Node.expr).flatMap mentions ++ [.declaration v] := mentions_of_inner rfl

theorem mention_eq_declaration : n.mention? = some (.declaration v) ↔ n.declared? = some v := by
  cases n with
  | expr e => cases e <;> simp [mention?, declared?]
  | stmt s => cases s <;> simp [mention?, declared?]
  | block b => simp [mention?, declared?]

theorem opened_of_declared (hv : n.declared? = some v) : n.opened? = none := by
  cases n with
  | stmt s => cases s <;> first | rfl | exact nomatch hv
  | _ => exact nomatch hv

/-- What comes up in a node does so at a node below it. -/
theorem exists_site_of_mem_mentions (ha : a ∈ n.mentions) (p : Path) :
    ∃ s ∈ n.sites p, s.2.mention? = some a := by
  induction n using Node.induction generalizing p with
  | step n ih =>
    cases hn : n.nested? with
    | some f =>
      rw [mentions_of_nested (by rw [hn]; rfl)] at ha
      exact absurd ha List.not_mem_nil
    | none =>
      rw [mentions_of_inner hn, List.mem_append, List.mem_flatMap] at ha
      rcases ha with ⟨k, hk, ha⟩ | ha
      · obtain ⟨s, hs, hsa⟩ := ih k hk ha (p.into n)
        exact ⟨s, mem_sites_of_inner hk hs, hsa⟩
      · exact ⟨(p, n), self_mem_sites p n, Option.mem_toList.mp ha⟩

/-- A node that opens no block declares nothing directly inside. -/
theorem declared_inner_of_isNone (hb : n.opened? = none) :
    n.inner.filterMap declared? = [] := by
  refine List.filterMap_eq_nil_iff.mpr fun k hk => ?_
  cases n with
  | expr e =>
    cases e with
    | lambda => exact nomatch hb
    | _ =>
      obtain ⟨x, -, rfl⟩ := List.mem_map.mp hk
      rfl
  | stmt s =>
    cases s with
    | block | localFunction => exact nomatch hb
    | declare | ret =>
      obtain ⟨x, -, rfl⟩ := List.mem_map.mp hk
      rfl
    | expr loc value =>
      rw [List.mem_singleton.mp hk]
      rfl
    | cond loc test thenBlock elseBlock =>
      obtain rfl | rfl | ⟨x, -, rfl⟩ : k = .expr test ∨ k = .block thenBlock ∨
          ∃ x, elseBlock = some x ∧ .block x = k := by simpa [inner] using hk
      all_goals rfl
    | loop loc test body =>
      obtain rfl | rfl : k = .expr test ∨ k = .block body := by simpa [inner] using hk
      all_goals rfl
  | block b => exact nomatch hb

end Node

namespace Graph.Holds

variable {g : Graph} {m : MethodBody} {p : Path} {n : Node} {v : Variable}

/-- The scopes opened below a node lie inside the one it stands in. -/
theorem scope_lt_of_mem_blockIds (hn : (p, n) ∈ m.numbered.sites) {b : BlockId}
    (hb : b ∈ n.blockIds) : p.scope < b := by
  induction n using Node.induction generalizing p with
  | step n ih =>
    rw [Node.blockIds_eq, List.mem_append, List.mem_flatMap] at hb
    rcases hb with hb | ⟨k, hk, hb⟩
    · obtain ⟨x, hx, rfl⟩ := Option.map_eq_some_iff.mp (Option.mem_toList.mp hb)
      exact MethodBody.lt_opened hn hx _ (MethodBody.leads_of_mem_sites hn).scope_mem
    · have hlt := ih k hk (MethodBody.mem_sites_of_inner hn hk) hb
      cases hopen : n.opened? with
      | none => rwa [Node.into_of_isNone hopen] at hlt
      | some x =>
        rw [Path.scope_into hopen] at hlt
        have := MethodBody.lt_opened hn hopen _ (MethodBody.leads_of_mem_sites hn).scope_mem
        exact Nat.lt_trans this hlt

variable (h : g.Holds m)

include h

/-- A variable declared in a node is declared by it, or in a block below it. -/
theorem declared_or_inside (hn : (p, n) ∈ m.numbered.sites) (hv : .declaration v ∈ n.mentions) :
    n.declared? = some v ∨ ∃ b ∈ n.blockIds, v ∈ (g.scope b).vars := by
  induction n using Node.induction generalizing p with
  | step n ih =>
    cases hnested : n.nested? with
    | some f =>
      rw [Node.mentions_of_nested (by rw [hnested]; rfl)] at hv
      exact absurd hv List.not_mem_nil
    | none =>
      rw [Node.mentions_of_inner hnested, List.mem_append, List.mem_flatMap] at hv
      rcases hv with ⟨k, hk, hv⟩ | hv
      · rw [Node.blockIds_eq]
        have hkn := MethodBody.mem_sites_of_inner hn hk
        rcases ih k hk hkn hv with hdecl | ⟨b, hb, hvb⟩
        · cases hopen : n.opened? with
          | none =>
            have hmem := List.mem_filterMap.mpr ⟨k, hk, hdecl⟩
            rw [Node.declared_inner_of_isNone hopen] at hmem
            exact absurd hmem List.not_mem_nil
          | some x =>
            refine .inr ⟨x.id, by simp, ?_⟩
            rw [← Path.scope_into hopen p]
            exact h.mem_vars_of_declares (.statement hkn hdecl)
        · exact .inr ⟨b, List.mem_append.mpr (.inr (List.mem_flatMap.mpr ⟨k, hk, hb⟩)), hvb⟩
      · exact .inl (Node.mention_eq_declaration.mp (Option.mem_toList.mp hv))

/-- Nodes side by side declare a variable once, if none of them declares it twice by itself. -/
theorem declaredOnce_of_siblings {ns : List Node} (hns : ∀ n ∈ ns, (p, n) ∈ m.numbered.sites)
    (hdecl : (ns.filterMap Node.declared?).Nodup) (hblocks : (ns.flatMap Node.blockIds).Nodup)
    (hone : ∀ n ∈ ns, n.mentions.Pairwise Mention.DeclaredOnce) :
    (ns.flatMap Node.mentions).Pairwise Mention.DeclaredOnce := by
  refine List.pairwise_flatMap.mpr ⟨hone, ?_⟩
  have hdecl := List.pairwise_filterMap.mp hdecl
  have hblocks := (List.nodup_flatMap.mp hblocks).2
  refine (hdecl.and hblocks).imp_of_mem fun {k l} hk hl hkl => ?_
  rintro a ha b hb v rfl rfl
  have hvars {n : Node} (hn : n ∈ ns) (hv : n.declared? = some v) : v ∈ (g.scope p.scope).vars :=
    h.mem_vars_of_declares (.statement (hns n hn) hv)
  rcases h.declared_or_inside (hns k hk) ha with hvk | ⟨s, hs, hvs⟩ <;>
    rcases h.declared_or_inside (hns l hl) hb with hvl | ⟨t, ht, hvt⟩
  · exact hkl.1 v hvk v hvl rfl
  · have heq := h.tidy.vars_unique _ _ v (hvars hk hvk) hvt
    exact Nat.ne_of_lt (scope_lt_of_mem_blockIds (hns l hl) ht) heq
  · have heq := h.tidy.vars_unique _ _ v (hvars hl hvl) hvs
    exact Nat.ne_of_lt (scope_lt_of_mem_blockIds (hns k hk) hs) heq
  · exact hkl.2 hs (h.tidy.vars_unique _ _ v hvs hvt ▸ ht)

theorem declaredOnce_of_node (hn : (p, n) ∈ m.numbered.sites) (hblocks : n.blockIds.Nodup) :
    (n.inner.flatMap Node.mentions).Pairwise Mention.DeclaredOnce ∧
      n.mentions.Pairwise Mention.DeclaredOnce := by
  induction n using Node.induction generalizing p with
  | step n ih =>
    rw [Node.blockIds_eq] at hblocks
    have hblocks := hblocks.of_append_right
    have hinner : (n.inner.flatMap Node.mentions).Pairwise Mention.DeclaredOnce := by
      refine h.declaredOnce_of_siblings
        (fun k hk => MethodBody.mem_sites_of_inner hn hk) ?_ hblocks fun k hk => ?_
      · cases hopen : n.opened? with
        | none =>
          rw [Node.declared_inner_of_isNone hopen]
          exact List.nodup_nil
        | some b =>
          have hnodup := (g.scope b.id).vars.nodup
          rw [((h.lays p n hn).scope b hopen).vars] at hnodup
          exact hnodup.of_append_right
      · exact (ih k hk (MethodBody.mem_sites_of_inner hn hk)
          ((List.nodup_flatMap.mp hblocks).1 k hk)).2
    refine ⟨hinner, ?_⟩
    cases hnested : n.nested? with
    | some f =>
      rw [Node.mentions_of_nested (by rw [hnested]; rfl)]
      exact .nil
    | none =>
      rw [Node.mentions_of_inner hnested, List.pairwise_append]
      refine ⟨hinner, by cases n.mention? <;> simp, fun a ha b hb v hbv hav => ?_⟩
      -- what an initial value declares is declared in a function nested in it
      subst hav hbv
      have hv := Node.mention_eq_declaration.mp (Option.mem_toList.mp hb)
      have hopen := Node.opened_of_declared hv
      obtain ⟨k, hk, ha⟩ := List.mem_flatMap.mp ha
      have hkn := MethodBody.mem_sites_of_inner hn hk
      rcases h.declared_or_inside hkn ha with hvk | ⟨s, hs, hvs⟩
      · have hmem := List.mem_filterMap.mpr ⟨k, hk, hvk⟩
        rw [Node.declared_inner_of_isNone hopen] at hmem
        exact absurd hmem List.not_mem_nil
      · have hlt := scope_lt_of_mem_blockIds hkn hs
        rw [Node.into_of_isNone hopen] at hlt
        have hvars := h.mem_vars_of_declares (.statement hn hv)
        exact Nat.ne_of_lt hlt (h.tidy.vars_unique _ _ v hvars hvs)

end Graph.Holds

/-! ## The bodies of functions -/

theorem Node.nodup_blockIds_of_mem_sites {n : Node} {p : Path} {s : Path × Node}
    (hs : s ∈ n.sites p) (hblocks : n.blockIds.Nodup) : s.2.blockIds.Nodup := by
  induction n using Node.induction generalizing p with
  | step n ih =>
    obtain rfl | ⟨k, hk, hs⟩ := Node.mem_sites.mp hs
    · exact hblocks
    · rw [Node.blockIds_eq] at hblocks
      exact ih k hk hs ((List.nodup_flatMap.mp hblocks.of_append_right).1 k hk)

namespace MethodBody

/-- The statements of the method and of each nested function. -/
def bodies (m : MethodBody) : List (List Node) :=
  m.topNodes :: m.numbered.sites.filterMap fun s => s.2.nested?.map fun _ => s.2.inner

/-- What is below a node of the body is in the body. -/
theorem sites_subset {m : MethodBody} {p : Path} {n : Node} (hn : (p, n) ∈ m.numbered.sites) :
    n.sites p ⊆ m.numbered.sites := by
  intro s hs
  induction n using Node.induction generalizing p with
  | step n ih =>
    obtain rfl | ⟨k, hk, hs⟩ := Node.mem_sites.mp hs
    · exact hn
    · exact ih k hk (mem_sites_of_inner hn hk) hs

theorem site_of_mem_bodies {m : MethodBody} {ns : List Node} {n : Node} (hns : ns ∈ m.bodies)
    (hn : n ∈ ns) : ∃ p, (p, n) ∈ m.numbered.sites := by
  rcases List.mem_cons.mp hns with rfl | hns
  · exact ⟨_, mem_sites_of_topNodes hn⟩
  · obtain ⟨⟨p, k⟩, hk, hmap⟩ := List.mem_filterMap.mp hns
    obtain ⟨_, -, rfl⟩ := Option.map_eq_some_iff.mp hmap
    exact ⟨_, mem_sites_of_inner hk hn⟩

/-- In its function no variable is referred to before it is declared, unless it is captured. -/
def DeclaresFirst (m : MethodBody) : Prop :=
  ∀ ns ∈ m.bodies, (ns.flatMap Node.mentions).Pairwise fun a b =>
    ∀ v, a = .reference v → b = .declaration v → ∃ f, m.Captures f v

theorem declaresFirst_of_inOrder {m : MethodBody}
    (h : ∀ ns ∈ m.bodies, (ns.flatMap Node.mentions).Pairwise Mention.InOrder) : m.DeclaresFirst :=
  fun ns hns => (h ns hns).imp fun hab v ha hb => absurd ha (hab v hb)

end MethodBody

namespace Graph.Holds

variable {g : Graph} {m : MethodBody}

/-- A function that captures something has a closure. -/
theorem closure_of_captures (h : g.Holds m) {f : NestedFunction} {v : Variable}
    (hv : m.Captures f v) : ∃ c < g.closures.size, (g.closure c).function = f := by
  obtain ⟨p, n, hn, hf⟩ : ∃ p n, (p, n) ∈ m.numbered.sites ∧ p.functions.head? = some f := by
    refine MethodBody.Captures.induction (P := fun f => ∃ p n, (p, n) ∈ m.numbered.sites ∧
      p.functions.head? = some f) ?_ ?_ hv
    · rintro f ⟨p, n, hn, hf, -⟩ -
      exact ⟨p, n, hn, hf⟩
    · rintro f k ⟨p, n, hn, hf, -⟩ - -
      exact ⟨p, n, hn, hf⟩
  have hmem := List.mem_of_head? hf
  rw [h.functions_eq (MethodBody.leads_of_mem_sites hn)] at hmem
  obtain ⟨s, -, hs⟩ := List.mem_filterMap.mp hmem
  obtain ⟨c, hc, hfc⟩ := Option.map_eq_some_iff.mp hs
  exact ⟨c, (h.owner_eq_some.mp hc).1, hfc⟩

theorem nodup_blockIds (h : g.Holds m) : (m.topNodes.flatMap Node.blockIds).Nodup := by
  rw [h.numbered]
  exact List.nodup_range'

theorem nodup_blockIds_of_site (h : g.Holds m) {p : Path} {n : Node}
    (hn : (p, n) ∈ m.numbered.sites) : n.blockIds.Nodup := by
  rw [m.sites_numbered] at hn
  obtain ⟨k, hk, hn⟩ := List.mem_flatMap.mp hn
  exact Node.nodup_blockIds_of_mem_sites hn ((List.nodup_flatMap.mp h.nodup_blockIds).1 k hk)

/-- No function declares a variable twice. -/
theorem declared_once (h : g.Holds m) {ns : List Node} (hns : ns ∈ m.bodies) :
    (ns.flatMap Node.mentions).Pairwise Mention.DeclaredOnce ∧
      (ns.flatMap Node.blockIds).Nodup := by
  have hnodup := h.nodup_blockIds
  rcases List.mem_cons.mp hns with rfl | hns
  · refine ⟨h.declaredOnce_of_siblings (fun n hn => MethodBody.mem_sites_of_topNodes hn) ?_ hnodup
      fun n hn => (h.declaredOnce_of_node (MethodBody.mem_sites_of_topNodes hn)
        (h.nodup_blockIds_of_site (MethodBody.mem_sites_of_topNodes hn))).2, hnodup⟩
    obtain ⟨_, _, -, -, -, -, hvars⟩ := h.complete
    have hvars' := (g.scope root).vars.nodup
    rw [hvars] at hvars'
    exact hvars'.of_append_right
  · obtain ⟨⟨p, n⟩, hn, hmap⟩ := List.mem_filterMap.mp hns
    obtain ⟨_, -, rfl⟩ := Option.map_eq_some_iff.mp hmap
    have hblocks := h.nodup_blockIds_of_site hn
    refine ⟨(h.declaredOnce_of_node hn hblocks).1, ?_⟩
    rw [Node.blockIds_eq] at hblocks
    exact hblocks.of_append_right

end Graph.Holds

end Unnest

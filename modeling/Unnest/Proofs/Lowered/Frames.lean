import Mathlib.Data.List.Flatten
import Mathlib.Data.List.Perm.Basic
import Unnest.Proofs.Captures.Order
import Unnest.Proofs.Lowered.Reach

/-!
# The blocks of a frame

A frame is a method or a nested function without the functions nested in it. Every block of a body
belongs to exactly one frame, so that what is done once for each block of each frame is done once
for each scope.

## Main statements

* `Graph.Holds.mem_frameBlocks` : the blocks of a frame are the scopes that belong to it.
* `Graph.Holds.frameBlocks_perm` : the blocks of all frames are the scopes.
-/

namespace Unnest

namespace Node

/-- The blocks opened in a node, without those in nested functions. -/
def ownBlocks (n : Node) : List BlockId :=
  if n.nested?.isSome then []
  else (n.opened?.map (·.id)).toList ++ n.inner.attach.flatMap fun m => m.1.ownBlocks
termination_by sizeOf n
decreasing_by exact sizeOf_inner_lt m.2

variable {n k : Node} {p : Path} {s : ScopeId}

theorem ownBlocks_of_nested (hn : n.nested?.isSome) : n.ownBlocks = [] := by
  rw [ownBlocks, if_pos hn]

theorem ownBlocks_of_inner (hn : n.nested? = none) :
    n.ownBlocks = (n.opened?.map (·.id)).toList ++ n.inner.flatMap ownBlocks := by
  rw [ownBlocks, hn, List.flatMap_subtype (g := ownBlocks) (by simp)]
  simp

theorem ownBlocks_sublist (n : Node) : n.ownBlocks.Sublist n.blockIds := by
  induction n using Node.induction with
  | step n ih =>
    cases hn : n.nested? with
    | some f =>
      rw [ownBlocks_of_nested (by rw [hn]; rfl)]
      exact List.nil_sublist _
    | none =>
      rw [ownBlocks_of_inner hn, blockIds_eq]
      exact (List.Sublist.refl _).append (List.Sublist.flatMap_right _ ih)

end Node

namespace Graph

/-- The frames of a graph: the method, and the nested functions. -/
def frames (g : Graph) : List (Option ClosureId) :=
  none :: (List.range g.closures.size).map some

/-- The outermost scope of a frame. -/
def entry (g : Graph) : Option ClosureId → ScopeId
  | none => root
  | some c => (g.closure c).body

/-- The blocks of a frame. -/
def frameBlocks (g : Graph) (fr : Option ClosureId) : List BlockId :=
  (g.scope (g.entry fr)).block.elim [] fun b => (Node.block b).ownBlocks

variable {g : Graph} {m : MethodBody} {p : Path} {n : Node} {s : ScopeId} {c : ClosureId}
  {fr : Option ClosureId}

theorem mem_frames : fr ∈ g.frames ↔ ∀ c, fr = some c → c < g.closures.size := by
  cases fr <;> simp [frames]

theorem nodup_frames (g : Graph) : g.frames.Nodup := by
  refine List.nodup_cons.mpr ⟨by simp, ?_⟩
  exact List.nodup_range.map (fun _ _ => Option.some.inj)

namespace Holds

variable (h : g.Holds m)

include h

theorem frame_mem (s : ScopeId) : g.frame? s ∈ g.frames :=
  mem_frames.mpr fun _ hc => (lt_of_frame h hc).1

theorem frame_entry (hfr : fr ∈ g.frames) : g.frame? (g.entry fr) = fr := by
  cases fr with
  | none => exact frame_root h
  | some c => exact frame_body h (mem_frames.mp hfr c rfl)

/-- No other scope of a frame is around its outermost one. -/
theorem eq_entry (hs : s ∈ g.ancestors (g.entry fr)) (hframe : g.frame? s = fr) :
    s = g.entry fr := by
  cases fr with
  | none =>
    rw [entry, h.ancestors_root] at hs
    exact List.mem_singleton.mp hs
  | some c => exact ancestors_antisymm hs (lt_of_frame h hframe).2

theorem lt_of_mem_blockIds (hn : (p, n) ∈ m.numbered.sites) (hs : s ∈ n.blockIds) :
    s < g.scopes.size := by
  rw [← Node.filterMap_opened_sites p] at hs
  obtain ⟨⟨q, k⟩, hk, hs⟩ := List.mem_filterMap.mp hs
  obtain ⟨b, hb, rfl⟩ := Option.map_eq_some_iff.mp hs
  exact ((h.lays q k (MethodBody.sites_subset hn hk)).scope b hb).lt

/-- A block that is no body belongs to the frame it stands in. -/
theorem frame_into {b : Block} (hn : (p, n) ∈ m.numbered.sites) (hopen : n.opened? = some b)
    (hnested : n.nested? = none) : g.frame? b.id = g.frame? p.scope :=
  frame_of_isNone (((h.lays p n hn).scope b hopen).owner hnested) (h.ancestors_opened hn hopen)

/-- The blocks of a node belong to the frame it stands in. -/
theorem frame_of_mem_ownBlocks (hn : (p, n) ∈ m.numbered.sites) (hs : s ∈ n.ownBlocks) :
    g.frame? s = g.frame? p.scope := by
  induction n using Node.induction generalizing p with
  | step n ih =>
    cases hnested : n.nested? with
    | some f =>
      rw [Node.ownBlocks_of_nested (by rw [hnested]; rfl)] at hs
      exact absurd hs List.not_mem_nil
    | none =>
      rw [Node.ownBlocks_of_inner hnested, List.mem_append, List.mem_flatMap] at hs
      rcases hs with hs | ⟨k, hk, hs⟩
      · obtain ⟨b, hb, rfl⟩ := Option.map_eq_some_iff.mp (Option.mem_toList.mp hs)
        exact h.frame_into hn hb hnested
      · have hframe := ih k hk (MethodBody.mem_sites_of_inner hn hk) hs
        cases hopen : n.opened? with
        | none => rwa [Node.into_of_isNone hopen] at hframe
        | some b => rw [hframe, Path.scope_into hopen, h.frame_into hn hopen hnested]

/-- A frame begins with a block whose statements stand in the outermost scope of the frame. -/
theorem frame_block (hfr : fr ∈ g.frames) : ∃ p b, (g.scope (g.entry fr)).block = some b ∧
    b.id = g.entry fr ∧ p.scope = b.id ∧ (∀ s ∈ b.stmts, (p, .stmt s) ∈ m.numbered.sites) ∧
    (Node.block b).blockIds.Nodup := by
  cases fr with
  | none =>
    obtain ⟨method, b, -, hb, hblock, -⟩ := h.complete
    have hid : b.id = root := by
      obtain ⟨b₀, -, rfl⟩ := Option.map_eq_some_iff.mp hb
      exact b₀.id_number 0
    have htop : m.topNodes = b.stmts.map Node.stmt := by simp [MethodBody.topNodes, hb]
    refine ⟨.outermost, b, hblock, hid, hid.symm, fun s hs => ?_, ?_⟩
    · refine MethodBody.mem_sites_of_topNodes ?_
      rw [htop]
      exact List.mem_map_of_mem hs
    · have hnum := h.numbered
      rw [htop] at hnum
      rw [Node.blockIds_eq, show (Node.block b).inner = b.stmts.map .stmt from rfl, hnum]
      refine List.nodup_cons.mpr ⟨fun hmem => ?_, List.nodup_range'⟩
      have hle : 1 ≤ b.id := (List.mem_range'_1.mp hmem).1
      rw [hid] at hle
      exact Nat.not_succ_le_zero _ hle
  | some c =>
    obtain ⟨p, n, b, hn, hnested, hlays⟩ := h.site_of_closure (mem_frames.mp hfr c rfl)
    have hopen := Node.opened_of_nested hnested
    have hinner := Node.inner_of_opened hopen
    refine ⟨p.into n, b, ?_, hlays.body.symm, Path.scope_into hopen p, fun s hs => ?_, ?_⟩
    · rw [entry, hlays.body]
      exact ((h.lays p n hn).scope b hopen).block
    · refine MethodBody.mem_sites_of_inner hn ?_
      rw [hinner]
      exact List.mem_map_of_mem hs
    · have hnodup := h.nodup_blockIds_of_site hn
      rw [Node.blockIds_eq, hopen, hinner] at hnodup
      rw [Node.blockIds_eq]
      exact hnodup

/-- The statements of a frame are the body of a function. -/
theorem stmts_mem_bodies (hfr : fr ∈ g.frames) {b : Block}
    (hb : (g.scope (g.entry fr)).block = some b) : b.stmts.map Node.stmt ∈ m.bodies := by
  cases fr with
  | none =>
    obtain ⟨-, b', -, hblock, hroot, -⟩ := h.complete
    obtain rfl : b' = b := Option.some.inj (hroot.symm.trans hb)
    rw [show b'.stmts.map Node.stmt = m.topNodes by rw [MethodBody.topNodes, hblock]]
    exact List.mem_cons_self
  | some c =>
    obtain ⟨p, n, b', hn, hnested, hlays⟩ := h.site_of_closure (mem_frames.mp hfr c rfl)
    have hopen := Node.opened_of_nested hnested
    obtain rfl : b' = b := by
      have hblock := ((h.lays p n hn).scope b' hopen).block
      rw [← hlays.body] at hblock
      exact Option.some.inj (hblock.symm.trans hb)
    refine List.mem_cons_of_mem _ (List.mem_filterMap.mpr ⟨(p, n), hn, ?_⟩)
    rw [hnested, Option.map_some, Node.inner_of_opened hopen]

/-- The blocks opened at a place belong to the blocks of its frame. -/
theorem ownBlocks_subset (hn : (p, n) ∈ m.numbered.sites) :
    n.ownBlocks ⊆ g.frameBlocks (g.frame? p.scope) := by
  -- downwards from the outermost nodes; a nested function begins with the block of its frame
  have hdown (k : Node) : ∀ q, (q, k) ∈ m.numbered.sites →
      k.ownBlocks ⊆ g.frameBlocks (g.frame? q.scope) →
      ∀ s ∈ k.sites q, s.2.ownBlocks ⊆ g.frameBlocks (g.frame? s.1.scope) := by
    induction k using Node.induction with
    | step k ih =>
      intro q hq hsub s hs
      obtain rfl | ⟨k', hk', hs⟩ := Node.mem_sites.mp hs
      · exact hsub
      refine ih k' hk' (q.into k) (MethodBody.mem_sites_of_inner hq hk') ?_ s hs
      have hflat : k'.ownBlocks ⊆ k.inner.flatMap Node.ownBlocks :=
        fun t ht => List.mem_flatMap.mpr ⟨k', hk', ht⟩
      cases hnested : k.nested? with
      | none =>
        have hframe : g.frame? (q.into k).scope = g.frame? q.scope := by
          cases hopen : k.opened? with
          | none => rw [Node.into_of_isNone hopen]
          | some b => rw [Path.scope_into hopen, h.frame_into hq hopen hnested]
        rw [hframe]
        refine fun t ht => hsub ?_
        rw [Node.ownBlocks_of_inner hnested]
        exact List.mem_append_right _ (hflat ht)
      | some fb =>
        obtain ⟨fn, b⟩ := fb
        obtain ⟨f, c, -, hlays⟩ := (h.lays q k hq).function fn b hnested
        have hopen := Node.opened_of_nested hnested
        rw [Path.scope_into hopen, ← hlays.body, frame_body h hlays.lt, frameBlocks, entry,
          hlays.body, ((h.lays q k hq).scope b hopen).block]
        intro t ht
        have hflat := hflat ht
        rw [Node.inner_of_opened hopen] at hflat
        rw [Option.elim_some, Node.ownBlocks_of_inner rfl]
        exact List.mem_append_right _ hflat
  rw [m.sites_numbered] at hn
  obtain ⟨k, hk, hn⟩ := List.mem_flatMap.mp hn
  refine hdown k .outermost (MethodBody.mem_sites_of_topNodes hk) ?_ _ hn
  obtain ⟨method, b, -, hb, hblock, -⟩ := h.complete
  have htop : m.topNodes = b.stmts.map Node.stmt := by simp [MethodBody.topNodes, hb]
  rw [show Path.outermost.scope = root from rfl, frame_root h, frameBlocks, entry, hblock]
  intro t ht
  rw [Option.elim_some, Node.ownBlocks_of_inner rfl]
  rw [htop] at hk
  exact List.mem_append_right _ (List.mem_flatMap.mpr ⟨k, hk, ht⟩)

theorem entry_mem_frameBlocks (hfr : fr ∈ g.frames) : g.entry fr ∈ g.frameBlocks fr := by
  obtain ⟨p, b, hblock, hid, -⟩ := h.frame_block hfr
  rw [frameBlocks, hblock, Option.elim_some, Node.ownBlocks_of_inner rfl, ← hid]
  exact List.mem_append_left _ List.mem_cons_self

/-- The blocks of a frame are the scopes that belong to it. -/
theorem mem_frameBlocks (hfr : fr ∈ g.frames) :
    s ∈ g.frameBlocks fr ↔ s < g.scopes.size ∧ g.frame? s = fr := by
  constructor
  · intro hs
    obtain ⟨p, b, hblock, hid, hp, hstmts, -⟩ := h.frame_block hfr
    have hentry := h.frame_entry hfr
    rw [frameBlocks, hblock, Option.elim_some, Node.ownBlocks_of_inner rfl, List.mem_append,
      List.mem_flatMap] at hs
    rcases hs with hs | ⟨k, hk, hs⟩
    · obtain rfl : s = b.id := List.mem_singleton.mp hs
      rw [hid]
      refine ⟨?_, hentry⟩
      cases fr with
      | none => exact h.root_lt
      | some c => exact h.tidy.body_lt c (mem_frames.mp hfr c rfl)
    · obtain ⟨x, hx, rfl⟩ := List.mem_map.mp hk
      refine ⟨?_, ?_⟩
      · exact h.lt_of_mem_blockIds (hstmts x hx) ((Node.ownBlocks_sublist _).subset hs)
      · rw [h.frame_of_mem_ownBlocks (hstmts x hx) hs, hp, hid, hentry]
  · rintro ⟨hs, rfl⟩
    by_cases hroot : s = root
    · subst hroot
      have := h.entry_mem_frameBlocks (h.frame_mem root)
      rwa [frame_root h] at this ⊢
    · obtain ⟨p, n, b, hn, hopen, rfl⟩ := h.site_of_scope hs hroot
      cases hnested : n.nested? with
      | none =>
        rw [h.frame_into hn hopen hnested]
        refine h.ownBlocks_subset hn ?_
        rw [Node.ownBlocks_of_inner hnested, hopen]
        exact List.mem_append_left _ List.mem_cons_self
      | some fb =>
        obtain ⟨fn, b'⟩ := fb
        obtain ⟨f, c, -, hlays⟩ := (h.lays p n hn).function fn b' hnested
        obtain rfl : b' = b := Option.some.inj ((Node.opened_of_nested hnested).symm.trans hopen)
        have := h.entry_mem_frameBlocks (h.frame_mem b'.id)
        rw [← hlays.body, frame_body h hlays.lt] at this ⊢
        exact this

/-- The blocks of all frames are the scopes. -/
theorem frameBlocks_perm : (g.frames.flatMap g.frameBlocks).Perm (List.range g.scopes.size) := by
  refine (List.perm_ext_iff_of_nodup ?_ List.nodup_range).mpr fun s => ?_
  · refine List.nodup_flatMap.mpr ⟨fun fr hfr => ?_, ?_⟩
    · obtain ⟨-, b, hblock, -, -, -, hnodup⟩ := h.frame_block hfr
      rw [frameBlocks, hblock]
      exact hnodup.sublist (Node.ownBlocks_sublist _)
    · refine g.nodup_frames.imp_of_mem fun {fr fr'} hfr hfr' hne s hs hs' => hne ?_
      rw [← ((h.mem_frameBlocks hfr).mp hs).2, ((h.mem_frameBlocks hfr').mp hs').2]
  · rw [List.mem_flatMap, List.mem_range]
    constructor
    · rintro ⟨fr, hfr, hs⟩
      exact ((h.mem_frameBlocks hfr).mp hs).1
    · intro hs
      exact ⟨g.frame? s, h.frame_mem s, (h.mem_frameBlocks (h.frame_mem s)).mpr ⟨hs, rfl⟩⟩

end Holds

end Graph

end Unnest

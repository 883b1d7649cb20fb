import InfinityDB.Ordered.Refinement

/-!
# Balance

The tree as its links spell it out: the nodes a number of hops below the root. The leaves are
exactly the nodes `height` hops down, a pool has no node outside the tree that is not free, and the
separator counts keep the height below the bound of the descent.
-/

namespace InfinityDB

open List

open OrderedMap

variable {S : KeyScheme} {F : Nat}

namespace OrderedMap

/-- The ids a number of hops below the root, from left to right. -/
def idsAt (m : OrderedMap S F) : Nat → Option (List Nat)
  | 0 => some m.root.toList
  | depth + 1 => do
    let ids ← m.idsAt depth
    let nodes ← ids.mapM m.internals.get
    some (nodes.flatMap Internal.children)

/-- The nodes above the leaves, level by level from the root. -/
def internalIds (m : OrderedMap S F) : Option (List Nat) := do
  let levels ← (List.range m.height).mapM m.idsAt
  some levels.flatten

end OrderedMap

/-- Every id of either pool is in the tree or on the free list, and only once. -/
structure Accounted (m : OrderedMap S F) (leafIds internalIds : List Nat) : Prop where
  leaves : m.idsAt m.height = some leafIds
  internals : m.internalIds = some internalIds
  leavesFree : (leafIds ++ m.leaves.free).Perm (List.range m.leaves.nodes.length)
  internalsFree : (internalIds ++ m.internals.free).Perm (List.range m.internals.nodes.length)

/-- The shape of the tree. A leaf may be far below `LEAF_MIN`; an internal node may not. -/
structure Balanced (m : OrderedMap S F) : Prop where
  nodes : ∃ leafIds internalIds, Accounted m leafIds internalIds
  leaves : ∃ ids, m.idsAt m.height = some ids ∧
    ∀ id ∈ ids, ∃ leaf, m.leaves.get id = some leaf ∧ 1 ≤ leaf.count ∧ leaf.count ≤ F
  internals : ∀ depth < m.height, ∃ ids, m.idsAt depth = some ids ∧
    ∀ id ∈ ids, ∃ node, m.internals.get id = some node ∧ node.children.length = node.count + 1 ∧
      (if depth = 0 then 1 else sepMin F) ≤ node.count ∧ node.count ≤ sepMax F
  height : m.height < maxHeight

theorem mapM_stored {α β γ : Type} {get : α → Option β} (key : γ → α) (node : γ → β) {xs : List γ}
    (h : ∀ x ∈ xs, get (key x) = some (node x)) : (xs.map key).mapM get = some (xs.map node) := by
  induction xs with
  | nil => rfl
  | cons x xs ih =>
    rw [map_cons, mapM_cons, run_bind (h x (by simp)), run_bind (ih (forall_mem_cons.mp h).2)]
    rfl

section Walk
variable {m : OrderedMap S F} {v : View S} {root : Nat} {levels : List (Level S)} {ids : List Nat} {fences : List (Item S)}

/-- As many hops down as there are levels come the nodes that the levels index. -/
theorem Indexes.idsAt (hi : Indexes levels ids fences [root] []) (hroot : m.root = some root)
    (hget : ∀ n ∈ levels.flatten, m.internals.get n.id = some n.internal) : m.idsAt levels.length = some ids := by
  induction levels generalizing ids fences with
  | nil =>
    obtain ⟨rfl, -⟩ := hi
    rw [length_nil, OrderedMap.idsAt, hroot]
    rfl
  | cons level up ih =>
    obtain ⟨upper, -, -, rfl, -, hup⟩ := hi
    have habove := ih hup fun n hn => hget n (mem_append_right _ hn)
    have hnodes : (level.map INode.id).mapM m.internals.get = some (level.map INode.internal) :=
      mapM_stored INode.id INode.internal fun n hn => hget n (mem_append_left _ hn)
    rw [length_cons, OrderedMap.idsAt, run_bind habove, run_bind hnodes, flatMap_map]
    rfl

/-- The levels from any one of them upward index that level. -/
theorem Indexes.above {below : List (Level S)} (hi : Indexes (below ++ levels) ids fences [root] []) :
    ∃ ids fences, Indexes levels ids fences [root] [] := by
  induction below generalizing ids fences with
  | nil => exact ⟨ids, fences, hi⟩
  | cons level below ih =>
    obtain ⟨upper, -, -, -, -, hup⟩ := hi
    exact ih hup

theorem Occupied.above {lo : Nat} {below : List (Level S)} (h : Occupied F lo (below ++ levels)) : Occupied F lo levels := by
  induction below with
  | nil => exact h
  | cons level below ih => exact ih h.2

theorem Indexes.mapM_idsAt (hi : Indexes levels ids fences [root] []) (hroot : m.root = some root)
    (hget : ∀ n ∈ levels.flatten, m.internals.get n.id = some n.internal) :
    (List.range levels.length).mapM m.idsAt = some (levels.reverse.map fun level => level.map INode.id) := by
  induction levels generalizing ids fences with
  | nil => rfl
  | cons level up ih =>
    obtain ⟨upper, -, -, -, -, hup⟩ := hi
    have habove : ∀ n ∈ up.flatten, m.internals.get n.id = some n.internal :=
      fun n hn => hget n (mem_append_right _ hn)
    rw [length_cons, range_succ, mapM_append, run_bind (ih hup habove), mapM_cons, run_bind (hup.idsAt hroot habove)]
    simp

theorem Shape.internalIds_eq (h : Shape m v root) : m.internalIds = some (v.levels.reverse.flatten.map INode.id) := by
  rw [internalIds, ← h.height, run_bind (h.index.mapM_idsAt h.rooted h.stored), map_flatten]

theorem Shape.idsAt_leaves (h : Shape m v root) : m.idsAt m.height = some (v.leaves.map Prod.fst) := by
  rw [← h.height]
  exact h.index.idsAt h.rooted h.stored

theorem Shape.accounted (h : Shape m v root) :
    Accounted m (v.leaves.map Prod.fst) (v.levels.reverse.flatten.map INode.id) := by
  refine ⟨h.idsAt_leaves, h.internalIds_eq, ?_, ?_⟩
  · have hids := h.leaves.ids
    rwa [chainTo_ids] at hids
  · have hids := h.internals.ids
    rw [storedNodes, map_map] at hids
    refine List.Perm.trans (List.Perm.append_right _ ?_) hids
    exact (List.Perm.flatten v.levels.reverse_perm).map _

end Walk

section Shape
variable {m : OrderedMap S F} {V : Backing S}

theorem Rep.level_counts {v : View S} {root : Nat} (h : Rep m v root) {depth : Nat} (hdepth : depth < m.height) :
    ∃ ids, m.idsAt depth = some ids ∧
      ∀ id ∈ ids, ∃ node, m.internals.get id = some node ∧ node.children.length = node.count + 1 ∧
        (if depth = 0 then 1 else sepMin F) ≤ node.count ∧ node.count ≤ sepMax F := by
  -- the levels are kept from the leaves upward, so `depth` of them lie above this one
  obtain ⟨below, level, up, hlevels, hup⟩ : ∃ below level up, v.levels = below ++ level :: up ∧ up.length = depth := by
    have hlt : m.height - 1 - depth < v.levels.length := by
      rw [h.height]
      omega
    refine ⟨v.levels.take (m.height - 1 - depth), v.levels[m.height - 1 - depth], v.levels.drop (m.height - 1 - depth + 1),
      ?_, ?_⟩
    · rw [getElem_cons_drop, take_append_drop]
    · rw [length_drop, h.height]
      omega
  have hindex := h.index
  have hocc := h.occupied
  have hstored := h.stored
  rw [hlevels] at hindex hocc hstored
  obtain ⟨_, _, upper, -, hchildren, -, -, habove⟩ := hindex.above
  have hlevel := hocc.above.1
  refine ⟨level.map INode.id, ?_, fun id hid => ?_⟩
  · rw [← hup]
    exact habove.idsAt h.rooted fun n hn => hstored n (by simp [hn])
  · obtain ⟨n, hn, rfl⟩ := mem_map.mp hid
    refine ⟨n.internal, hstored n (by simp [hn]), ?_, ?_⟩
    · rw [INode.internal_count]
      exact hchildren n hn
    · rw [INode.internal_count]
      simpa [← hup, List.isEmpty_iff] using hlevel n hn

theorem Vacant.accounted (h : Vacant m) : Accounted m [] [] := by
  refine ⟨?_, ?_, h.leaves.ids, h.internals.ids⟩
  · rw [h.height, OrderedMap.idsAt, h.root]
    rfl
  · rw [internalIds, h.height]
    rfl

theorem Backs.accounted (h : Backs m V) : ∃ leafIds internalIds, Accounted m leafIds internalIds := by
  match V, h with
  | none, h => exact ⟨_, _, Vacant.accounted h⟩
  | some (v, root), h => exact ⟨_, _, (Rep.toShape h).accounted⟩

theorem Backs.balanced (h : Backs m V) (hF : 10 ≤ F) : Balanced m := by
  have hheight := h.height_lt hF
  have hnodes := h.accounted
  match V, h with
  | none, h =>
    refine ⟨hnodes, ⟨[], (Vacant.accounted h).leaves, by simp⟩, ?_, hheight⟩
    intro depth hdepth
    rw [Vacant.height h] at hdepth
    exact absurd hdepth (Nat.not_lt_zero _)
  | some (v, root), h =>
    have hshape := Rep.toShape h
    refine ⟨hnodes, ⟨_, hshape.idsAt_leaves, fun id hid => ?_⟩, fun depth => Rep.level_counts h, hheight⟩
    obtain ⟨⟨id, items⟩, hleaf, rfl⟩ := mem_map.mp hid
    obtain ⟨left, right, hsplit⟩ := append_of_mem hleaf
    refine ⟨_, hshape.get_leaf hsplit, ?_, ?_⟩
    · rw [Leaf.count, length_map]
      exact length_pos_of_ne_nil (Rep.filled h _ hleaf)
    · rw [Leaf.count, length_map]
      exact hshape.fits _ hleaf

end Shape

/-- After any run at fanout 32 the tree is balanced and below the height bound, and no further call
panics: neither the height assertions nor the bounds of the path, of a plan or of a node are met. -/
theorem orderedMap_balanced (S : KeyScheme) (ceiling : UInt32) {calls : List Call} {replies : List Reply}
    {m : OrderedMap S 32} (hrun : (OrderedMap.new S 32 ceiling).run calls = some (replies, m)) :
    Balanced m ∧ ∀ call, S.Admits call.pair.key → ∃ reply m', m.step call = some (reply, m') := by
  obtain ⟨V, h⟩ := (backs_new S 32 ceiling).after_run (by decide) rfl hrun
  refine ⟨h.balanced (by decide), fun call hk => ?_⟩
  obtain ⟨reply, m', -, hstep, -⟩ := h.step (by decide) rfl (h.height_lt (by decide)) hk
  exact ⟨reply, m', hstep⟩

/-- Thirty-three inserts split the first leaf, and a remove follows. -/
theorem orderedMap_balanced_split : ∃ replies m, (OrderedMap.new .fixed8 32 0).run
    ((rising 0 33).map .insert ++ (rising 7 1).map .remove) = some (replies, m) ∧ m.height = 1 ∧ Balanced m := by
  have hheight : ((OrderedMap.new .fixed8 32 0).run ((rising 0 33).map .insert ++ (rising 7 1).map .remove)).map
    (fun out => out.2.height) = some 1 := by decide +kernel
  obtain ⟨⟨replies, m⟩, hrun, hm⟩ := Option.map_eq_some_iff.mp hheight
  exact ⟨replies, m, hrun, hm, (orderedMap_balanced .fixed8 0 hrun).1⟩

end InfinityDB

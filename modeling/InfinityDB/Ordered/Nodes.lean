import InfinityDB.Lib.Weave
import InfinityDB.Ordered.Slots

/-!
# Node pools

`Owned` ties a pool to the list of its live nodes: live ids and free ids are together exactly
the allocated id range, and every live node is stored under its id. The list is taken up to
permutation, so an operation names the nodes it touches at the head and frames the rest.
-/

namespace InfinityDB

open List

section Owned
variable {α : Type}

structure Owned (p : Pool α) (live : List (Nat × α)) : Prop where
  ids : (live.map Prod.fst ++ p.free).Perm (List.range p.nodes.length)
  stored : ∀ x ∈ live, p.nodes[x.1]? = some x.2
  bound : p.nodes.length ≤ nodeNone

variable {p p' : Pool α} {live live' : List (Nat × α)}

theorem owned_new : Owned (Pool.new : Pool α) [] := by
  constructor <;> simp [Pool.new]

theorem Owned.perm (h : Owned p live) (hp : live.Perm live') : Owned p live' :=
  ⟨((hp.map _).append_right _).symm.trans h.ids, fun x hx => h.stored x (hp.mem_iff.mpr hx), h.bound⟩

variable {x : Nat × α}

theorem Owned.get (h : Owned p live) (hx : x ∈ live) : p.get x.1 = some x.2 :=
  h.stored x hx

theorem Owned.nodup (h : Owned p live) : (live.map Prod.fst ++ p.free).Nodup :=
  h.ids.nodup_iff.mpr nodup_range

theorem Owned.ids_nodup (h : Owned p live) : (live.map Prod.fst).Nodup :=
  (nodup_append.mp h.nodup).1

theorem Owned.id_lt (h : Owned p live) (hx : x ∈ live) : x.1 < p.nodes.length :=
  mem_range.mp (h.ids.mem_iff.mp (mem_append_left _ (mem_map_of_mem hx)))

theorem Owned.length_le (h : Owned p live) : live.length ≤ nodeNone := by
  have hlen := h.ids.length_eq
  simp only [length_append, length_map, length_range] at hlen
  have hb := h.bound
  omega

theorem Owned.ne (h : Owned p (x :: live)) {y : Nat × α} (hy : y ∈ live) : x.1 ≠ y.1 := by
  intro he
  have hn := nodup_cons.mp h.ids_nodup
  exact hn.1 (he ▸ mem_map_of_mem hy)

theorem Owned.set {id : Nat} {x : α} (h : Owned p ((id, x) :: live)) (y : α) :
    ∃ p', p.set id y = some p' ∧ Owned p' ((id, y) :: live) := by
  have hlt : id < p.nodes.length := h.id_lt (x := (id, x)) (by simp)
  refine ⟨{ p with nodes := p.nodes.set id y }, by simp [Pool.set, hlt], ?_, ?_, by simpa using h.bound⟩
  · simpa using h.ids
  · intro z hz
    rcases mem_cons.mp hz with rfl | hz
    · simp [hlt]
    · have hne : id ≠ z.1 := h.ne hz
      rw [getElem?_set_ne hne]
      exact h.stored z (mem_cons_of_mem _ hz)

/-- Three stores in a row, the last one through a node read back after the first two. -/
theorem Owned.set_three {i j k : Nat} {x y z : α} (h : Owned p ((i, x) :: (j, y) :: (k, z) :: live)) (x' y' z' : α) :
    ∃ p₁ p₂ p₃, p.set i x' = some p₁ ∧ p₁.set j y' = some p₂ ∧ p₂.get k = some z ∧ p₂.set k z' = some p₃ ∧
      Owned p₃ ((i, x') :: (j, y') :: (k, z') :: live) := by
  obtain ⟨p₁, hset₁, h₁⟩ := h.set x'
  obtain ⟨p₂, hset₂, h₂⟩ := (h₁.perm (List.Perm.swap _ _ _)).set y'
  have hrot (z : α) : ((j, y') :: (i, x') :: (k, z) :: live).Perm ((k, z) :: (i, x') :: (j, y') :: live) :=
    (List.Perm.cons _ (List.Perm.swap _ _ _)).trans ((List.Perm.swap _ _ _).trans (List.Perm.cons _ (List.Perm.swap _ _ _)))
  obtain ⟨p₃, hset₃, h₃⟩ := (h₂.perm (hrot z)).set z'
  exact ⟨p₁, p₂, p₃, hset₁, hset₂, h₂.get (x := (k, z)) (by simp), hset₃,
    h₃.perm ((hrot z').symm.trans (List.Perm.swap _ _ _))⟩

theorem Owned.release {id : Nat} {x : α} (h : Owned p ((id, x) :: live)) : Owned (p.release id) live := by
  refine ⟨?_, (forall_mem_cons.mp h.stored).2, h.bound⟩
  refine List.Perm.trans ?_ h.ids
  exact perm_middle

theorem Owned.alloc (h : Owned p live) (x : α) : (∃ id p', p.alloc x = some (.ok id, p') ∧ Owned p' ((id, x) :: live)) ∨
      p.alloc x = some (.error .nodeLimit, p) ∧ nodeNone ≤ live.length := by
  have hlen := h.ids.length_eq
  simp only [length_append, length_map, length_range] at hlen
  unfold Pool.alloc
  cases hf : p.free with
  | cons id free =>
    have hmem : id ∈ live.map Prod.fst ++ p.free := by simp [hf]
    have hlt : id < p.nodes.length := mem_range.mp (h.ids.mem_iff.mp hmem)
    refine .inl ⟨id, ⟨p.nodes.set id x, free⟩, by simp [hlt], ?_, ?_, by simpa using h.bound⟩
    · rw [length_set]
      refine List.Perm.trans ?_ h.ids
      rw [hf]
      exact perm_middle.symm
    · intro z hz
      rcases mem_cons.mp hz with rfl | hz
      · simp [hlt]
      · have hne : id ≠ z.1 := by
          intro he
          have hd := (nodup_append.mp h.nodup).2.2 z.1 (mem_map_of_mem hz) id (by simp [hf])
          exact hd he.symm
        rw [getElem?_set_ne hne]
        exact h.stored z hz
  | nil =>
    by_cases hfull : nodeNone ≤ p.nodes.length
    · rw [hf, length_nil] at hlen
      exact .inr ⟨by simp [hfull], by omega⟩
    refine .inl ⟨p.nodes.length, ⟨p.nodes ++ [x], []⟩, by simp [hfull], ?_, ?_, ?_⟩
    · have hids := h.ids
      rw [hf, append_nil] at hids
      simp only [map_cons, append_nil, length_append, length_singleton, range_succ]
      exact (hids.cons _).trans (perm_append_singleton _ _).symm
    · intro z hz
      rcases mem_cons.mp hz with rfl | hz
      · simp
      · rw [getElem?_append_left (h.id_lt hz)]
        exact h.stored z hz
    · simp only [length_append, length_singleton]
      omega

end Owned

variable {S : KeyScheme}

/-- A leaf of the chain: its id and its items. -/
abbrev LeafNode (S : KeyScheme) := Nat × List (Item S)

/-- The pool contents of a run of leaves that continues at `next`. -/
def chainTo (next : Option Nat) : List (LeafNode S) → List (Nat × Leaf S)
  | [] => []
  | leaf :: rest =>
    (leaf.1, ⟨((rest.map Prod.fst).head?.or next), leaf.2.map Prod.fst⟩) :: chainTo next rest

/-- The pool contents of a whole leaf chain. -/
abbrev chainNodes (leaves : List (LeafNode S)) : List (Nat × Leaf S) := chainTo none leaves

private theorem chainTo_append (next : Option Nat) (left right : List (LeafNode S)) : chainTo next (left ++ right) =
      chainTo ((right.map Prod.fst).head?.or next) left ++ chainTo next right := by
  induction left with
  | nil => rfl
  | cons leaf left ih =>
    rw [cons_append, chainTo, ih, chainTo]
    cases left <;> simp

theorem chainTo_ids (next : Option Nat) (leaves : List (LeafNode S)) :
    (chainTo next leaves).map Prod.fst = leaves.map Prod.fst := by
  induction leaves with
  | nil => rfl
  | cons leaf leaves ih => simp [chainTo, ih]

@[simp] theorem chainTo_length (next : Option Nat) (leaves : List (LeafNode S)) :
    (chainTo next leaves).length = leaves.length := by
  simpa using congrArg List.length (chainTo_ids next leaves)

/-- The chain opened around one leaf. -/
theorem chainNodes_focus (left right : List (LeafNode S)) (id : Nat) (items : List (Item S)) :
    chainNodes (left ++ (id, items) :: right) = chainTo (some id) left ++
        (id, ⟨(right.map Prod.fst).head?, items.map Prod.fst⟩) :: chainNodes right := by
  rw [chainNodes, chainTo_append, chainTo]
  simp

end InfinityDB

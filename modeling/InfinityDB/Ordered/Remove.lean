import InfinityDB.Ordered.Represents
import InfinityDB.Ordered.Rebalance

/-!
# Removal

Taking a pair out of its leaf frees its heap suffix; what follows only moves boundaries. A leaf
below the minimum borrows across one fence or merges over it, and the underflow above walks up.
None of it changes the chain of items.
-/

namespace InfinityDB

open Lib List OrderedMap

variable {S : KeyScheme} {F : Nat} {m : OrderedMap S F} {v : View S} {root : Nat}

theorem chainNodes_pair (left right : List (LeafNode S)) (a b : Nat) (as bs : List (Item S)) :
    chainNodes (left ++ (a, as) :: (b, bs) :: right) = chainTo (some a) left ++ (a, ⟨some b, as.map Prod.fst⟩) ::
        (b, ⟨(right.map Prod.fst).head?, bs.map Prod.fst⟩) :: chainNodes right := by
  rw [chainNodes_focus, chainNodes, chainTo]
  simp

/-- The same items in a view whose fences are fences there were or copies of pairs it holds. -/
structure Kept (v v' : View S) : Prop where
  items : v'.items = v.items
  fences : ∀ f ∈ v'.fences, f ∈ v.fences ∨ f.2 ∈ v.pairs

theorem Kept.refl (v : View S) : Kept v v := ⟨rfl, fun _ => .inl⟩

theorem Kept.trans {v v₁ v₂ : View S} (h : Kept v v₁) (h' : Kept v₁ v₂) : Kept v v₂ := by
  refine ⟨h'.items.trans h.items, fun f hf => ?_⟩
  rcases h'.fences f hf with hf | hf
  · exact h.fences f hf
  · right
    rwa [View.pairs, h.items] at hf

/-- Two neighbouring leaves and everything between and around them. -/
structure Border (v : View S) (l r : Level S) (p : INode S) (up : List (Level S)) (k root : Nat) (s : Siblings S)
    (left : List (LeafNode S)) (as bs : List (Item S)) (right : List (LeafNode S)) : Prop where
  levels : v.levels = (l ++ p :: r) :: up
  parent : s.parent = p
  sl : s.sl.length = k
  cl : s.cl.length = k
  leaves : v.leaves = left ++ (s.a, as) :: (s.b, bs) :: right
  fences : v.fences = s.fencesL ++ s.fence :: s.fencesR
  left_length : left.length = s.fencesL.length
  position : left.length = (l.flatMap INode.children).length + k
  refenced : ∀ x, Indexes ((l ++ s.refenced x :: r) :: up) (v.leaves.map Prod.fst) (s.fencesL ++ x :: s.fencesR)
    [root] []
  joined : Indexes ((l ++ s.joined :: r) :: up) ((left ++ (s.a, as ++ bs) :: right).map Prod.fst)
    (s.fencesL ++ s.fencesR) [root] []

theorem Shape.border (h : Shape m v root) {l r : Level S} {p : INode S} {up : List (Level S)} {k : Nat}
    (hlev : v.levels = (l ++ p :: r) :: up) (hk : k < p.seps.length) :
    ∃ s left as bs right, Border v l r p up k root s left as bs right := by
  have hindex := h.index
  rw [hlev] at hindex
  obtain ⟨s, rfl, rfl, hp, hsl, hcl, hids, hfences, hlens, hre, hjoin⟩ := hindex.siblings hk
  obtain ⟨left, tail, hleaves, hleft, htail⟩ := map_eq_append_iff.mp hids
  obtain ⟨⟨a, as⟩, tail', rfl, rfl, htail'⟩ := map_eq_cons_iff.mp htail
  obtain ⟨⟨b, bs⟩, right, rfl, rfl, hright⟩ := map_eq_cons_iff.mp htail'
  have hl : left.length = s.idsL.length := by rw [← hleft, length_map]
  refine ⟨s, left, as, bs, right, hlev, hp, hsl, hcl, hleaves, hfences, hl.trans hlens, ?_, hre, ?_⟩
  · rw [hl, Siblings.idsL, length_append, hcl]
  · simpa [hleft, hright] using hjoin

section Border
variable {l r : Level S} {p : INode S} {up : List (Level S)} {k : Nat} {s : Siblings S}
  {left right : List (LeafNode S)} {as bs : List (Item S)}

section
variable (hb : Border v l r p up k root s left as bs right)
include hb

theorem Border.parent_get (h : Shape m v root) : m.internals.get p.id = some p.internal :=
  h.stored p (by rw [hb.levels]; simp)

/-- The order once the fence between the two leaves is gone. -/
theorem Border.order (h : Shape m v root) :
    (weaveL (leafMarks left) (s.fencesL.map fenceMark) ++ (as ++ bs).map entryMark ++
      weaveR (s.fencesR.map fenceMark) (leafMarks right)).Pairwise Mark.Before := by
  have hord := h.order
  have hv : v = ⟨left ++ (s.a, as) :: (s.b, bs) :: right, s.fencesL ++ s.fence :: s.fencesR, v.levels⟩ := by
    rw [← hb.leaves, ← hb.fences]
  rw [hv, View.marks_focus _ hb.left_length] at hord
  refine hord.sublist ?_
  simp only [leafMarks, map_cons, weaveR_cons, map_append, append_assoc]
  refine List.Sublist.append_left (List.Sublist.append_left ?_ _) _
  exact sublist_cons_self _ _

theorem Border.items_eq : v.items = left.flatMap Prod.snd ++ (as ++ bs) ++ right.flatMap Prod.snd := by
  simp [View.items, hb.leaves]

end

theorem storedNodes_parent (l r : Level S) (q : INode S) (up : List (Level S)) :
    (storedNodes ((l ++ q :: r) :: up)).Perm (q.stored :: storedNodes ((l ++ r) :: up)) := by
  simp only [storedNodes, flatten_cons, append_assoc, cons_append, map_append, map_cons]
  exact perm_middle

/-- Moving the boundary between two leaves: the new fence is a copy of the first item right of it,
the old one goes back to the heap. -/
theorem Border.replaceSep (hb : Border v l r p up k root s left as bs right) (h : Shape m v root)
    {as' : List (Item S)} {y : Item S} {bs' : List (Item S)} (f : Item S) (hshare : as' ++ y :: bs' = as ++ bs)
    (hf : f.2 = y.2) (has : as'.length ≤ F) (hbs : (y :: bs').length ≤ F) {heap : KeyHeap} {leaves : Pool (Leaf S)}
    (hheap : Holds heap (f :: (v.items ++ v.fences)))
    (hleaves : Owned leaves (chainNodes (left ++ (s.a, as') :: (s.b, y :: bs') :: right))) :
    ∃ heap' internals' v', v'.leaves = left ++ (s.a, as') :: (s.b, y :: bs') :: right ∧ v'.levels = (l ++ s.refenced f :: r) :: up ∧
      OrderedMap.replaceSep ({ m with heap, leaves } : OrderedMap S F) p.id k f.1 =
        some { m with heap := heap', leaves, internals := internals' } ∧ Kept v v' ∧
      Shape ({ m with heap := heap', leaves, internals := internals' } : OrderedMap S F) v' root := by
  have hown := h.internals
  rw [hb.levels] at hown
  obtain ⟨internals', hset, hown'⟩ := (hown.perm (storedNodes_parent l r p up)).set (s.refenced f).internal
  have hitems : View.items ⟨left ++ (s.a, as') :: (s.b, y :: bs') :: right, s.fencesL ++ f :: s.fencesR,
      (l ++ s.refenced f :: r) :: up⟩ = v.items := by
    rw [hb.items_eq, ← hshare]
    simp [View.items]
  obtain ⟨heap', hfree, hheld⟩ : ∃ heap', freeMeta heap s.fence.1.side = some heap' ∧
      Holds heap' (v.items ++ (s.fencesL ++ f :: s.fencesR)) := by
    refine freeMeta_spec (hheap.perm ?_)
    rw [hb.fences]
    classical
    refine perm_iff_count.mpr fun z => ?_
    simp only [count_append, count_cons]
    omega
  have hid : s.id = p.id := by rw [← hb.parent]; rfl
  refine ⟨heap', internals', _, rfl, rfl, ?_, ⟨hitems, fun x hx => ?_⟩, h.rooted, ?_, hleaves, ?_, ?_, ?_, ?_, ?_, ?_⟩
  · have hold : p.internal.seps[k]? = some s.fence.1 := by rw [← hb.parent]; exact Siblings.parent_seps_get hb.sl
    have hwrite : p.internal.writeSep k f.1 = some (s.refenced f).internal := by
      rw [← hb.parent]
      exact Siblings.parent_writeSep hb.sl f
    rw [OrderedMap.replaceSep, run_bind (hb.parent_get h), run_bind hold, run_bind hwrite, run_bind hset,
      run_bind hfree]
  · rw [hb.fences]
    rcases mem_append.mp hx with hx | hx
    · exact .inl (mem_append_left _ hx)
    rcases mem_cons.mp hx with rfl | hx
    · right
      rw [hf, View.pairs, hb.items_eq, ← hshare]
      simp
    · exact .inl (mem_append_right _ (mem_cons_of_mem _ hx))
  · have hheight := h.height
    rw [hb.levels] at hheight
    simpa using hheight
  · rw [← hid] at hown'
    exact hown'.perm (storedNodes_parent l r (s.refenced f) up).symm
  · rw [hitems]
    exact hheld
  · have hindex := hb.refenced f
    rw [hb.leaves] at hindex
    simpa using hindex
  · have hord := hb.order h
    rw [← hshare] at hord
    have hord' := order_fence f hord hf
    rw [View.marks_focus _ hb.left_length]
    simpa [leafMarks] using hord'
  · exact forall_mem_splice [_, _] [_, _] (hb.leaves ▸ h.fits) (forall_mem_cons.mpr ⟨has, forall_mem_singleton.mpr hbs⟩)
  · rw [hitems]
    exact h.len

end Border

variable {left right : List (LeafNode S)}

private theorem chain_filled {id : Nat} {items : List (Item S)}
    (hchain : v.leaves = left ++ (id, items) :: right) (hothers : ∀ leaf ∈ left ++ right, leaf.2 ≠ [])
    (hne : items ≠ []) : ∀ leaf ∈ v.leaves, leaf.2 ≠ [] := by
  rw [hchain]
  exact forall_mem_splice [] [_] hothers (forall_mem_singleton.mpr hne)

/-- A leaf under its parent; only this leaf may have run empty. -/
structure Site (m : OrderedMap S F) (v : View S) (root : Nat) (l r : Level S) (up : List (Level S)) (c id : Nat)
    (p : INode S) (left : List (LeafNode S)) (items : List (Item S)) (right : List (LeafNode S)) : Prop
    extends Shape m v root where
  chain : v.leaves = left ++ (id, items) :: right
  tower : v.levels = (l ++ p :: r) :: up
  position : left.length = (l.flatMap INode.children).length + c
  within : c ≤ p.seps.length
  others : ∀ leaf ∈ left ++ right, leaf.2 ≠ []

section Site
variable {l r : Level S} {up : List (Level S)} {c id : Nat} {p : INode S}
  {left right : List (LeafNode S)} {items bs : List (Item S)} {s : Siblings S}

theorem Site.left_border (h : Site m v root l r up c id p left items right) (h0 : 0 < c) :
    ∃ s left' as, Border v l r p up (c - 1) root s left' as items right ∧ left = left' ++ [(s.a, as)] ∧ id = s.b := by
  obtain ⟨s, left', as, bs, right', hb⟩ := h.border h.tower (show c - 1 < p.seps.length by have := h.within; omega)
  have hsplit : left ++ (id, items) :: right = (left' ++ [(s.a, as)]) ++ (s.b, bs) :: right' := by
    rw [← h.chain, hb.leaves]
    simp
  have hlen : left.length = (left' ++ [(s.a, as)]).length := by
    rw [h.position, length_append, hb.position, length_singleton]
    omega
  obtain ⟨rfl, htail⟩ := append_inj hsplit hlen
  obtain ⟨hpair, rfl⟩ := List.cons.inj htail
  obtain ⟨rfl, rfl⟩ := Prod.mk.inj hpair
  exact ⟨s, left', as, hb, rfl, rfl⟩

theorem Site.right_border (h : Site m v root l r up c id p left items right) (hc : c < p.seps.length) :
    ∃ s bs right', Border v l r p up c root s left items bs right' ∧ right = (s.b, bs) :: right' ∧ id = s.a := by
  obtain ⟨s, left', as, bs, right', hb⟩ := h.border h.tower hc
  have hsplit : left ++ (id, items) :: right = left' ++ (s.a, as) :: (s.b, bs) :: right' := by
    rw [← h.chain, hb.leaves]
  obtain ⟨rfl, htail⟩ := append_inj hsplit (by rw [h.position, hb.position])
  obtain ⟨hpair, rfl⟩ := List.cons.inj htail
  obtain ⟨rfl, rfl⟩ := Prod.mk.inj hpair
  exact ⟨s, bs, right', hb, rfl, rfl⟩

/-- What a try to borrow leaves behind. -/
def Borrowed (m : OrderedMap S F) (v : View S) (root : Nat) (l r : Level S) (up : List (Level S)) (c id : Nat)
    (p : INode S) (left : List (LeafNode S)) (items : List (Item S)) (right : List (LeafNode S))
    (result : Option (Bool × OrderedMap S F)) : Prop :=
  (∃ m' v' p' left' items' right', result = some (true, m') ∧
    Site m' v' root l r up c id p' left' items' right' ∧ p'.id = p.id ∧ p'.seps.length = p.seps.length ∧
    items'.length = items.length + 1 ∧ Kept v v' ∧ m'.epoch = m.epoch) ∨
  ∃ m', result = some (false, m') ∧ Site m' v root l r up c id p left items right ∧ m'.epoch = m.epoch

theorem Site.leaf_get (h : Site m v root l r up c id p left items right) :
    m.leaves.get id = some ⟨(right.map Prod.fst).head?, items.map Prod.fst⟩ := by
  have hown := h.leaves
  rw [h.chain, chainNodes_focus] at hown
  exact hown.get (x := (id, _)) (by simp)

section
variable (hb : Border v l r p up c root s left items bs right) (h : Shape m v root)
include hb h

theorem Border.left_get : m.leaves.get s.a = some ⟨some s.b, items.map Prod.fst⟩ := by
  have hown := h.leaves
  rw [hb.leaves, chainNodes_pair] at hown
  exact hown.get (x := (s.a, _)) (by simp)

theorem Border.right_get : m.leaves.get s.b = some ⟨(right.map Prod.fst).head?, bs.map Prod.fst⟩ := by
  have hown := h.leaves
  rw [hb.leaves, chainNodes_pair] at hown
  exact hown.get (x := (s.b, _)) (by simp)

theorem Border.ne : s.a ≠ s.b := by
  have hown := h.leaves
  rw [hb.leaves, chainNodes_pair] at hown
  exact (hown.perm perm_middle).ne (y := (s.b, ⟨(right.map Prod.fst).head?, bs.map Prod.fst⟩)) (by simp)

/-- Storing both leaves of a border, the right one first or the left one first. -/
theorem Border.set_leaves (as' bs' : List (Item S)) :
    (∃ leaves₁ leaves₂, m.leaves.set s.b ⟨(right.map Prod.fst).head?, bs'.map Prod.fst⟩ = some leaves₁ ∧
      leaves₁.set s.a ⟨some s.b, as'.map Prod.fst⟩ = some leaves₂ ∧
      Owned leaves₂ (chainNodes (left ++ (s.a, as') :: (s.b, bs') :: right))) ∧
    ∃ leaves₁ leaves₂, m.leaves.set s.a ⟨some s.b, as'.map Prod.fst⟩ = some leaves₁ ∧
      leaves₁.set s.b ⟨(right.map Prod.fst).head?, bs'.map Prod.fst⟩ = some leaves₂ ∧
      Owned leaves₂ (chainNodes (left ++ (s.a, as') :: (s.b, bs') :: right)) := by
  have hown := h.leaves
  rw [hb.leaves, chainNodes_pair] at hown
  have hfront (x y : Nat × Leaf S) : (chainTo (some s.a) left ++ x :: y :: chainNodes right).Perm
      (x :: y :: (chainTo (some s.a) left ++ chainNodes right)) :=
    perm_middle.trans (List.Perm.cons _ perm_middle)
  rw [chainNodes_pair]
  have hown' := hown.perm (hfront _ _)
  constructor
  · obtain ⟨l₁, hset₁, hown₁⟩ := (hown'.perm (List.Perm.swap _ _ _)).set ⟨(right.map Prod.fst).head?, bs'.map Prod.fst⟩
    obtain ⟨l₂, hset₂, hown₂⟩ := (hown₁.perm (List.Perm.swap _ _ _)).set ⟨some s.b, as'.map Prod.fst⟩
    exact ⟨l₁, l₂, hset₁, hset₂, hown₂.perm (hfront _ _).symm⟩
  · obtain ⟨l₁, hset₁, hown₁⟩ := hown'.set ⟨some s.b, as'.map Prod.fst⟩
    obtain ⟨l₂, hset₂, hown₂⟩ := (hown₁.perm (List.Perm.swap _ _ _)).set ⟨(right.map Prod.fst).head?, bs'.map Prod.fst⟩
    exact ⟨l₁, l₂, hset₁, hset₂, (hown₂.perm (List.Perm.swap _ _ _)).perm (hfront _ _).symm⟩

end

section
variable (h : Site m v root l r up c id p left items right)
include h

/-- A refused fence copy: only the heap was touched. -/
theorem Site.refused {heap : KeyHeap} (hh : Holds heap (v.items ++ v.fences)) :
    Site ({ m with heap } : OrderedMap S F) v root l r up c id p left items right :=
  { h with heap := hh }

theorem Site.borrowLeft (hlow : items.length < leafMin F) :
    Borrowed m v root l r up c id p left items right (m.borrowLeft p.id c id) := by
  have hmin : leafMin F = F / 2 := rfl
  have hgp : m.internals.get p.id = some p.internal := h.stored p (by rw [h.tower]; simp)
  rcases Nat.eq_zero_or_pos c with rfl | h0
  · exact .inr ⟨m, by rw [OrderedMap.borrowLeft, run_bind hgp, if_pos rfl], h, rfl⟩
  obtain ⟨s, left', as, hb, rfl, rfl⟩ := h.left_border h0
  have hsib : p.internal.children[c - 1]? = some s.a := by rw [← hb.parent]; exact Siblings.parent_left hb.cl
  have hga := hb.left_get h.toShape
  rw [OrderedMap.borrowLeft, run_bind hgp, if_neg (Nat.pos_iff_ne_zero.mp h0), run_bind hsib, run_bind hga,
    Leaf.count, length_map]
  by_cases hpoor : as.length ≤ leafMin F
  · exact .inr ⟨m, if_pos hpoor, h, rfl⟩
  rw [if_neg hpoor]
  obtain ⟨as', z, rfl⟩ : ∃ as' z, as = as' ++ [z] := by
    have hne : as ≠ [] := by
      rintro rfl
      simp at hpoor
    exact ⟨as.dropLast, as.getLast hne, (dropLast_append_getLast hne).symm⟩
  have hz : z ∈ v.items ++ v.fences := by
    refine mem_append_left _ ?_
    rw [hb.items_eq]
    simp
  have hlast : ((as' ++ [z]).map Prod.fst)[(as' ++ [z]).length - 1]? = some z.1 := by simp
  have hentry : copyEntryAsSep m.leaves m.heap s.a ((as' ++ [z]).length - 1) = copySlot m.heap z.1 := by
    rw [copyEntryAsSep, run_bind hga, run_bind hlast]
  rcases copySlot_spec h.heap z hz with ⟨sep, heap', hcopy, hheap⟩ | ⟨heap', hcopy, hheap, -⟩
  · obtain ⟨⟨leaves₁, leaves₂, hset₁, hset₂, hleaves⟩, -⟩ := hb.set_leaves h.toShape as' (z :: items)
    have hfit := h.fits (s.a, as' ++ [z]) (by rw [h.chain]; simp)
    have hroom : (z :: items).length ≤ F := by
      rw [length_cons]
      omega
    simp only [length_append, length_singleton] at hfit
    obtain ⟨heap'', internals', v', hchain, htower, hrun, hkept, hshape⟩ := hb.replaceSep h.toShape (sep, z.2)
      (show as' ++ z :: items = _ by simp) rfl (by omega) hroom hheap hleaves
    refine .inl ⟨_, v', s.refenced (sep, z.2), left' ++ [(s.a, as')], z :: items, right, ?_,
      ⟨hshape, by simpa using hchain, htower, ?_, ?_, ?_⟩, ?_, ?_, by simp, hkept, rfl⟩
    · have hplace : Leaf.place F ⟨(right.map Prod.fst).head?, items.map Prod.fst⟩ 0 z.1 =
          some ⟨(right.map Prod.fst).head?, (z :: items).map Prod.fst⟩ := by
        have hlt : items.length < F := by omega
        simp [Leaf.place, Leaf.count, hlt]
      have herase : Leaf.erase ⟨some s.b, (as' ++ [z]).map Prod.fst⟩ ((as' ++ [z]).length - 1) =
          some ⟨some s.b, as'.map Prod.fst⟩ := by
        simp [Leaf.erase, Leaf.count]
      rw [run_bind (hentry.trans hcopy)]
      dsimp only
      rw [if_neg (hb.ne h.toShape), run_bind hlast, run_bind h.leaf_get, run_bind hplace, run_bind herase,
        run_bind hset₁, run_bind hset₂, run_bind hrun]
    · have hpos := h.position
      simpa using hpos
    · rw [Siblings.refenced_seps_length, hb.parent]
      exact h.within
    · intro leaf hleaf
      simp only [mem_append, mem_singleton] at hleaf
      rcases hleaf with (hleaf | rfl) | hleaf
      · exact h.others leaf (by simp [hleaf])
      · rintro rfl
        simp at hpoor
        omega
      · exact h.others leaf (by simp [hleaf])
    · rw [← hb.parent]
      rfl
    · rw [Siblings.refenced_seps_length, hb.parent]
  · exact .inr ⟨{ m with heap := heap' }, run_bind (hentry.trans hcopy) _, h.refused hheap, rfl⟩

theorem Site.borrowRight (hlow : items.length < leafMin F) :
    Borrowed m v root l r up c id p left items right (m.borrowRight p.id c id) := by
  have hmin : leafMin F = F / 2 := rfl
  have hgp : m.internals.get p.id = some p.internal := h.stored p (by rw [h.tower]; simp)
  by_cases hc : c < p.seps.length
  swap
  · exact .inr ⟨m, by rw [OrderedMap.borrowRight, run_bind hgp, INode.internal_count, if_pos (not_lt.mp hc)], h, rfl⟩
  obtain ⟨s, bs, right', hb, rfl, rfl⟩ := h.right_border hc
  have hsib : p.internal.children[c + 1]? = some s.b := by rw [← hb.parent]; exact Siblings.parent_right hb.cl
  have hgb := hb.right_get h.toShape
  rw [OrderedMap.borrowRight, run_bind hgp, INode.internal_count, if_neg (not_le.mpr hc), run_bind hsib,
    run_bind hgb, Leaf.count, length_map]
  by_cases hpoor : bs.length ≤ leafMin F
  · exact .inr ⟨m, if_pos hpoor, h, rfl⟩
  rw [if_neg hpoor]
  obtain ⟨z, bs, rfl⟩ : ∃ z bs', bs = z :: bs' := exists_cons_of_length_pos (by omega)
  obtain ⟨y, bs, rfl⟩ : ∃ y bs', bs = y :: bs' :=
    exists_cons_of_length_pos (by rw [length_cons] at hpoor; omega)
  have hy : y ∈ v.items ++ v.fences := by
    refine mem_append_left _ ?_
    rw [hb.items_eq]
    simp
  have hfirst : ((z :: y :: bs).map Prod.fst)[0]? = some z.1 := rfl
  have hentry : copyEntryAsSep m.leaves m.heap s.b 1 = copySlot m.heap y.1 := by
    rw [copyEntryAsSep, run_bind hgb]
    rfl
  rcases copySlot_spec h.heap y hy with ⟨sep, heap', hcopy, hheap⟩ | ⟨heap', hcopy, hheap, -⟩
  · obtain ⟨-, leaves₁, leaves₂, hset₁, hset₂, hleaves⟩ := hb.set_leaves h.toShape (items ++ [z]) (y :: bs)
    have hfit := h.fits (s.b, z :: y :: bs) (by rw [h.chain]; simp)
    have hroom : (items ++ [z]).length ≤ F := by
      rw [length_append, length_singleton]
      omega
    have hfit' : (y :: bs).length ≤ F := by
      rw [length_cons] at hfit
      omega
    obtain ⟨heap'', internals', v', hchain, htower, hrun, hkept, hshape⟩ := hb.replaceSep h.toShape (sep, y.2)
      (show (items ++ [z]) ++ y :: bs = _ by simp) rfl hroom hfit' hheap hleaves
    refine .inl ⟨_, v', s.refenced (sep, y.2), left, items ++ [z], (s.b, y :: bs) :: right', ?_,
      ⟨hshape, hchain, htower, h.position, ?_, ?_⟩, ?_, ?_, by simp, hkept, rfl⟩
    · have hplace : Leaf.place F ⟨((((s.b, z :: y :: bs) :: right').map Prod.fst).head?), items.map Prod.fst⟩
          (Leaf.count (S := S) ⟨((((s.b, z :: y :: bs) :: right').map Prod.fst).head?), items.map Prod.fst⟩) z.1 =
          some ⟨some s.b, (items ++ [z]).map Prod.fst⟩ := by
        have hlt : items.length < F := by omega
        simp [Leaf.place, Leaf.count, hlt, ← map_take, ← map_drop]
      have herase : Leaf.erase ⟨(right'.map Prod.fst).head?, (z :: y :: bs).map Prod.fst⟩ 0 =
          some ⟨(right'.map Prod.fst).head?, (y :: bs).map Prod.fst⟩ := by
        simp [Leaf.erase, Leaf.count]
      rw [run_bind (hentry.trans hcopy)]
      dsimp only
      rw [if_neg (hb.ne h.toShape).symm, run_bind hfirst, run_bind h.leaf_get, run_bind hplace, run_bind herase,
        run_bind hset₁, run_bind hset₂, run_bind hrun]
    · rw [Siblings.refenced_seps_length, hb.parent]
      exact h.within
    · exact forall_mem_splice [_] [_] h.others (by simp)
    · rw [← hb.parent]
      rfl
    · rw [Siblings.refenced_seps_length, hb.parent]
  · exact .inr ⟨{ m with heap := heap' }, run_bind (hentry.trans hcopy) _, h.refused hheap, rfl⟩

theorem Site.leafBorrow (hlow : items.length < leafMin F) :
    Borrowed m v root l r up c id p left items right (m.leafBorrow p.id c id) := by
  rcases h.borrowLeft hlow with ⟨m', v', p', left', items', right', hrun, hrest⟩ | ⟨m', hrun, hsite, hepoch⟩
  · exact .inl ⟨m', v', p', left', items', right', by rw [OrderedMap.leafBorrow, run_bind hrun]; rfl, hrest⟩
  have hstep : m.leafBorrow p.id c id = m'.borrowRight p.id c id := by
    rw [OrderedMap.leafBorrow, run_bind hrun]
    rfl
  rw [hstep]
  rcases hsite.borrowRight hlow with ⟨m'', v', p', left', items', right', hrun', hs, hid, hseps, hlen, hitems, he⟩ |
      ⟨m'', hrun', hs, he⟩
  · exact .inl ⟨m'', v', p', left', items', right', hrun', hs, hid, hseps, hlen, hitems, he.trans hepoch⟩
  · exact .inr ⟨m'', hrun', hs, he.trans hepoch⟩

/-- The borrow loop ends within its fuel. -/
theorem Site.borrowUntil (fuel : Nat) (hfuel : leafMin F ≤ items.length + fuel) :
    ∃ m' v' p' left' items' right', OrderedMap.borrowUntil p.id c id (fuel + 1) m = some m' ∧
      Site m' v' root l r up c id p' left' items' right' ∧ p'.id = p.id ∧ p'.seps.length = p.seps.length ∧
      Kept v v' ∧ m'.epoch = m.epoch := by
  induction fuel generalizing m v p left items right with
  | zero =>
    refine ⟨m, v, p, left, items, right, ?_, h, rfl, rfl, .refl v, rfl⟩
    have hdone : ¬ items.length < leafMin F := not_lt.mpr hfuel
    rw [OrderedMap.borrowUntil, run_bind h.leaf_get, Leaf.count, length_map, if_neg hdone]
  | succ fuel ih =>
    by_cases hlow : items.length < leafMin F
    swap
    · refine ⟨m, v, p, left, items, right, ?_, h, rfl, rfl, .refl v, rfl⟩
      rw [OrderedMap.borrowUntil, run_bind h.leaf_get, Leaf.count, length_map, if_neg hlow]
    rcases h.leafBorrow hlow with
      ⟨m₁, v₁, p₁, left₁, items₁, right₁, hrun, hsite, hid, hseps, hlen, hitems, hepoch⟩ | ⟨m₁, hrun, hsite, hepoch⟩
    · obtain ⟨m', v', p', left', items', right', hloop, hsite', hid', hseps', hitems', hepoch'⟩ :=
        ih hsite (by omega)
      refine ⟨m', v', p', left', items', right', ?_, hsite', hid'.trans hid, hseps'.trans hseps,
        hitems.trans hitems', hepoch'.trans hepoch⟩
      rw [OrderedMap.borrowUntil, run_bind h.leaf_get, Leaf.count, length_map, if_pos hlow, run_bind hrun, ← hid]
      exact hloop
    · refine ⟨m₁, v, p, left, items, right, ?_, hsite, rfl, rfl, .refl v, hepoch⟩
      rw [OrderedMap.borrowUntil, run_bind h.leaf_get, Leaf.count, length_map, if_pos hlow, run_bind hrun]
      rfl

end

/-- Merging two neighbours over their fence. -/
theorem Border.merge (hb : Border v l r p up c root s left items bs right) (h : Shape m v root)
    (hfit : items.length + bs.length ≤ F) :
    ∃ leaves' internals' heap', m.leaves.set s.a ⟨(right.map Prod.fst).head?, items.map Prod.fst ++ bs.map Prod.fst⟩ =
        some leaves' ∧
      m.internals.set p.id s.joined.internal = some internals' ∧ freeMeta m.heap s.fence.1.side = some heap' ∧
      Shape ({ m with heap := heap', leaves := leaves'.release s.b, internals := internals' } : OrderedMap S F)
        ⟨left ++ (s.a, items ++ bs) :: right, s.fencesL ++ s.fencesR, (l ++ s.joined :: r) :: up⟩ root := by
  have hleaves := h.leaves
  rw [hb.leaves, chainNodes_pair] at hleaves
  obtain ⟨leaves', hset, hleaves'⟩ := (hleaves.perm (perm_middle.trans (List.Perm.cons _ perm_middle))).set
    ⟨(right.map Prod.fst).head?, items.map Prod.fst ++ bs.map Prod.fst⟩
  have hown := h.internals
  rw [hb.levels] at hown
  obtain ⟨internals', hset', hown'⟩ := (hown.perm (storedNodes_parent l r p up)).set s.joined.internal
  have hitems : View.items ⟨left ++ (s.a, items ++ bs) :: right, s.fencesL ++ s.fencesR, (l ++ s.joined :: r) :: up⟩ =
      v.items := by
    rw [hb.items_eq]
    simp [View.items]
  obtain ⟨heap', hfree, hheld⟩ : ∃ heap', freeMeta m.heap s.fence.1.side = some heap' ∧
      Holds heap' (v.items ++ (s.fencesL ++ s.fencesR)) := by
    refine freeMeta_spec (h.heap.perm ?_)
    rw [hb.fences]
    classical
    refine perm_iff_count.mpr fun z => ?_
    simp only [count_append, count_cons]
    omega
  have hid : s.id = p.id := by rw [← hb.parent]; rfl
  refine ⟨leaves', internals', heap', hset, hset', hfree, h.rooted, ?_, ?_, ?_, ?_, hb.joined, ?_, ?_, ?_⟩
  · have hheight := h.height
    rw [hb.levels] at hheight
    simpa using hheight
  · rw [chainNodes_focus, map_append]
    exact (hleaves'.perm (List.Perm.swap _ _ _)).release.perm perm_middle.symm
  · rw [← hid] at hown'
    exact hown'.perm (storedNodes_parent l r s.joined up).symm
  · rw [hitems]
    exact hheld
  · rw [View.marks_focus _ hb.left_length]
    exact hb.order h
  · exact forall_mem_splice [_, _] [_] (hb.leaves ▸ h.fits) (by simpa using hfit)
  · rw [hitems]
    exact h.len

/-- Trying the right sibling: it fits, or the leaf still holds something. -/
private theorem Site.fitRight (h : Site m v root l r up c id p left items right) :
    (∃ s bs right', Border v l r p up c root s left items bs right' ∧ items.length + bs.length ≤ F ∧
      right = (s.b, bs) :: right' ∧
      fittingCandidate F m.leaves items.length id (rightCandidate p.internal c id) = some (some (s.a, s.b, c))) ∨
    fittingCandidate F m.leaves items.length id (rightCandidate p.internal c id) = some none ∧
      (c < p.seps.length → items ≠ []) := by
  by_cases hc : c < p.seps.length
  swap
  · exact .inr ⟨by rw [rightCandidate, INode.internal_count, if_neg hc, fittingCandidate], fun h => absurd h hc⟩
  obtain ⟨s, bs, right', hb, rfl, rfl⟩ := h.right_border hc
  have hcand : rightCandidate p.internal c s.a = [(s.a, s.b, c)] := by
    have hsib : p.internal.children[c + 1]? = some s.b := by rw [← hb.parent]; exact Siblings.parent_right hb.cl
    rw [rightCandidate, INode.internal_count, if_pos hc, hsib]
    rfl
  have hbs := h.fits (s.b, bs) (by rw [h.chain]; simp)
  rw [hcand, fittingCandidate, if_pos rfl, run_bind (hb.right_get h.toShape), Leaf.count, length_map]
  by_cases hfit : items.length + bs.length ≤ F
  · exact .inl ⟨s, bs, right', hb, hfit, rfl, if_pos hfit⟩
  · refine .inr ⟨by rw [if_neg hfit, fittingCandidate], fun _ he => ?_⟩
    subst he
    rw [length_nil, zero_add] at hfit
    exact hfit hbs

/-- The sibling a leaf merges with, if one fits; a leaf that ran empty always finds one. -/
private theorem Site.fit (h : Site m v root l r up c id p left items right) (hp : 1 ≤ p.seps.length) :
    (∃ k s left' as bs right', Border v l r p up k root s left' as bs right' ∧ as.length + bs.length ≤ F ∧
      as ++ bs ≠ [] ∧ (∀ leaf ∈ left' ++ right', leaf.2 ≠ []) ∧
      fittingCandidate F m.leaves items.length id (leftCandidate p.internal c id ++ rightCandidate p.internal c id) =
        some (some (s.a, s.b, k))) ∨
    fittingCandidate F m.leaves items.length id (leftCandidate p.internal c id ++ rightCandidate p.internal c id) =
      some none ∧ items ≠ [] := by
  have hright : (∃ s bs right', Border v l r p up c root s left items bs right' ∧ items.length + bs.length ≤ F ∧
      items ++ bs ≠ [] ∧ (∀ leaf ∈ left ++ right', leaf.2 ≠ []) ∧
      fittingCandidate F m.leaves items.length id (rightCandidate p.internal c id) = some (some (s.a, s.b, c))) ∨
      fittingCandidate F m.leaves items.length id (rightCandidate p.internal c id) = some none ∧
        (c < p.seps.length → items ≠ []) := by
    rcases h.fitRight with ⟨s, bs, right', hb, hfit, rfl, hrun⟩ | hnone
    · have hbs : bs ≠ [] := h.others (s.b, bs) (by simp)
      refine .inl ⟨s, bs, right', hb, hfit, by simp [hbs], fun leaf hleaf => h.others leaf ?_, hrun⟩
      rcases mem_append.mp hleaf with hleaf | hleaf <;> simp [hleaf]
    · exact .inr hnone
  rcases Nat.eq_zero_or_pos c with rfl | h0
  · have hcand : leftCandidate p.internal 0 id = [] := rfl
    rw [hcand, nil_append]
    rcases hright with ⟨s, bs, right', hb, hfit, hne, hothers, hrun⟩ | ⟨hrun, hne⟩
    · exact .inl ⟨0, s, left, items, bs, right', hb, hfit, hne, hothers, hrun⟩
    · exact .inr ⟨hrun, hne hp⟩
  obtain ⟨s, left', as, hb, rfl, rfl⟩ := h.left_border h0
  have hcand : leftCandidate p.internal c s.b = [(s.a, s.b, c - 1)] := by
    have hsib : p.internal.children[c - 1]? = some s.a := by rw [← hb.parent]; exact Siblings.parent_left hb.cl
    rw [leftCandidate, if_pos h0, hsib]
    rfl
  have has : as.length ≤ F := h.fits (s.a, as) (by rw [h.chain]; simp)
  rw [hcand, singleton_append, fittingCandidate, if_neg (hb.ne h.toShape), run_bind (hb.left_get h.toShape),
    Leaf.count, length_map]
  by_cases hfit : items.length + as.length ≤ F
  · have hane : as ≠ [] := h.others (s.a, as) (by simp)
    refine .inl ⟨c - 1, s, left', as, items, right, hb, by omega, by simp [hane], fun leaf hleaf => h.others leaf ?_,
      if_pos hfit⟩
    rcases mem_append.mp hleaf with hleaf | hleaf <;> simp [hleaf]
  · rw [if_neg hfit]
    rcases hright with ⟨s', bs, right', hb', hfit', hne, hothers, hrun⟩ | ⟨hrun, -⟩
    · exact .inl ⟨c, s', _, items, bs, right', hb', hfit', hne, hothers, hrun⟩
    · refine .inr ⟨hrun, fun he => ?_⟩
      subst he
      rw [length_nil, zero_add] at hfit
      exact hfit has

/-- A merge over one fence, or a leaf left underfull but not empty. -/
theorem Site.leafMerge (h : Site m v root l r up c id p left items right) (hp : 1 ≤ p.seps.length) :
    (∃ m' v' p', m.leafMerge p.id c id = some (true, m') ∧ Shape m' v' root ∧
      v'.levels = (l ++ p' :: r) :: up ∧ p'.id = p.id ∧ p'.seps.length + 1 = p.seps.length ∧ Kept v v' ∧
      (∀ leaf ∈ v'.leaves, leaf.2 ≠ []) ∧ m'.epoch = m.epoch) ∨
    m.leafMerge p.id c id = some (false, m) ∧ items ≠ [] := by
  have hgp : m.internals.get p.id = some p.internal := h.stored p (by rw [h.tower]; simp)
  rcases h.fit hp with ⟨k, s, left', as, bs, right', hb, hfit, hne, hothers, hpick⟩ | ⟨hpick, hne⟩
  · obtain ⟨leaves', internals', heap', hset, hset', hfree, hshape⟩ := hb.merge h.toShape hfit
    refine .inl ⟨_, _, s.joined, ?_, hshape, rfl, ?_, ?_, ?_, ?_, rfl⟩
    · have hold : p.internal.seps[k]? = some s.fence.1 := by rw [← hb.parent]; exact Siblings.parent_seps_get hb.sl
      have hdrop : p.internal.dropSep k = some s.joined.internal := by
        rw [← hb.parent]
        exact Siblings.parent_dropSep hb.sl hb.cl
      have hfit' : (as.map Prod.fst).length + (bs.map Prod.fst).length ≤ F := by simpa using hfit
      rw [OrderedMap.leafMerge, run_bind hgp, run_bind h.leaf_get, Leaf.count, length_map, run_bind hpick]
      dsimp only
      rw [if_neg (hb.ne h.toShape), run_bind (hb.left_get h.toShape), run_bind (hb.right_get h.toShape), Leaf.count,
        Leaf.count, if_pos hfit', run_bind hset, run_bind hold, run_bind hdrop, run_bind hset', run_bind hfree]
    · rw [← hb.parent]
      rfl
    · rw [s.joined_seps_length, hb.parent]
    · refine ⟨?_, fun f hf => .inl ?_⟩
      · rw [hb.items_eq]
        simp [View.items]
      · rw [hb.fences]
        rcases mem_append.mp hf with hf | hf
        · exact mem_append_left _ hf
        · exact mem_append_right _ (mem_cons_of_mem _ hf)
    · exact forall_mem_splice [] [_] hothers (forall_mem_singleton.mpr hne)
  · refine .inr ⟨?_, hne⟩
    rw [OrderedMap.leafMerge, run_bind hgp, run_bind h.leaf_get, Leaf.count, length_map, run_bind hpick]

end Site

/-- Every leaf filled and every node in range again: the walk upward after a merge. -/
private theorem Shape.rebalanceInternals (h : Shape m v root) (hF : 8 ≤ F) {l r : Level S} {p : INode S}
    {up : List (Level S)} {path : Path} {c : Nat} (hlev : v.levels = (l ++ p :: r) :: up)
    (hpath : PathAt up path l.length) (hocc : ∀ x ∈ l ++ r, x.InRange F)
    (hlo : up ≠ [] → sepMin F ≤ p.seps.length + 1) (hhi : p.seps.length ≤ sepMax F) (hup : Occupied F 1 up)
    (hfilled : ∀ leaf ∈ v.leaves, leaf.2 ≠ []) :
    ∃ m' levels' root', m.rebalanceInternals ((p.id, c) :: path) = some m' ∧
      Rep m' ⟨v.leaves, v.fences, levels'⟩ root' ∧ m'.epoch = m.epoch := by
  have hindex := h.index
  have hown : Owned m.internals (storedNodes v.levels ++ []) := by
    rw [append_nil]
    exact h.internals
  have hheight := h.height
  rw [hlev] at hindex hown hheight
  rw [length_cons] at hheight
  obtain ⟨levels', root', internals', hrun, hown', hindex', hocc'⟩ :=
    rebalanceInternals_spec hF (c := c) hindex hown h.rooted (by omega) hpath hocc hlo hhi hup
  rw [append_nil] at hown'
  refine ⟨_, levels', root', hrun, ⟨⟨rfl, ?_, h.leaves, hown', h.heap, hindex', h.order, h.fits, h.len⟩, hfilled,
    hocc'⟩, rfl⟩
  change levels'.length = m.height - (up.length + 1) + levels'.length
  omega

/-- Rebalancing keeps the chain of items; the last one gone, the map is empty. -/
theorem Shape.rebalanceLeaf (h : Shape m v root) (hF : 8 ≤ F) {id : Nat}
    {items : List (Item S)} {path : Path} (hchain : v.leaves = left ++ (id, items) :: right)
    (hpath : PathAt v.levels path left.length) (hothers : ∀ leaf ∈ left ++ right, leaf.2 ≠ [])
    (hocc : Occupied F 1 v.levels) : (∃ m' v' root', m.rebalanceLeaf id path = some m' ∧ Rep m' v' root' ∧ Kept v v' ∧
      m'.epoch = m.epoch) ∨
    ∃ m', m.rebalanceLeaf id path = some m' ∧ Vacant m' ∧ v.items = [] ∧ m'.epoch = m.epoch := by
  have hmin : leafMin F = F / 2 := rfl
  have hsmin : sepMin F = (F - 1) / 2 := rfl
  have hfilled (hne : items ≠ []) := chain_filled hchain hothers hne
  have hget : m.leaves.get id = some ⟨(right.map Prod.fst).head?, items.map Prod.fst⟩ := by
    have hown := h.leaves
    rw [hchain, chainNodes_focus] at hown
    exact hown.get (x := (id, _)) (by simp)
  cases hlev : v.levels with
  | nil =>
    rw [hlev] at hpath
    obtain ⟨rfl, hzero⟩ := hpath.nil_inv
    obtain rfl : left = [] := length_eq_zero_iff.mp hzero
    have hindex := h.index
    rw [hlev, hchain] at hindex
    obtain ⟨hids, hfences⟩ := hindex
    obtain ⟨rfl, rfl⟩ : id = root ∧ right = [] := by simpa using hids
    have hitems : v.items = items := by simp [View.items, hchain]
    by_cases hempty : items = []
    · subst hempty
      refine .inr ⟨{ m with leaves := m.leaves.release id, root := none }, ?_, ⟨rfl, ?_, ?_, ?_, ?_, ?_⟩, hitems, rfl⟩
      · rw [OrderedMap.rebalanceLeaf, run_bind hget]
        rfl
      · rw [← h.height, hlev]
        rfl
      · have hown := h.leaves
        rw [hchain, chainNodes_focus] at hown
        exact hown.release
      · have hown := h.internals
        rw [hlev] at hown
        exact hown
      · have hheap := h.heap
        rw [hitems, hfences] at hheap
        exact hheap
      · rw [show m.len = v.items.length from h.len, hitems]
        rfl
    · refine .inl ⟨m, v, id, ?_, ⟨h, hfilled hempty, hocc⟩, .refl v, rfl⟩
      have hcount : ¬ Leaf.count (S := S) ⟨([] : List Nat).head?, items.map Prod.fst⟩ = 0 := by
        simpa [Leaf.count] using hempty
      rw [OrderedMap.rebalanceLeaf, run_bind hget]
      exact if_neg hcount
  | cons level up =>
    have hpath' := hpath
    rw [hlev] at hpath'
    obtain ⟨l, p, r, c, path', rfl, rfl, hc, hpos, habove⟩ := hpath'.cons_inv
    rw [hlev] at hocc
    have hindex := h.index
    rw [hlev] at hindex
    have hp := hocc.1 p (by simp)
    have hp1 : 1 ≤ p.seps.length := hocc.one_le hF (by simp)
    have hsite : Site m v root l r up c id p left items right := ⟨h, hchain, hlev, hpos, hc, hothers⟩
    by_cases henough : leafMin F ≤ items.length
    · refine .inl ⟨m, v, root, ?_, ⟨h, hfilled ?_, hlev ▸ hocc⟩, .refl v, rfl⟩
      · rw [OrderedMap.rebalanceLeaf, run_bind hget]
        dsimp only
        rw [Leaf.count, length_map, if_pos henough]
      · rintro rfl
        simp at henough
        omega
    obtain ⟨m₁, v₁, p₁, left₁, items₁, right₁, hloop, hsite₁, hid₁, hseps₁, hitems₁, hepoch₁⟩ :=
      hsite.borrowUntil (leafMin F) (by omega)
    have hocc₁ : Occupied F 1 v₁.levels := by
      rw [hsite₁.tower]
      exact hocc.swap hseps₁
    have hstart {out : Option (OrderedMap S F)} (hrest : (do
        let leaf ← m₁.leaves.get id
        if leafMin F ≤ leaf.count then some m₁
        else
          let res ← m₁.leafMerge p.id c id
          if res.1 then res.2.rebalanceInternals ((p.id, c) :: path')
          else some { res.2 with rebalanceDeferred := res.2.rebalanceDeferred + 1 }) = out) :
        m.rebalanceLeaf id ((p.id, c) :: path') = out := by
      rw [OrderedMap.rebalanceLeaf, run_bind hget]
      dsimp only
      rw [Leaf.count, length_map, if_neg henough, run_bind hloop]
      exact hrest
    by_cases henough₁ : leafMin F ≤ items₁.length
    · refine .inl ⟨m₁, v₁, root, hstart ?_, ⟨hsite₁.toShape, chain_filled hsite₁.chain hsite₁.others ?_, hocc₁⟩,
        hitems₁, hepoch₁⟩
      · rw [run_bind hsite₁.leaf_get, Leaf.count, length_map, if_pos henough₁]
      · rintro rfl
        simp at henough₁
        omega
    rcases hsite₁.leafMerge (hseps₁ ▸ hp1) with
      ⟨m₂, v₂, p₂, hmerge, hshape₂, hlev₂, hid₂, hseps₂, hitems₂, hfilled₂, hepoch₂⟩ | ⟨hmerge, hne⟩
    · have hlo : up ≠ [] → sepMin F ≤ p₂.seps.length + 1 := by
        intro hne
        have hpmin := hp.1
        rw [if_neg (by simpa using hne)] at hpmin
        omega
      obtain ⟨m₃, levels', root', hrun, hrep, hepoch₃⟩ := hshape₂.rebalanceInternals hF (c := c) hlev₂ habove
        (hocc.neighbour hindex) hlo (by omega) hocc.2 hfilled₂
      refine .inl ⟨m₃, _, root', hstart ?_, hrep, hitems₁.trans ⟨hitems₂.items, hitems₂.fences⟩,
        hepoch₃.trans (hepoch₂.trans hepoch₁)⟩
      rw [hid₁] at hmerge
      rw [run_bind hsite₁.leaf_get, Leaf.count, length_map, if_neg henough₁, run_bind hmerge]
      dsimp only
      rw [if_pos rfl, ← hid₁, ← hid₂, hrun]
    · refine .inl ⟨{ m₁ with rebalanceDeferred := m₁.rebalanceDeferred + 1 }, v₁, root, hstart ?_,
        ⟨?_, chain_filled hsite₁.chain hsite₁.others hne, hocc₁⟩, hitems₁, hepoch₁⟩
      · rw [hid₁] at hmerge
        rw [run_bind hsite₁.leaf_get, Leaf.count, length_map, if_neg henough₁, run_bind hmerge]
        rfl
      · exact { hsite₁.toShape with }

section Erase
variable {id : Nat} {a b fl fr : List (Item S)} {y : Item S} (hf : Focus v left id (a ++ y :: b) right fl fr)
include hf

theorem Focus.items_perm : v.items.Perm (y :: View.items ⟨left ++ (id, a ++ b) :: right, v.fences, v.levels⟩) := by
  rw [hf.items_eq]
  classical
  refine perm_iff_count.mpr fun x => ?_
  simp only [View.items, flatMap_append, flatMap_cons, count_append, count_cons]
  omega

/-- Taking one item out of its leaf and its suffix out of the heap. -/
theorem Rep.erase (h : Rep m v root) :
    ∃ leaves' heap', m.leaves.set id ⟨(right.map Prod.fst).head?, (a ++ b).map Prod.fst⟩ = some leaves' ∧
      freeMeta m.heap y.1.side = some heap' ∧
      Shape ({ m with leaves := leaves', heap := heap', len := m.len - 1, epoch := m.epoch + 1 } : OrderedMap S F)
        ⟨left ++ (id, a ++ b) :: right, v.fences, v.levels⟩ root := by
  have hown := h.leaves
  rw [hf.leaves, chainNodes_focus] at hown
  obtain ⟨leaves', hset, hown'⟩ := (hown.perm perm_middle).set ⟨(right.map Prod.fst).head?, (a ++ b).map Prod.fst⟩
  have hitems := hf.items_perm
  obtain ⟨heap', hfree, hheld⟩ := freeMeta_spec (h.heap.perm (hitems.append_right _))
  refine ⟨leaves', heap', hset, hfree, h.rooted, h.height, ?_, h.internals, hheld, ?_, ?_, ?_, ?_⟩
  · rw [chainNodes_focus]
    exact hown'.perm perm_middle.symm
  · have hindex := h.index
    rw [hf.leaves] at hindex
    simpa using hindex
  · have hord := h.order
    rw [hf.marks] at hord
    rw [hf.fences, View.marks_focus _ hf.left_length]
    refine hord.sublist (List.Sublist.append_right (List.Sublist.append_left (List.Sublist.map _ ?_) _) _)
    exact List.Sublist.append_left (sublist_cons_self _ _) _
  · have hfit := h.fits (id, a ++ y :: b) (by rw [hf.leaves]; simp)
    simp only [length_append, length_cons] at hfit
    exact forall_mem_splice [_] [_] (hf.leaves ▸ h.fits) (by simp; omega)
  · have hlen := hitems.length_eq
    rw [length_cons] at hlen
    change m.len - 1 = _
    rw [h.len, hlen, Nat.add_sub_cancel]

end Erase

/-- A view with one pair less. Its fences are fences it had or copies of pairs it held. -/
structure Removed (v : View S) (p : Pair) (v' : View S) : Prop where
  item : ∃ item, item.2 = p ∧ v.items.Perm (item :: v'.items)
  fences : ∀ f ∈ v'.fences, f ∈ v.fences ∨ f.2 ∈ v.pairs

theorem Removed.pairs_perm {p : Pair} {v' : View S} (h : Removed v p v') : v.pairs.Perm (p :: v'.pairs) := by
  obtain ⟨item, rfl, hperm⟩ := h.item
  exact hperm.map Prod.snd

theorem Rep.remove_spec (h : Rep m v root) (hF : 8 ≤ F) (hheight : m.height < maxHeight) {key : Bytes}
    (hk : S.Admits key) (r : UInt64) : (⟨key, r⟩ ∉ v.pairs ∧ m.remove key r = some (false, m)) ∨ ⟨key, r⟩ ∈ v.pairs ∧
      ((∃ m' v' root', m.remove key r = some (true, m') ∧ Removed v ⟨key, r⟩ v' ∧
        m'.epoch = m.epoch + 1 ∧ Rep m' v' root') ∨
      ∃ m', m.remove key r = some (true, m') ∧ v.pairs = [⟨key, r⟩] ∧ m'.epoch = m.epoch + 1 ∧ Vacant m') := by
  obtain ⟨left, id, items, right, fl, fr, path, hf, hdesc, hpath, hat⟩ := h.locate hk r
  obtain ⟨a, b, rfl, hlb, ha, hb, hexact⟩ := h.search hf hk r hat (right.map Prod.fst).head?
  have hdesc' : m.descend (.ofKey key) r = some (id, path) := by rw [descend, if_pos hheight, hdesc]
  have hroot : ¬ m.root = none := by simp [h.rooted]
  by_cases hmem : (⟨key, r⟩ : Pair) ∈ v.pairs
  swap
  · refine .inl ⟨hmem, ?_⟩
    rw [decide_eq_false hmem] at hexact
    rw [OrderedMap.remove, if_neg hroot, run_bind (makeProbe_admits hk), run_bind hdesc']
    dsimp only
    rw [run_bind (h.leaf_get hf), run_bind hlb, run_bind hexact]
    rfl
  refine .inr ⟨hmem, ?_⟩
  obtain ⟨y, b, rfl, hy⟩ := (h.mem_pairs_iff hf hat ha hb).mp hmem
  obtain ⟨leaves', heap', hset, hfree, hshape⟩ := Rep.erase hf h
  have hperm := hf.items_perm
  have hstart {m' : OrderedMap S F} (hrest : OrderedMap.rebalanceLeaf
      ({ m with leaves := leaves', heap := heap', len := m.len - 1, epoch := m.epoch + 1 } : OrderedMap S F) id path =
        some m') : m.remove key r = some (true, m') := by
    have hslot : ((a ++ y :: b).map Prod.fst)[a.length]? = some y.1 := by simp
    have herase : Leaf.erase ⟨(right.map Prod.fst).head?, (a ++ y :: b).map Prod.fst⟩ a.length =
        some ⟨(right.map Prod.fst).head?, (a ++ b).map Prod.fst⟩ := by
      have hdrop : (a.map Prod.fst ++ y.1 :: b.map Prod.fst).drop (a.length + 1) = b.map Prod.fst := by
        rw [← length_map Prod.fst, drop_length_add_append]
        rfl
      simp [Leaf.erase, Leaf.count, hdrop]
    rw [decide_eq_true hmem] at hexact
    rw [OrderedMap.remove, if_neg hroot, run_bind (makeProbe_admits hk), run_bind hdesc']
    dsimp only
    rw [run_bind (h.leaf_get hf), run_bind hlb, run_bind hexact, if_pos rfl, run_bind hslot, run_bind herase,
      run_bind hset, run_bind hfree, run_bind hrest]
  have hothers : ∀ leaf ∈ left ++ right, leaf.2 ≠ [] := by
    intro leaf hleaf
    refine h.filled leaf ?_
    rw [hf.leaves]
    rcases mem_append.mp hleaf with hleaf | hleaf <;> simp [hleaf]
  rcases hshape.rebalanceLeaf hF rfl hpath hothers h.occupied with
    ⟨m', v', root', hrun, hrep, hkept, hepoch⟩ | ⟨m', hrun, hvac, hitems, hepoch⟩
  · refine .inl ⟨m', v', root', hstart hrun, ⟨⟨y, hy, ?_⟩, fun f hf => ?_⟩, hepoch, hrep⟩
    · rw [hkept.items]
      exact hperm
    · refine (hkept.fences f hf).imp_right fun hmem => ?_
      exact (hperm.map Prod.snd).mem_iff.mpr (mem_cons_of_mem _ hmem)
  · refine .inr ⟨m', hstart hrun, ?_, hepoch, hvac⟩
    rw [hitems] at hperm
    rw [View.pairs, perm_singleton.mp hperm, map_singleton, hy]

end InfinityDB

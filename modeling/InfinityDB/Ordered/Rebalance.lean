import InfinityDB.Ordered.Cascade

/-!
# Internal rebalancing

Rotating a separator between two siblings or merging them regroups one list of fences: the
sequence below is untouched, and the parent above replaces or drops the separator between them.
-/

namespace InfinityDB

open Lib List OrderedMap

variable {S : KeyScheme} {F : Nat}

/-- A level opened at two adjacent children `a`, `b` of one node and the separator between them. -/
structure Siblings (S : KeyScheme) where
  before : Level S
  after : Level S
  upBefore : List (Item S)
  upAfter : List (Item S)
  id : Nat
  sl : List (Item S)
  fence : Item S
  sr : List (Item S)
  cl : List Nat
  a : Nat
  b : Nat
  cr : List Nat

namespace Siblings

/-- The parent with another separator between the two. -/
def refenced (s : Siblings S) (x : Item S) : INode S := ⟨s.id, s.sl ++ x :: s.sr, s.cl ++ s.a :: s.b :: s.cr⟩

def parent (s : Siblings S) : INode S := s.refenced s.fence

def joined (s : Siblings S) : INode S := ⟨s.id, s.sl ++ s.sr, s.cl ++ s.a :: s.cr⟩

def idsL (s : Siblings S) : List Nat := s.before.flatMap INode.children ++ s.cl
def idsR (s : Siblings S) : List Nat := s.cr ++ s.after.flatMap INode.children
def fencesL (s : Siblings S) : List (Item S) := weaveL (s.before.map INode.seps) s.upBefore ++ s.sl
def fencesR (s : Siblings S) : List (Item S) := s.sr ++ weaveR s.upAfter (s.after.map INode.seps)

end Siblings

variable {up : List (Level S)} {ids : List Nat} {fences : List (Item S)}

/-- Everything a parent knows about two adjacent children. -/
theorem Indexes.siblings {l r : Level S} {p : INode S} {tops : List Nat} {topFences : List (Item S)} {k : Nat}
    (h : Indexes ((l ++ p :: r) :: up) ids fences tops topFences) (hk : k < p.seps.length) :
    ∃ s : Siblings S, s.before = l ∧ s.after = r ∧ s.parent = p ∧ s.sl.length = k ∧ s.cl.length = k ∧
      ids = s.idsL ++ s.a :: s.b :: s.idsR ∧ fences = s.fencesL ++ s.fence :: s.fencesR ∧
      s.idsL.length = s.fencesL.length ∧
      (∀ x, Indexes ((l ++ s.refenced x :: r) :: up) ids (s.fencesL ++ x :: s.fencesR) tops topFences) ∧
      Indexes ((l ++ s.joined :: r) :: up) (s.idsL ++ s.a :: s.idsR) (s.fencesL ++ s.fencesR) tops topFences := by
  obtain ⟨upper, hlen, hc, rfl, rfl, hup⟩ := h
  obtain ⟨ul, ur, rfl, hul, hur, hopen, hpos⟩ := level_open hlen hc rfl
  have hp := hc p (by simp)
  obtain ⟨id, seps, children⟩ := p
  simp only at hk hp
  obtain ⟨cl, a, b, cr, rfl, hcl⟩ : ∃ cl a b cr, children = cl ++ a :: b :: cr ∧ cl.length = k := by
    refine ⟨children.take k, children[k], children[k+1], children.drop (k+2), ?_, by rw [length_take]; omega⟩
    rw [getElem_cons_drop, getElem_cons_drop, take_append_drop]
  obtain ⟨sl, d, sr, rfl, hsl⟩ : ∃ sl d sr, seps = sl ++ d :: sr ∧ sl.length = k :=
    ⟨seps.take k, seps[k], seps.drop (k+1), by rw [getElem_cons_drop, take_append_drop], by rw [length_take]; omega⟩
  have hothers : ∀ n ∈ l ++ r, n.children.length = n.seps.length + 1 := fun n hn =>
    hc n (by rcases mem_append.mp hn with hn | hn <;> simp [hn])
  have hnew (q : INode S) (hq : q.children.length = q.seps.length + 1) :
      ∀ n ∈ l ++ q :: r, n.children.length = n.seps.length + 1 := by
    intro n hn
    rcases mem_append.mp hn with hn | hn
    · exact hothers n (by simp [hn])
    · rcases mem_cons.mp hn with rfl | hn
      · exact hq
      · exact hothers n (by simp [hn])
  have hsame (q : INode S) : (l ++ q :: r).length = (ul ++ ur).length + 1 := by
    simp only [length_append, length_cons]
    omega
  have hids (q : INode S) (hq : q.id = id) : Indexes up ((l ++ q :: r).map INode.id) (ul ++ ur) tops topFences := by
    simpa [hq] using hup
  have hweave (q : INode S) : weave ((l ++ q :: r).map INode.seps) (ul ++ ur) =
      weaveL (l.map INode.seps) ul ++ q.seps ++ weaveR ur (r.map INode.seps) := by
    rw [map_append, map_cons]
    exact weave_split _ _ _ (by simpa using hul)
  refine ⟨⟨l, r, ul, ur, id, sl, d, sr, cl, a, b, cr⟩, rfl, rfl, rfl, hsl, hcl, ?_, ?_, ?_, fun x => ?_, ?_⟩
  · simp [Siblings.idsL, Siblings.idsR]
  · rw [hopen]
    simp [Siblings.fencesL, Siblings.fencesR]
  · simp only [Siblings.idsL, Siblings.fencesL, length_append, hpos, hsl, hcl]
  · refine ⟨ul ++ ur, hsame _, hnew _ ?_, ?_, ?_, hids _ rfl⟩
    · simpa [Siblings.refenced] using hp
    · simp [Siblings.refenced]
    · rw [hweave]
      simp [Siblings.refenced, Siblings.fencesL, Siblings.fencesR]
  · refine ⟨ul ++ ur, hsame _, hnew _ ?_, ?_, ?_, hids _ rfl⟩
    · simp only [Siblings.joined, length_append, length_cons] at hp ⊢
      omega
    · simp [Siblings.joined, Siblings.idsL, Siblings.idsR]
    · rw [hweave]
      simp [Siblings.joined, Siblings.fencesL, Siblings.fencesR]

section Regroup
variable {left right : Level S} {x y : INode S} {fl fr : List (Item S)} {d : Item S} {up : List (Level S)}
  {tops : List Nat} {topFences : List (Item S)}

/-- A level opened at two adjacent nodes. -/
private theorem weave_pair (hlen : left.length = fl.length) :
    weave ((left ++ x :: y :: right).map INode.seps) (fl ++ d :: fr) =
      weaveL (left.map INode.seps) fl ++ (x.seps ++ d :: y.seps) ++ weaveR fr (right.map INode.seps) := by
  rw [map_append, map_cons, map_cons, weave_split _ _ _ (by simpa using hlen), weaveR_cons]
  simp

/-- Two neighbours share out the same separators and children another way. -/
structure Rotated (x y : INode S) (d : Item S) (x' y' : INode S) (e : Item S) : Prop where
  left_id : x'.id = x.id
  right_id : y'.id = y.id
  left_length : x'.children.length = x'.seps.length + 1
  right_length : y'.children.length = y'.seps.length + 1
  seps : x'.seps ++ e :: y'.seps = x.seps ++ d :: y.seps
  children : x'.children ++ y'.children = x.children ++ y.children

theorem Indexes.rotate (hc : ∀ n ∈ left ++ x :: y :: right, n.children.length = n.seps.length + 1)
    (hl : left.length = fl.length) (hr : right.length = fr.length) {x' y' : INode S} {e : Item S}
    (h : Rotated x y d x' y' e)
    (hup : Indexes up ((left ++ x :: y :: right).map INode.id) (fl ++ e :: fr) tops topFences) :
    Indexes ((left ++ x' :: y' :: right) :: up) ((left ++ x :: y :: right).flatMap INode.children)
      (weave ((left ++ x :: y :: right).map INode.seps) (fl ++ d :: fr)) tops topFences := by
  refine ⟨fl ++ e :: fr, ?_, ?_, ?_, ?_, ?_⟩
  · simp only [length_append, length_cons]
    omega
  · exact forall_mem_splice [x, y] [_, _] hc (by simp [h.left_length, h.right_length])
  · simp only [flatMap_append, flatMap_cons]
    rw [← append_assoc x'.children, h.children, append_assoc]
  · rw [weave_pair hl, weave_pair hl, h.seps]
  · simpa [h.left_id, h.right_id] using hup

/-- Two neighbours become one, the separator between them included. -/
theorem Indexes.merge (hc : ∀ n ∈ left ++ x :: y :: right, n.children.length = n.seps.length + 1)
    (hl : left.length = fl.length) (hr : right.length = fr.length) {z : INode S}
    (hz : z = ⟨x.id, x.seps ++ d :: y.seps, x.children ++ y.children⟩)
    (hup : Indexes up ((left ++ z :: right).map INode.id) (fl ++ fr) tops topFences) :
    Indexes ((left ++ z :: right) :: up) ((left ++ x :: y :: right).flatMap INode.children)
      (weave ((left ++ x :: y :: right).map INode.seps) (fl ++ d :: fr)) tops topFences := by
  have hx := hc x (by simp)
  have hy := hc y (by simp)
  refine ⟨fl ++ fr, ?_, ?_, ?_, ?_, hup⟩
  · simp only [length_append, length_cons]
    omega
  · exact forall_mem_splice [x, y] [z] hc (by simp [hz]; omega)
  · simp [hz]
  · rw [weave_pair hl, map_append, map_cons, weave_split _ _ _ (by simpa using hl), hz]

end Regroup

/-- Two adjacent nodes of a level under one parent, ready to be rotated or merged. -/
structure Adjacent (l r : Level S) (p : INode S) (up : List (Level S)) (ids : List Nat) (fences : List (Item S)) (tops : List Nat)
    (topFences : List (Item S)) (k : Nat) (s : Siblings S) (left : Level S) (x y : INode S) (right : Level S) : Prop where
  parent : s.parent = p
  sl : s.sl.length = k
  cl : s.cl.length = k
  left_id : x.id = s.a
  right_id : y.id = s.b
  rotated : ∀ x' y' e, Rotated x y s.fence x' y' e →
    Indexes ((left ++ x' :: y' :: right) :: (l ++ s.refenced e :: r) :: up) ids fences tops topFences
  merged : Indexes ((left ++ ⟨x.id, x.seps ++ s.fence :: y.seps, x.children ++ y.children⟩ :: right) ::
    (l ++ s.joined :: r) :: up) ids fences tops topFences

theorem Indexes.neighbours {level l r : Level S} {p : INode S} {tops : List Nat} {topFences : List (Item S)} {k : Nat}
    (h : Indexes (level :: (l ++ p :: r) :: up) ids fences tops topFences) (hk : k < p.seps.length) :
    ∃ s left x y right, level = left ++ x :: y :: right ∧ left.length = (l.flatMap INode.children).length + k ∧
      Adjacent l r p up ids fences tops topFences k s left x y right := by
  obtain ⟨upper, hlen, hc, rfl, rfl, hup⟩ := h
  obtain ⟨s, rfl, rfl, hp, hsl, hcl, hids, rfl, hlens, hre, hjoin⟩ := hup.siblings hk
  obtain ⟨left, tail, rfl, hleft, htail⟩ := map_eq_append_iff.mp hids
  obtain ⟨x, tail, rfl, hx, htail⟩ := map_eq_cons_iff.mp htail
  obtain ⟨y, right, rfl, hy, hright⟩ := map_eq_cons_iff.mp htail
  have hl : left.length = s.fencesL.length := by rw [← hlens, ← hleft, length_map]
  have hr : right.length = s.fencesR.length := by
    simp only [length_append, length_cons] at hlen
    omega
  refine ⟨s, left, x, y, right, rfl, ?_, hp, hsl, hcl, hx, hy, fun x' y' e hrot => ?_, ?_⟩
  · rw [← length_map, hleft, Siblings.idsL, length_append, hcl]
  · exact Indexes.rotate hc hl hr hrot (hre e)
  · refine Indexes.merge hc hl hr rfl ?_
    simpa [hleft, hx, hright] using hjoin

namespace Siblings
variable {s : Siblings S} {k : Nat}

theorem parent_seps_get (hsl : s.sl.length = k) : s.parent.internal.seps[k]? = some s.fence.1 := by
  simp [parent, refenced, INode.internal, ← hsl]

theorem parent_left (hcl : s.cl.length = k) : s.parent.internal.children[k]? = some s.a := by
  simp [parent, refenced, INode.internal, ← hcl]

theorem parent_right (hcl : s.cl.length = k) : s.parent.internal.children[k+1]? = some s.b := by
  simp [parent, refenced, INode.internal, ← hcl]

theorem parent_writeSep (hsl : s.sl.length = k) (e : Item S) :
    s.parent.internal.writeSep k e.1 = some (s.refenced e).internal := by
  subst hsl
  simp [Internal.writeSep, parent, refenced, INode.internal, Internal.count]

theorem parent_dropSep (hsl : s.sl.length = k) (hcl : s.cl.length = k) :
    s.parent.internal.dropSep k = some s.joined.internal := by
  subst hsl
  have hdrop : (s.cl ++ s.a :: s.b :: s.cr).drop (s.sl.length + 2) = s.cr := by
    rw [← hcl, drop_length_add_append]
    rfl
  have htake : (s.cl ++ s.a :: s.b :: s.cr).take (s.sl.length + 1) = s.cl ++ [s.a] := by
    rw [← hcl, take_length_add_append]
    rfl
  have hseps : (s.sl.map Prod.fst ++ s.fence.1 :: s.sr.map Prod.fst).drop (s.sl.length + 1) = s.sr.map Prod.fst := by
    rw [← length_map Prod.fst, drop_length_add_append]
    rfl
  simp [Internal.dropSep, parent, refenced, joined, INode.internal, Internal.count, hdrop, htake, hseps]

end Siblings

section Moves
variable {m : OrderedMap S F} {s : Siblings S} {k : Nat} {x y : INode S} {rest : List (Nat × Internal S)}

section
variable (hown : Owned m.internals (x.stored :: y.stored :: s.parent.stored :: rest))
include hown

theorem Owned.siblings : m.internals.get x.id = some x.internal ∧ m.internals.get y.id = some y.internal ∧
    m.internals.get s.id = some s.parent.internal ∧ x.id ≠ y.id :=
  ⟨hown.get (x := x.stored) (by simp), hown.get (x := y.stored) (by simp), hown.get (x := s.parent.stored) (by simp),
    hown.ne (y := y.stored) (by simp)⟩

variable (hsl : s.sl.length = k) (hcl : s.cl.length = k)
include hsl hcl

/-- Rotate right: the left node's last separator goes up, the fence comes down in front. -/
theorem internalBorrowLeft_spec (ha : x.id = s.a)
    (hx : x.children.length = x.seps.length + 1) (hy : y.children.length = y.seps.length + 1)
    (hrich : sepMin F < x.seps.length) (hroom : y.seps.length < F - 1) :
    ∃ x' y' e internals', m.internalBorrowLeft s.id (k+1) y.id = some (true, { m with internals := internals' }) ∧
      Rotated x y s.fence x' y' e ∧ x'.seps.length + 1 = x.seps.length ∧ y'.seps.length = y.seps.length + 1 ∧
      Owned internals' (x'.stored :: y'.stored :: (s.refenced e).stored :: rest) := by
  obtain ⟨xs, e, hxs⟩ : ∃ xs e, x.seps = xs ++ [e] := by
    have hne : x.seps ≠ [] := by
      rw [ne_eq, ← length_eq_zero_iff]
      omega
    exact ⟨x.seps.dropLast, x.seps.getLast hne, (dropLast_append_getLast hne).symm⟩
  obtain ⟨xc, ch, hxc⟩ : ∃ xc ch, x.children = xc ++ [ch] := by
    have hne : x.children ≠ [] := by
      rw [ne_eq, ← length_eq_zero_iff]
      omega
    exact ⟨x.children.dropLast, x.children.getLast hne, (dropLast_append_getLast hne).symm⟩
  have hxclen : xc.length = xs.length + 1 := by
    simpa [hxs, hxc] using hx
  obtain ⟨hgx, hgy, hgp, hne⟩ := hown.siblings
  rw [ha] at hgx hne
  let x' : INode S := ⟨x.id, xs, xc⟩
  let y' : INode S := ⟨y.id, s.fence :: y.seps, ch :: y.children⟩
  obtain ⟨i₁, i₂, i₃, hset₁, hset₂, hgp₂, hset₃, hown'⟩ :=
    hown.set_three x'.internal y'.internal (s.refenced e).internal
  refine ⟨x', y', e, i₃, ?_, ⟨rfl, rfl, hxclen, by simp [y', hy], by simp [x', y', hxs], by simp [x', y', hxc]⟩,
    by simp [x', hxs], by simp [y'], hown'⟩
  have hup : x.internal.seps[x.seps.length - 1]? = some e.1 := by simp [INode.internal, hxs]
  have hch : x.internal.children[x.seps.length]? = some ch := by
    simp [INode.internal, hxs, hxc, ← hxclen]
  have htake : (⟨x.internal.seps.take (x.seps.length - 1), x.internal.children.take x.seps.length⟩ : Internal S) =
      x'.internal := by
    have hxc' : (xc ++ [ch]).take (xs.length + 1) = xc := by rw [← hxclen, take_left]
    simp [INode.internal, hxs, hxc, x', hxc']
  have hset₁' : m.internals.set s.a x'.internal = some i₁ := ha ▸ hset₁
  have hset₂' : i₁.set y.id ⟨s.fence.1 :: y.internal.seps, ch :: y.internal.children⟩ = some i₂ := hset₂
  rw [internalBorrowLeft, run_bind hgp, if_neg (Nat.add_one_ne_zero k), Nat.add_sub_cancel,
    run_bind (Siblings.parent_left hcl), run_bind hgx, INode.internal_count, if_neg (not_le.mpr hrich), if_neg hne,
    run_bind (Siblings.parent_seps_get hsl), run_bind hgy, run_bind hup, run_bind hch, htake, run_bind hset₁',
    INode.internal_count, if_pos hroom, run_bind hset₂', run_bind (show i₂.get s.id = _ from hgp₂),
    run_bind (Siblings.parent_writeSep hsl e), run_bind (show i₂.set s.id _ = _ from hset₃)]

/-- Rotate left: the right node's first separator goes up, the fence comes down at the end. -/
theorem internalBorrowRight_spec (hb : y.id = s.b)
    (hx : x.children.length = x.seps.length + 1) (hy : y.children.length = y.seps.length + 1)
    (hrich : sepMin F < y.seps.length) (hroom : x.seps.length < F - 1) :
    ∃ x' y' e internals', m.internalBorrowRight s.id k x.id = some (true, { m with internals := internals' }) ∧
      Rotated x y s.fence x' y' e ∧ x'.seps.length = x.seps.length + 1 ∧ y'.seps.length + 1 = y.seps.length ∧
      Owned internals' (x'.stored :: y'.stored :: (s.refenced e).stored :: rest) := by
  obtain ⟨e, ys, hys⟩ : ∃ e ys, y.seps = e :: ys := exists_cons_of_length_pos (by omega)
  obtain ⟨ch, yc, hyc⟩ : ∃ ch yc, y.children = ch :: yc := exists_cons_of_length_pos (by omega)
  have hyclen : yc.length = ys.length + 1 := by simpa [hys, hyc] using hy
  obtain ⟨hgx, hgy, hgp, hne⟩ := hown.siblings
  rw [hb] at hgy hne
  let x' : INode S := ⟨x.id, x.seps ++ [s.fence], x.children ++ [ch]⟩
  let y' : INode S := ⟨y.id, ys, yc⟩
  obtain ⟨i₁, i₂, i₃, hset₁, hset₂, hgp₂, hset₃, hown'⟩ :=
    hown.set_three x'.internal y'.internal (s.refenced e).internal
  refine ⟨x', y', e, i₃, ?_, ⟨rfl, rfl, by simp [x', hx], hyclen, by simp [x', y', hys], by simp [x', y', hyc]⟩,
    by simp [x'], by simp [y', hys], hown'⟩
  have hup : y.internal.seps[0]? = some e.1 := by simp [INode.internal, hys]
  have hch : y.internal.children[0]? = some ch := by simp [INode.internal, hyc]
  have hset₁' : m.internals.set x.id ⟨x.internal.seps ++ [s.fence.1], x.internal.children ++ [ch]⟩ = some i₁ := by
    refine Eq.trans ?_ hset₁
    simp [x', INode.internal]
  have hset₂' : i₁.set s.b ⟨y.internal.seps.drop 1, y.internal.children.drop 1⟩ = some i₂ := by
    refine Eq.trans ?_ hset₂
    simp [y', INode.internal, hys, hyc, hb]
  have hcount : ¬ s.parent.seps.length ≤ k := by simp [Siblings.parent, Siblings.refenced, ← hsl]
  rw [internalBorrowRight, run_bind hgp, INode.internal_count, if_neg hcount, run_bind (Siblings.parent_right hcl),
    run_bind hgy, INode.internal_count, if_neg (not_le.mpr hrich), if_neg hne.symm,
    run_bind (Siblings.parent_seps_get hsl), run_bind hgx, run_bind hup, run_bind hch, INode.internal_count,
    if_pos hroom, run_bind hset₁', run_bind hset₂', run_bind (show i₂.get s.id = _ from hgp₂),
    run_bind (Siblings.parent_writeSep hsl e), run_bind (show i₂.set s.id _ = _ from hset₃)]

/-- Merge the right node into the left one, the fence between them. -/
theorem internalMerge_spec (ha : x.id = s.a) (hb : y.id = s.b)
    (hfit : x.seps.length + 1 + y.seps.length < F) {c nodeId : Nat}
    (hsel : c = k + 1 ∧ nodeId = y.id ∨ c = 0 ∧ k = 0 ∧ nodeId = x.id) :
    ∃ internals', m.internalMerge s.id c nodeId = some { m with internals := internals' } ∧
      Owned internals' (INode.stored ⟨x.id, x.seps ++ s.fence :: y.seps, x.children ++ y.children⟩ ::
        s.joined.stored :: rest) := by
  obtain ⟨hgx, hgy, hgp, hne⟩ := hown.siblings
  rw [ha] at hgx hne
  rw [hb] at hgy hne
  let z : INode S := ⟨x.id, x.seps ++ s.fence :: y.seps, x.children ++ y.children⟩
  obtain ⟨i₁, hset₁, hown₁⟩ := hown.set z.internal
  have hown₂ := (hown₁.perm (List.Perm.swap _ _ _)).release
  obtain ⟨i₃, hset₃, hown₃⟩ := (hown₂.perm (List.Perm.swap _ _ _)).set s.joined.internal
  have hgp₂ : (i₁.release y.id).get s.id = some s.parent.internal := hown₂.get (x := s.parent.stored) (by simp)
  refine ⟨i₃, ?_, hown₃.perm (List.Perm.swap _ _ _)⟩
  have hpick : mergePair s.parent.internal c nodeId = some (s.a, s.b, k) := by
    rcases hsel with ⟨rfl, rfl⟩ | ⟨rfl, rfl, rfl⟩
    · simp [mergePair, Siblings.parent_left hcl, hb]
    · simp [mergePair, Siblings.parent_right hcl, ha]
  have hz : m.internals.set s.a
      ⟨x.internal.seps ++ s.fence.1 :: y.internal.seps, x.internal.children ++ y.internal.children⟩ = some i₁ := by
    refine Eq.trans ?_ hset₁
    simp [z, INode.internal, ha]
  replace hset₃ : (i₁.release y.id).set s.id s.joined.internal = some i₃ := hset₃
  rw [internalMerge, run_bind hgp, run_bind hpick]
  dsimp only
  rw [run_bind (Siblings.parent_seps_get hsl), if_neg hne, run_bind hgx, run_bind hgy, INode.internal_count,
    INode.internal_count, if_pos hfit, run_bind hz, ← hb, run_bind hgp₂,
    run_bind (Siblings.parent_dropSep hsl hcl), run_bind hset₃]

end

end Moves

/-- Siblings and their parent in front of everything else the pool holds. -/
private theorem stored_siblings_perm (left mid right l r : Level S) (p : INode S) (up : List (Level S)) (frame : List (Nat × Internal S)) :
    (storedNodes ((left ++ (mid ++ right)) :: (l ++ p :: r) :: up) ++ frame).Perm
      (mid.map INode.stored ++ p.stored ::
      (storedNodes up ++ ((l ++ r).map INode.stored ++ ((left ++ right).map INode.stored ++ frame)))) :=
  (storedNodes_perm left mid right _ [] frame).trans ((storedNodes_perm l [p] r up [] _).append_left _)

theorem Siblings.refenced_seps_length (s : Siblings S) (e : Item S) :
    (s.refenced e).seps.length = s.parent.seps.length := by
  simp [refenced, parent]

theorem Siblings.joined_seps_length (s : Siblings S) : s.joined.seps.length + 1 = s.parent.seps.length := by
  simp only [joined, parent, refenced, length_append, length_cons]
  omega

/-- What a rebalancing move at one node leaves behind: a level with every node in range, the same
fences below, and a parent that lost `lost` separators. -/
structure Settled (F : Nat) (l r : Level S) (p : INode S) (up : List (Level S)) (ids : List Nat)
    (fences : List (Item S)) (tops : List Nat) (topFences : List (Item S)) (frame : List (Nat × Internal S))
    (lost : Nat) (internals : Pool (Internal S)) (level : Level S) (p' : INode S) : Prop where
  owned : Owned internals (storedNodes (level :: (l ++ p' :: r) :: up) ++ frame)
  index : Indexes (level :: (l ++ p' :: r) :: up) ids fences tops topFences
  inRange : ∀ x ∈ level, x.InRange F
  parent_id : p'.id = p.id
  parent_seps : p'.seps.length + lost = p.seps.length

section Node
variable {m : OrderedMap S F} {left right l r : Level S} {n p : INode S} {up : List (Level S)} {c : Nat}
  {ids : List Nat} {fences : List (Item S)} {tops : List Nat} {topFences : List (Item S)}
  {frame : List (Nat × Internal S)}
  (h : Indexes ((left ++ n :: right) :: (l ++ p :: r) :: up) ids fences tops topFences)
  (hpos : left.length = (l.flatMap INode.children).length + c)
include h hpos

/-- The left neighbour of a child that is not the first. -/
private theorem Indexes.left_neighbour (hc : c ≤ p.seps.length) (h0 : 0 < c) :
    ∃ s left' x, left = left' ++ [x] ∧ Adjacent l r p up ids fences tops topFences (c - 1) s left' x n right := by
  obtain ⟨s, left', x, y, right', hlevel, hlen, hadj⟩ := h.neighbours (show c - 1 < p.seps.length by omega)
  have hsplit : left ++ n :: right = (left' ++ [x]) ++ y :: right' := by simpa using hlevel
  obtain ⟨rfl, htail⟩ := append_inj hsplit (by simp; omega)
  obtain ⟨rfl, rfl⟩ := List.cons.inj htail
  exact ⟨s, left', x, rfl, hadj⟩

/-- The right neighbour of a child that is not the last. -/
private theorem Indexes.right_neighbour (hc : c < p.seps.length) :
    ∃ s y right', right = y :: right' ∧ Adjacent l r p up ids fences tops topFences c s left n y right' := by
  obtain ⟨s, left', x, y, right', hlevel, hlen, hadj⟩ := h.neighbours hc
  obtain ⟨rfl, htail⟩ := append_inj hlevel (by omega)
  obtain ⟨rfl, rfl⟩ := List.cons.inj htail
  exact ⟨s, y, right', rfl, hadj⟩

variable (hown : Owned m.internals (storedNodes ((left ++ n :: right) :: (l ++ p :: r) :: up) ++ frame))
  (hocc : ∀ x ∈ left ++ right, x.InRange F) (hlow : n.seps.length < sepMin F)
include hown hocc hlow

private theorem borrowLeft_at (hc : c ≤ p.seps.length) (hlo : sepMin F ≤ n.seps.length + 1) :
    (∃ internals' level p', m.internalBorrowLeft p.id c n.id = some (true, { m with internals := internals' }) ∧
      Settled F l r p up ids fences tops topFences frame 0 internals' level p') ∨
    m.internalBorrowLeft p.id c n.id = some (false, m) ∧
      ∀ left' x, left = left' ++ [x] → 0 < c → x.seps.length = sepMin F := by
  have hmax : sepMax F = F - 1 := rfl
  have hmin : sepMin F = (F - 1) / 2 := rfl
  have hkids : ∀ x ∈ left ++ n :: right, x.children.length = x.seps.length + 1 := by
    obtain ⟨-, -, hkids, -⟩ := h
    exact hkids
  have hgp : m.internals.get p.id = some p.internal := hown.stored_get p (by simp)
  rcases Nat.eq_zero_or_pos c with rfl | h0
  · exact .inr ⟨by rw [internalBorrowLeft, run_bind hgp, if_pos rfl], fun _ _ _ h => absurd h (lt_irrefl 0)⟩
  obtain ⟨s, left', x, rfl, rfl, hsl, hcl, ha, hb, hrot, -⟩ := h.left_neighbour hpos hc h0
  obtain ⟨k, rfl⟩ : ∃ k, c = k + 1 := ⟨c - 1, by omega⟩
  rw [Nat.add_sub_cancel] at hsl hcl
  have hx := hocc x (by simp)
  rw [append_assoc] at hown
  by_cases hrich : sepMin F < x.seps.length
  · obtain ⟨x', n', e, internals', hrun, hr, hxlen, hnlen, hown₁⟩ :=
      internalBorrowLeft_spec (hown.perm (stored_siblings_perm _ [_, _] ..)) hsl hcl ha (hkids x (by simp)) (hkids n (by simp))
        hrich (by omega)
    refine .inl ⟨internals', left' ++ x' :: n' :: right, s.refenced e, hrun,
      hown₁.perm (stored_siblings_perm _ [_, _] ..).symm, hrot x' n' e hr, ?_, rfl, s.refenced_seps_length e⟩
    unfold INode.InRange at hx
    refine forall_mem_splice [x] [x', n'] (by simpa using hocc) ?_
    exact forall_mem_cons.mpr ⟨⟨by omega, by omega⟩, forall_mem_singleton.mpr ⟨by omega, by omega⟩⟩
  · refine .inr ⟨?_, fun l₁ x₁ he _ => ?_⟩
    · have hgx : m.internals.get s.a = some x.internal := ha ▸ hown.stored_get x (by simp)
      rw [internalBorrowLeft, run_bind hgp, if_neg (Nat.add_one_ne_zero k), Nat.add_sub_cancel,
        run_bind (Siblings.parent_left hcl), run_bind hgx, INode.internal_count, if_pos (not_lt.mp hrich)]
    · obtain ⟨-, rfl⟩ := append_singleton_inj.mp he
      unfold INode.InRange at hx
      omega

private theorem borrowRight_at (hlo : sepMin F ≤ n.seps.length + 1) :
    (∃ internals' level p', m.internalBorrowRight p.id c n.id = some (true, { m with internals := internals' }) ∧
      Settled F l r p up ids fences tops topFences frame 0 internals' level p') ∨
    m.internalBorrowRight p.id c n.id = some (false, m) ∧
      ∀ x right', right = x :: right' → c < p.seps.length → x.seps.length = sepMin F := by
  have hmax : sepMax F = F - 1 := rfl
  have hmin : sepMin F = (F - 1) / 2 := rfl
  have hkids : ∀ x ∈ left ++ n :: right, x.children.length = x.seps.length + 1 := by
    obtain ⟨-, -, hkids, -⟩ := h
    exact hkids
  have hgp : m.internals.get p.id = some p.internal := hown.stored_get p (by simp)
  by_cases hc : c < p.seps.length
  swap
  · exact .inr ⟨by rw [internalBorrowRight, run_bind hgp, INode.internal_count, if_pos (not_lt.mp hc)],
      fun _ _ _ h => absurd h hc⟩
  obtain ⟨s, y, right', rfl, rfl, hsl, hcl, ha, hb, hrot, -⟩ := h.right_neighbour hpos hc
  have hy := hocc y (by simp)
  by_cases hrich : sepMin F < y.seps.length
  · obtain ⟨n', y', e, internals', hrun, hr, hnlen, hylen, hown₁⟩ :=
      internalBorrowRight_spec (hown.perm (stored_siblings_perm _ [_, _] ..)) hsl hcl hb (hkids n (by simp)) (hkids y (by simp))
        hrich (by omega)
    refine .inl ⟨internals', left ++ n' :: y' :: right', s.refenced e, hrun,
      hown₁.perm (stored_siblings_perm _ [_, _] ..).symm, hrot n' y' e hr, ?_, rfl, s.refenced_seps_length e⟩
    unfold INode.InRange at hy
    apply forall_mem_splice [y] [n', y'] hocc
    exact forall_mem_cons.mpr ⟨⟨by omega, by omega⟩, forall_mem_singleton.mpr ⟨by omega, by omega⟩⟩
  · refine .inr ⟨?_, fun y₁ r₁ he _ => ?_⟩
    · have hgy : m.internals.get s.b = some y.internal := hb ▸ hown.stored_get y (by simp)
      rw [internalBorrowRight, run_bind hgp, INode.internal_count, if_neg (not_le.mpr hc),
        run_bind (Siblings.parent_right hcl), run_bind hgy, INode.internal_count, if_pos (not_lt.mp hrich)]
    · obtain ⟨rfl, -⟩ := List.cons.inj he
      unfold INode.InRange at hy
      omega

theorem internalBorrow_spec (hc : c ≤ p.seps.length) (hlo : sepMin F ≤ n.seps.length + 1) :
    (∃ internals' level p', m.internalBorrow p.id c n.id = some (true, { m with internals := internals' }) ∧
      Settled F l r p up ids fences tops topFences frame 0 internals' level p') ∨
    m.internalBorrow p.id c n.id = some (false, m) ∧
      (∀ left' x, left = left' ++ [x] → 0 < c → x.seps.length = sepMin F) ∧
      ∀ x right', right = x :: right' → c < p.seps.length → x.seps.length = sepMin F := by
  rcases borrowLeft_at h hpos hown hocc hlow hc hlo with ⟨i, level, p', hrun, hset⟩ | ⟨hrun, hleft⟩
  · exact .inl ⟨i, level, p', by simp [internalBorrow, hrun], hset⟩
  · rcases borrowRight_at h hpos hown hocc hlow hlo with ⟨i, level, p', hrun', hset⟩ | ⟨hrun', hright⟩
    · exact .inl ⟨i, level, p', by simp [internalBorrow, hrun, hrun'], hset⟩
    · exact .inr ⟨by simp [internalBorrow, hrun, hrun'], hleft, hright⟩

/-- With no richer sibling a merge fits. -/
private theorem internalMerge_at (hF : 8 ≤ F) (hc : c ≤ p.seps.length) (hp : 1 ≤ p.seps.length)
    (hleft : ∀ left' x, left = left' ++ [x] → 0 < c → x.seps.length = sepMin F)
    (hright : ∀ x right', right = x :: right' → c < p.seps.length → x.seps.length = sepMin F) :
    ∃ internals' level p', m.internalMerge p.id c n.id = some { m with internals := internals' } ∧
      Settled F l r p up ids fences tops topFences frame 1 internals' level p' := by
  have hmax : sepMax F = F - 1 := rfl
  have hmin : sepMin F = (F - 1) / 2 := rfl
  rcases Nat.eq_zero_or_pos c with rfl | h0
  · obtain ⟨s, y, right', rfl, rfl, hsl, hcl, ha, hb, -, hmerge⟩ := h.right_neighbour hpos (by omega)
    have hy := hright y right' rfl (by omega)
    obtain ⟨internals', hrun, hown'⟩ := internalMerge_spec (hown.perm (stored_siblings_perm _ [_, _] ..)) hsl hcl ha hb
      (by omega) (.inr ⟨rfl, rfl, rfl⟩)
    refine ⟨internals', _, s.joined, hrun, hown'.perm (stored_siblings_perm _ [_] ..).symm, hmerge, ?_, rfl,
      s.joined_seps_length⟩
    apply forall_mem_splice [y] [_] hocc
    simp only [INode.InRange, forall_mem_singleton, length_append, length_cons]
    omega
  · obtain ⟨s, left', x, rfl, rfl, hsl, hcl, ha, hb, -, hmerge⟩ := h.left_neighbour hpos hc h0
    obtain ⟨k, rfl⟩ : ∃ k, c = k + 1 := ⟨c - 1, by omega⟩
    have hx := hleft left' x rfl h0
    rw [append_assoc] at hown
    obtain ⟨internals', hrun, hown'⟩ := internalMerge_spec (hown.perm (stored_siblings_perm _ [_, _] ..)) hsl hcl ha hb
      (by omega) (.inl ⟨rfl, rfl⟩)
    refine ⟨internals', _, s.joined, hrun, hown'.perm (stored_siblings_perm _ [_] ..).symm, hmerge, ?_, rfl,
      s.joined_seps_length⟩
    refine forall_mem_splice [x] [_] (by simpa using hocc) ?_
    simp only [INode.InRange, forall_mem_singleton, length_append, length_cons]
    omega

end Node

theorem Indexes.root_mem {levels : List (Level S)} {root : Nat}
    (h : Indexes levels ids fences [root] []) (hne : levels ≠ []) : ∃ n ∈ levels.flatten, n.id = root := by
  induction levels generalizing ids fences with
  | nil => exact absurd rfl hne
  | cons level up ih =>
    obtain ⟨upper, -, -, -, -, hup⟩ := h
    cases up with
    | nil =>
      obtain ⟨n, hn, hid⟩ := mem_map.mp (show root ∈ level.map INode.id by simp [hup.1])
      exact ⟨n, by simpa using hn, hid⟩
    | cons level' up =>
      obtain ⟨n, hn, hid⟩ := ih hup (by simp)
      exact ⟨n, by rw [flatten_cons]; exact mem_append_right _ hn, hid⟩

theorem Occupied.cons {level : Level S} {up : List (Level S)} (hF : 8 ≤ F) (hlevel : ∀ n ∈ level, n.InRange F)
    (hup : Occupied F 1 up) : Occupied F 1 (level :: up) := by
  have hmin : sepMin F = (F - 1) / 2 := rfl
  refine ⟨fun n hn => ⟨le_trans ?_ (hlevel n hn).1, (hlevel n hn).2⟩, hup⟩
  split <;> omega

/-- Leaving root and height as they are. -/
private theorem kept_eq {m : OrderedMap S F} {root drop add : Nat} (hroot : m.root = some root)
    (hheight : m.height - drop + add = m.height) :
    some m = some { m with root := some root, height := m.height - drop + add } := by
  rw [hheight, ← hroot]

/-- Walking the underflow upward regroups the levels and may take the root off; the fences and
the nodes they separate stay as they were. -/
theorem rebalanceInternals_spec (hF : 8 ≤ F) {m : OrderedMap S F} {left right : Level S} {n : INode S}
    {path : Path} {c root : Nat} {frame : List (Nat × Internal S)}
    (h : Indexes ((left ++ n :: right) :: up) ids fences [root] [])
    (hown : Owned m.internals (storedNodes ((left ++ n :: right) :: up) ++ frame))
    (hroot : m.root = some root) (hheight : up.length + 1 ≤ m.height) (hpath : PathAt up path left.length)
    (hocc : ∀ x ∈ left ++ right, x.InRange F) (hlo : up ≠ [] → sepMin F ≤ n.seps.length + 1)
    (hhi : n.seps.length ≤ sepMax F) (hup : Occupied F 1 up) :
    ∃ levels' root' internals', m.rebalanceInternals ((n.id, c) :: path) = some { m with
          internals := internals'
          root := some root'
          height := m.height - (up.length + 1) + levels'.length } ∧
      Owned internals' (storedNodes levels' ++ frame) ∧ Indexes levels' ids fences [root'] [] ∧
      Occupied F 1 levels' := by
  induction up generalizing m left n right path c ids fences frame with
  | nil =>
    have hget : m.internals.get n.id = some n.internal := hown.stored_get n (by simp)
    obtain ⟨upper, hlen, hkids, rfl, hfences, hids, rfl⟩ := h
    obtain ⟨rfl, rfl⟩ : left = [] ∧ right = [] := by
      have hcount := congrArg List.length hids
      simp only [map_append, map_cons, length_append, length_cons, length_map, length_nil] at hcount
      exact ⟨length_eq_zero_iff.mp (by omega), length_eq_zero_iff.mp (by omega)⟩
    obtain rfl : n.id = root := by simpa using hids
    obtain ⟨rfl, -⟩ := hpath.nil_inv
    have hkid := hkids n (by simp)
    by_cases hempty : n.seps.length = 0
    · obtain ⟨child, hchild⟩ := length_eq_one_iff.mp (show n.children.length = 1 by omega)
      refine ⟨[], child, m.internals.release n.id, ?_, hown.release, ?_, trivial⟩
      · have hc0 : n.internal.children[0]? = some child := by simp [INode.internal, hchild]
        rw [rebalanceInternals, run_bind hget, if_pos hroot.symm, INode.internal_count, if_pos hempty, run_bind hc0]
        rfl
      · have hnil : n.seps = [] := length_eq_zero_iff.mp hempty
        rw [hfences]
        simp [hchild, hnil, Indexes]
    · refine ⟨[[n]], n.id, m.internals, ?_, hown, ⟨[], hlen, hkids, rfl, hfences, rfl, rfl⟩, ?_⟩
      · rw [rebalanceInternals, run_bind hget, if_pos hroot.symm, INode.internal_count, if_neg hempty]
        exact kept_eq hroot (by simp at hheight ⊢; omega)
      · refine ⟨fun x hx => ?_, trivial⟩
        obtain rfl := mem_singleton.mp hx
        exact ⟨Nat.one_le_iff_ne_zero.mpr hempty, hhi⟩
  | cons level up ih =>
    have hget : m.internals.get n.id = some n.internal := hown.stored_get n (by simp)
    have hindex := h
    obtain ⟨l, p, r, ci, path, rfl, rfl, hci, hpos, hpath'⟩ := hpath.cons_inv
    obtain ⟨upper, hlen, hkids, hids, hfences, habove⟩ := h
    have hnroot : ¬ some n.id = m.root := by
      obtain ⟨x, hx, hid⟩ := habove.root_mem (by simp)
      have hne := (hown.perm (storedNodes_perm left [n] right _ [] frame)).ne (y := x.stored)
        (mem_append_right [] (mem_append_left _ (mem_map_of_mem hx)))
      rw [hroot, ← hid, Option.some.injEq]
      exact hne
    by_cases henough : sepMin F ≤ n.seps.length
    · refine ⟨_, root, m.internals, ?_, hown, hindex, ?_⟩
      · rw [rebalanceInternals, run_bind hget, if_neg hnroot, INode.internal_count, if_pos henough]
        exact kept_eq hroot (by simp at hheight ⊢; omega)
      · exact Occupied.cons hF (forall_mem_splice [] [n] hocc (forall_mem_singleton.mpr ⟨henough, hhi⟩)) hup
    have hlow := not_le.mp henough
    have hp := hup.1 p (by simp)
    have hp1 : 1 ≤ p.seps.length := hup.one_le hF (by simp)
    rcases internalBorrow_spec hindex hpos hown hocc hlow hci (hlo (by simp)) with
      ⟨i, level, p', hrun, hset⟩ | ⟨hrun, hleft, hright⟩
    · refine ⟨level :: (l ++ p' :: r) :: up, root, i, ?_, hset.owned, hset.index, ?_⟩
      · rw [rebalanceInternals, run_bind hget, if_neg hnroot, INode.internal_count, if_neg henough, run_bind hrun]
        exact kept_eq (m := { m with internals := i }) hroot (by simp at hheight ⊢; omega)
      · exact Occupied.cons hF hset.inRange (hup.swap hset.parent_seps)
    · obtain ⟨i, level, p', hmerge, hset⟩ :=
        internalMerge_at hindex hpos hown hocc hlow hF hci hp1 hleft hright
      obtain ⟨upper', hlen', hkids', hids', hfences', habove'⟩ := hset.index
      have hseps := hset.parent_seps
      have hown' := hset.owned.perm (storedNodes_perm [] [] level _ [] frame)
      have hlo' : up ≠ [] → sepMin F ≤ p'.seps.length + 1 := by
        intro hne
        have hpmin := hp.1
        rw [if_neg (by simpa using hne)] at hpmin
        omega
      obtain ⟨levels', root', i', hrest, hown'', hindex', hocc'⟩ := ih (m := { m with internals := i }) (c := ci)
        habove' hown' hroot (by simp at hheight ⊢; omega) hpath' (hup.neighbour habove) hlo' (by omega) hup.2
      refine ⟨level :: levels', root', i', ?_, hown''.perm (storedNodes_perm [] [] level levels' [] frame).symm,
        ⟨upper', hlen', hkids', hids', hfences', hindex'⟩, Occupied.cons hF hset.inRange hocc'⟩
      rw [rebalanceInternals, run_bind hget, if_neg hnroot, INode.internal_count, if_neg henough, run_bind hrun]
      dsimp only
      rw [if_neg Bool.false_ne_true, run_bind hmerge, ← hset.parent_id, hrest]
      have hheight' : m.height - (up.length + 1) + levels'.length =
          m.height - (((l ++ p :: r) :: up).length + 1) + (level :: levels').length := by
        simp only [length_cons] at hheight ⊢
        omega
      rw [← hheight']

end InfinityDB

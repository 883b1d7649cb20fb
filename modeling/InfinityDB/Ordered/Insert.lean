import InfinityDB.Ordered.Represents

/-!
# Insertion

Placing a pair in the leaf that owns it. A leaf with room takes it directly; a full leaf plans
every allocation first, so that a refusal rolls back to the same view, and then splits and
threads the fence upward.
-/

namespace InfinityDB

open Lib List Option OrderedMap

variable {S : KeyScheme} {F : Nat} {m : OrderedMap S F} {v : View S} {root : Nat}

/-- What a capacity refusal means: a heap error only where keys have suffixes, a node error only
with a pool's id space used up. -/
def Refused (v : View S) : OrderedMapError → Prop
  | .heapFull => S.fixed = false
  | .nodeLimit => nodeNone ≤ v.leaves.length ∨ nodeNone ≤ v.levels.flatten.length + maxHeight

variable {internals : Pool (Internal S)} {levels : List (Level S)} {path : Path} {ids : List Nat} {key : Bytes}
  {items : List (Item S)}

private theorem fullRun_total {pos : Nat} (hpath : PathAt levels path pos)
    (h : ∀ n ∈ levels.flatten, internals.get n.id = some n.internal) :
    ∃ run grow, fullRun F internals path = some (run, grow) ∧ run ≤ levels.length := by
  induction levels generalizing path pos with
  | nil =>
    obtain ⟨rfl, -⟩ := hpath.nil_inv
    exact ⟨0, true, rfl, le_rfl⟩
  | cons level up ih =>
    obtain ⟨left, n, right, c, path, rfl, rfl, -, -, hup⟩ := hpath.cons_inv
    obtain ⟨run, grow, hrun, hle⟩ := ih hup fun x hx => h x (by simp [hx])
    by_cases hroom : n.seps.length < sepMax F
    · exact ⟨0, false, by simp [fullRun, h n (by simp), hroom], by simp⟩
    · exact ⟨run + 1, grow, by simp [fullRun, h n (by simp), hroom, hrun], by simpa using hle⟩

abbrev freshNodes (ids : List Nat) : List (Nat × Internal S) := ids.map fun id => (id, Internal.new)

theorem planInternals_spec {live : List (Nat × Internal S)}
    (hown : Owned internals live) (planned : List Nat) (run : Nat) (hlen : planned.length + run ≤ maxHeight) :
    ∃ ids internals', Owned internals' (freshNodes ids ++ live) ∧ ids.length ≤ run ∧
      (planInternals internals planned run = some (.ok (), planned ++ ids, internals') ∧ ids.length = run ∨
       planInternals internals planned run = some (.error .nodeLimit, planned ++ ids, internals') ∧
        nodeNone ≤ live.length + run) := by
  induction run generalizing internals live planned with
  | zero => exact ⟨[], internals, by simpa using hown, le_rfl, .inl ⟨by simp [planInternals], rfl⟩⟩
  | succ run ih =>
    rcases hown.alloc Internal.new with ⟨id, i₁, halloc, hown₁⟩ | ⟨halloc, hfull⟩
    · have hroom : planned.length < maxHeight := by omega
      obtain ⟨ids, i₂, hown₂, hle, hres⟩ := ih hown₁ (planned ++ [id]) (by simp; omega)
      refine ⟨id :: ids, i₂, hown₂.perm perm_middle, by simpa using hle, ?_⟩
      rcases hres with ⟨hplan, hids⟩ | ⟨hplan, hfull⟩
      · exact .inl ⟨by simp [planInternals, halloc, hroom, hplan], by simpa using hids⟩
      · refine .inr ⟨by simp [planInternals, halloc, hroom, hplan], ?_⟩
        rw [length_cons] at hfull
        omega
    · exact ⟨[], internals, by simpa using hown, zero_le, .inr ⟨by simp [planInternals, halloc], by omega⟩⟩

theorem Owned.releaseAll {live : List (Nat × Internal S)}
    (hown : Owned internals (freshNodes ids ++ live)) : Owned (ids.foldl Pool.release internals) live := by
  induction ids generalizing internals with
  | nil => simpa using hown
  | cons id ids ih => exact ih (Owned.release hown)

/-- A completed plan: the entry's sideband, the fence copy and every node are in hand, and the
map's contents are as they were. -/
structure Planned (m : OrderedMap S F) (v : View S) (path : Path) (p q : Pair) (plan : InsertPlan S)
    (m' : OrderedMap S F) (side : S.Meta) (sep : Slot S) (right : Nat) (planned : List Nat)
    (newRoot : Option Nat) : Prop where
  plan : plan = ⟨none, some side, some sep, some right, planned, newRoot⟩
  frame : m' = { m with heap := m'.heap, leaves := m'.leaves, internals := m'.internals }
  heap : Holds m'.heap ((⟨keyPrefix p.key, side, p.entryRef⟩, p) :: (sep, q) :: (v.items ++ v.fences))
  leaves : Owned m'.leaves ((right, Leaf.new) :: chainNodes v.leaves)
  internals : Owned m'.internals (storedNodes v.levels ++
    (freshNodes planned ++ newRoot.toList.map fun id => (id, Internal.new)))
  run : fullRun F m'.internals path = some (planned.length, newRoot.isSome)

/-- The fence copy of a plan is of the pair itself or of the slot at the cut. -/
def FenceSource (m : OrderedMap S F) (v : View S) (leafId cut : Nat) (p q : Pair) : Prop :=
  cut = F ∧ q = p ∨
    cut ≠ F ∧ ∃ leaf slot, m.leaves.get leafId = some leaf ∧ leaf.slots[cut]? = some slot ∧
      (slot, q) ∈ v.items ++ v.fences

/-- The fence copy: held beside everything else, or refused by the heap. -/
private theorem fenceCopy_spec {heap : KeyHeap} {leafId cut : Nat} {r : UInt64} {q : Pair}
    (hk : S.Admits key) (hsrc : FenceSource m v leafId cut ⟨key, r⟩ q) (others : List (Item S))
    (hh : Holds heap (others ++ (v.items ++ v.fences))) :
    (∃ sep heap', (if cut = F then copyProbeAsSep heap (.ofKey key) r
        else copyEntryAsSep m.leaves heap leafId cut) = some (.ok sep, heap') ∧
      Holds heap' ((sep, q) :: (others ++ (v.items ++ v.fences)))) ∨
    ∃ heap', (if cut = F then copyProbeAsSep (S := S) heap (.ofKey key) r
        else copyEntryAsSep m.leaves heap leafId cut) = some (.error .heapFull, heap') ∧
      Holds heap' (others ++ (v.items ++ v.fences)) ∧ S.fixed = false := by
  rcases hsrc with ⟨rfl, rfl⟩ | ⟨hne, leaf, slot, hleaf, hslot, hmem⟩
  · rcases storeMeta_spec hh hk r with ⟨side, heap', hst, hh'⟩ | ⟨heap', hst, hh', hS⟩
    · exact .inl ⟨_, heap', by rw [if_pos rfl, copyProbeAsSep, hst]; rfl, hh'⟩
    · exact .inr ⟨heap', by rw [if_pos rfl, copyProbeAsSep, hst]; rfl, hh', hS⟩
  · rcases copySlot_spec hh (slot, q) (mem_append_right _ hmem) with
      ⟨sep, heap', hcp, hh'⟩ | ⟨heap', hcp, hh', hS⟩
    · exact .inl ⟨sep, heap', by simp [hne, copyEntryAsSep, hleaf, hslot, hcp], hh'⟩
    · exact .inr ⟨heap', by simp [hne, copyEntryAsSep, hleaf, hslot, hcp], hh', hS⟩

theorem Rep.planSplit (h : Rep m v root) (hheight : m.height < maxHeight) {leafId cut pos : Nat}
    (hpath : PathAt v.levels path pos) (hk : S.Admits key) {r : UInt64}
    {q : Pair} (hsrc : FenceSource m v leafId cut ⟨key, r⟩ q) : (∃ plan m' side sep right planned newRoot,
      m.planSplit leafId cut (.ofKey key) r path = some (.ok (), plan, m') ∧
      Planned m v path ⟨key, r⟩ q plan m' side sep right planned newRoot) ∨
    ∃ e plan m' m'', m.planSplit leafId cut (.ofKey key) r path = some (.error e, plan, m') ∧
      m'.rollbackPlan plan = some m'' ∧ Rep m'' v root ∧ m''.epoch = m.epoch ∧ Refused v e := by
  rcases storeMeta_spec h.heap hk r with ⟨side, heap₁, hstore, hh₁⟩ | ⟨heap₁, hstore, hh₁, hS⟩
  swap
  · exact .inr ⟨.heapFull, InsertPlan.new, { m with heap := heap₁ }, { m with heap := heap₁ },
      by simp [OrderedMap.planSplit, hstore], by simp [rollbackPlan, InsertPlan.new], { h with heap := hh₁ }, rfl, hS⟩
  rcases fenceCopy_spec hk hsrc [(⟨keyPrefix key, side, r⟩, ⟨key, r⟩)] hh₁ with
    ⟨sep, heap₂, hcopy, hh₂⟩ | ⟨heap₂, hcopy, hh₂, hS⟩
  swap
  · obtain ⟨heap₃, hfree, hh₃⟩ := freeMeta_spec hh₂
    exact .inr ⟨.heapFull, { InsertPlan.new with entryMetaPlanned := some side }, { m with heap := heap₂ },
      { m with heap := heap₃ }, by simp [OrderedMap.planSplit, hstore, hcopy, InsertPlan.new],
      by simp [rollbackPlan, InsertPlan.new, hfree], { h with heap := hh₃ }, rfl, hS⟩
  -- from here on a refusal gives both copies back
  obtain ⟨heap₃, hfree₃, hh₃⟩ := freeMeta_spec (hh₂.perm (List.Perm.swap _ _ _))
  obtain ⟨heap₄, hfree₄, hh₄⟩ := freeMeta_spec hh₃
  rcases h.leaves.alloc Leaf.new with ⟨right, leaves₁, hleaf, hl₁⟩ | ⟨hleaf, hfull⟩
  swap
  · exact .inr ⟨.nodeLimit, { InsertPlan.new with entryMetaPlanned := some side, sep := some sep },
      { m with heap := heap₂ }, { m with heap := heap₄ },
      by simp [OrderedMap.planSplit, hstore, hcopy, hleaf, InsertPlan.new],
      by simp [rollbackPlan, InsertPlan.new, hfree₃, hfree₄], { h with heap := hh₄ }, rfl, .inl (by simpa using hfull)⟩
  obtain ⟨run, grow, hrun, hrunle⟩ := fullRun_total (F := F) hpath h.stored
  have hroom : run + 1 ≤ maxHeight := by
    have := h.height
    omega
  obtain ⟨planned, internals₁, hi₁, hle, hplan⟩ := planInternals_spec h.internals [] run (by simp; omega)
  rw [nil_append] at hplan
  rcases hplan with ⟨hplan, rfl⟩ | ⟨hplan, hfull⟩
  swap
  · refine .inr ⟨.nodeLimit, { InsertPlan.new with
        entryMetaPlanned := some side, sep := some sep, rightLeaf := some right, internals := planned },
      { m with heap := heap₂, leaves := leaves₁, internals := internals₁ },
      { m with heap := heap₄, leaves := leaves₁.release right, internals := planned.foldl Pool.release internals₁ },
      by simp [OrderedMap.planSplit, hstore, hcopy, hleaf, hrun, hplan, InsertPlan.new],
      by simp [rollbackPlan, InsertPlan.new, hfree₃, hfree₄],
      { h with heap := hh₄, leaves := hl₁.release, internals := hi₁.releaseAll }, rfl, .inr ?_⟩
    simp only [length_map] at hfull
    omega
  cases grow with
  | false =>
    refine .inl ⟨⟨none, some side, some sep, some right, planned, none⟩,
      { m with heap := heap₂, leaves := leaves₁, internals := internals₁ }, side, sep, right, planned, none,
      by simp [OrderedMap.planSplit, hstore, hcopy, hleaf, hrun, hplan, InsertPlan.new], ?_⟩
    refine ⟨rfl, rfl, hh₂.perm (List.Perm.swap _ _ _), hl₁, ?_, ?_⟩
    · exact hi₁.perm (by simpa using perm_append_comm)
    · exact (fullRun_congr hpath (hi₁.perm perm_append_comm).stored_get h.stored).trans hrun
  | true =>
    rcases hi₁.alloc Internal.new with ⟨newRoot, internals₂, hroot, hi₂⟩ | ⟨hroot, hfull⟩
    · refine .inl ⟨⟨none, some side, some sep, some right, planned, some newRoot⟩,
        { m with heap := heap₂, leaves := leaves₁, internals := internals₂ }, side, sep, right, planned, some newRoot,
        by simp [OrderedMap.planSplit, hstore, hcopy, hleaf, hrun, hplan, hroot, InsertPlan.new], ?_⟩
      have hi₃ : Owned internals₂ (storedNodes v.levels ++
          (freshNodes planned ++ (some newRoot).toList.map fun id => (id, Internal.new))) := by
        refine hi₂.perm ?_
        classical
        refine perm_iff_count.mpr fun x => ?_
        simp only [count_append, count_cons, toList_some, map_cons, map_nil, count_nil]
        omega
      exact ⟨rfl, rfl, hh₂.perm (List.Perm.swap _ _ _), hl₁, hi₃,
        (fullRun_congr hpath hi₃.stored_get h.stored).trans hrun⟩
    · refine .inr ⟨.nodeLimit, { InsertPlan.new with
          entryMetaPlanned := some side, sep := some sep, rightLeaf := some right, internals := planned },
        { m with heap := heap₂, leaves := leaves₁, internals := internals₁ },
        { m with heap := heap₄, leaves := leaves₁.release right, internals := planned.foldl Pool.release internals₁ },
        by simp [OrderedMap.planSplit, hstore, hcopy, hleaf, hrun, hplan, hroot, InsertPlan.new],
        by simp [rollbackPlan, InsertPlan.new, hfree₃, hfree₄],
        { h with heap := hh₄, leaves := hl₁.release, internals := hi₁.releaseAll }, rfl, .inr ?_⟩
      simp only [length_append, length_map] at hfull
      omega

/-- The two leaves a split leaves behind, the new item in its half. -/
def splitItems (F cut idx : Nat) (items : List (Item S)) (item : Item S) : List (Item S) × List (Item S) :=
  if cut = F ∨ cut < idx then
    (items.take cut, (items.drop cut).take (idx - cut) ++ item :: (items.drop cut).drop (idx - cut))
  else ((items.take cut).take idx ++ item :: (items.take cut).drop idx, items.drop cut)

/-- The cut of a full leaf: the rightmost append keeps it whole, any other split halves it. -/
def cutOf (F idx : Nat) (right : List (LeafNode S)) : Nat := if right = [] ∧ idx = F then F else F / 2

theorem splitItems_append (idx : Nat) (right : List (LeafNode S)) (item : Item S) (hlen : items.length = F) :
    (splitItems F (cutOf F idx right) idx items item).1 ++ (splitItems F (cutOf F idx right) idx items item).2 =
      items.take idx ++ item :: items.drop idx := by
  have hcut : cutOf F idx right ≤ items.length := by
    unfold cutOf
    split_ifs <;> omega
  by_cases hr : cutOf F idx right = F ∨ cutOf F idx right < idx
  · have hle : cutOf F idx right ≤ idx := by
      unfold cutOf at hr ⊢
      split_ifs at hr ⊢ <;> omega
    simp only [splitItems, hr, if_true]
    exact (cut_insert items item hcut).2 hle
  · simp only [splitItems, hr, if_false]
    exact (cut_insert items item hcut).1 (by omega)

private theorem splitItems_bounds {idx : Nat} (right : List (LeafNode S)) (item : Item S)
    (hlen : items.length = F) (hidx : idx ≤ F) (hF : 8 ≤ F) :
    let halves := splitItems F (cutOf F idx right) idx items item
    halves.1 ≠ [] ∧ halves.1.length ≤ F ∧ halves.2 ≠ [] ∧ halves.2.length ≤ F := by
  have hcut : cutOf F idx right = F ∧ idx = F ∨ cutOf F idx right = F / 2 := by
    unfold cutOf
    split_ifs with h
    · exact .inl ⟨rfl, h.2⟩
    · exact .inr rfl
  by_cases hr : cutOf F idx right = F ∨ cutOf F idx right < idx
  · simp only [splitItems, hr, if_true, ne_eq, ← length_eq_zero_iff, length_append,
      length_take, length_drop, length_cons]
    omega
  · simp only [splitItems, hr, if_false, ne_eq, ← length_eq_zero_iff, length_append,
      length_take, length_drop, length_cons]
    omega

/-- The leaf half of the commit: split, then place the entry. -/
theorem splitLeaf_spec {leaves : Pool (Leaf S)} {id right idx cut : Nat} {next : Option Nat}
    {rest : List (Nat × Leaf S)} {fresh : Leaf S} (item : Item S)
    (hown : Owned leaves ((right, fresh) :: (id, ⟨next, items.map Prod.fst⟩) :: rest))
    (hlen : items.length = F) (hidx : idx ≤ F) (hF : 8 ≤ F) (hcut : cut = F ∧ idx = F ∨ 0 < cut ∧ cut < F) :
    ∃ leaf leaf' leaves₁ leaves₂, splitLeafInto leaves id right cut = some leaves₁ ∧
      leaves₁.get (if cut = F ∨ cut < idx then (right, idx - cut) else (id, idx)).1 = some leaf ∧
      leaf.place F (if cut = F ∨ cut < idx then (right, idx - cut) else (id, idx)).2 item.1 = some leaf' ∧
      leaves₁.set (if cut = F ∨ cut < idx then (right, idx - cut) else (id, idx)).1 leaf' = some leaves₂ ∧
      Owned leaves₂ ((id, ⟨some right, (splitItems F cut idx items item).1.map Prod.fst⟩) ::
        (right, ⟨next, (splitItems F cut idx items item).2.map Prod.fst⟩) :: rest) := by
  have hne : right ≠ id := hown.ne (y := (id, ⟨next, items.map Prod.fst⟩)) (by simp)
  have hgetL : leaves.get id = some ⟨next, items.map Prod.fst⟩ := hown.get (x := (id, _)) (by simp)
  have hgetR : leaves.get right = some fresh := hown.get (x := (right, _)) (by simp)
  obtain ⟨l₁, hset₁, hown₁⟩ := hown.set ⟨next, (items.drop cut).map Prod.fst⟩
  obtain ⟨l₂, hset₂, hown₂⟩ := (hown₁.perm (List.Perm.swap _ _ _)).set ⟨some right, (items.take cut).map Prod.fst⟩
  have hsplit : splitLeafInto leaves id right cut = some l₂ := by
    have hle : cut ≤ items.length := by omega
    simp [splitLeafInto, Ne.symm hne, hgetL, hgetR, Leaf.count, hle, ← map_drop, ← map_take, hset₁, hset₂]
  by_cases hr : cut = F ∨ cut < idx
  · obtain ⟨l₃, hset₃, hown₃⟩ := (hown₂.perm (List.Perm.swap _ _ _)).set
      ⟨next, (splitItems F cut idx items item).2.map Prod.fst⟩
    refine ⟨⟨next, (items.drop cut).map Prod.fst⟩, ⟨next, (splitItems F cut idx items item).2.map Prod.fst⟩,
      l₂, l₃, hsplit, ?_, ?_, ?_, ?_⟩
    · simp only [hr, if_true]
      exact hown₂.get (x := (right, _)) (by simp)
    · simp only [hr, if_true, Leaf.place, Leaf.count, length_map, length_drop]
      rw [if_pos ⟨by omega, show idx - cut ≤ items.length - cut by omega⟩]
      simp [splitItems, hr, map_take, map_drop]
    · simp only [hr, if_true]
      exact hset₃
    · refine (hown₃.perm (List.Perm.swap _ _ _)).perm ?_
      simp [splitItems, hr]
  · obtain ⟨l₃, hset₃, hown₃⟩ := hown₂.set ⟨some right, (splitItems F cut idx items item).1.map Prod.fst⟩
    refine ⟨⟨some right, (items.take cut).map Prod.fst⟩,
      ⟨some right, (splitItems F cut idx items item).1.map Prod.fst⟩, l₂, l₃, hsplit, ?_, ?_, ?_, ?_⟩
    · simp only [hr, if_false]
      exact hown₂.get (x := (id, _)) (by simp)
    · simp only [hr, if_false, Leaf.place, Leaf.count, length_map, length_take]
      rw [if_pos ⟨by omega, show idx ≤ min cut items.length by omega⟩]
      simp [splitItems, hr, map_take, map_drop]
    · simp only [hr, if_false]
      exact hset₃
    · refine hown₃.perm ?_
      simp [splitItems, hr]

theorem Indexes.snoc {fences : List (Item S)} {n : INode S}
    (h : Indexes levels ids fences n.children n.seps) (hn : n.children.length = n.seps.length + 1) :
    Indexes (levels ++ [[n]]) ids fences [n.id] [] := by
  induction levels generalizing ids fences with
  | nil =>
    obtain ⟨rfl, rfl⟩ := h
    exact ⟨[], rfl, by simpa using hn, by simp, by simp, rfl, rfl⟩
  | cons level up ih =>
    obtain ⟨upper, hlen, hc, hids, hf, hup⟩ := h
    exact ⟨upper, hlen, hc, hids, hf, ih hup⟩

theorem Occupied.snoc {n : INode S} (h : Occupied F (sepMin F) levels)
    (hlo : 1 ≤ n.seps.length) (hhi : n.seps.length ≤ sepMax F) : Occupied F 1 (levels ++ [[n]]) := by
  induction levels with
  | nil => exact ⟨by simpa using ⟨hlo, hhi⟩, trivial⟩
  | cons level up ih =>
    refine ⟨fun x hx => ⟨?_, (h.1 x hx).2⟩, ih h.2⟩
    have hx' := (h.1 x hx).1
    simpa using hx'

/-- The level a cascade through every ancestor adds on top. -/
def rootLevel (root : Nat) : Option (Item S × Nat) → Option Nat → List (Level S)
  | some (sep, right), some newRoot => [[⟨newRoot, [sep], [root, right]⟩]]
  | _, _ => []

def rootAfter (root : Nat) : Option (Item S × Nat) → Option Nat → Nat
  | some _, some newRoot => newRoot
  | _, _ => root

theorem commitSepCascade_spec {m : OrderedMap S F} {pos : Nat}
    (entryMetaPlanned entryMeta : Option S.Meta) (sep : Item S) (right : Nat) {planned : List Nat}
    {newRoot : Option Nat} (hF : 8 ≤ F) (heven : F % 2 = 0) {fences : List (Item S)}
    (hroot : m.root = some root) (hheight : levels.length = m.height)
    (hpath : PathAt levels path pos) (hindex : Indexes levels ids fences [root] []) (hocc : Occupied F 1 levels)
    (hown : Owned m.internals (storedNodes levels ++
      (freshNodes planned ++ newRoot.toList.map fun id => (id, Internal.new))))
    (hrun : fullRun F m.internals path = some (planned.length, newRoot.isSome)) : ∃ levels' leftover internals',
      m.commitSepCascade ⟨entryMetaPlanned, entryMeta, some sep.1, some right, planned, newRoot⟩ path = some { m with
          internals := internals'
          root := some (rootAfter root leftover newRoot)
          height := (levels' ++ rootLevel root leftover newRoot).length } ∧
      Grows F levels path pos sep right planned levels' leftover ∧
      leftover.isSome = newRoot.isSome ∧
      Owned internals' (storedNodes (levels' ++ rootLevel root leftover newRoot)) ∧
      Indexes (levels' ++ rootLevel root leftover newRoot) (ids.take (pos+1) ++ right :: ids.drop (pos+1))
        (fences.take pos ++ sep :: fences.drop pos) [rootAfter root leftover newRoot] [] ∧
      Occupied F 1 (levels' ++ rootLevel root leftover newRoot) := by
  obtain ⟨levels', leftover, internals', hg, hlo, hcasc, hown'⟩ :=
    sepCascade_spec hF hpath hown hrun hocc.cap sep right
  have hidx := hg.indexes hF hindex
  have hocc' := hg.occupied hF heven hocc hindex
  have hlen := hg.length
  cases leftover with
  | none =>
    obtain rfl : newRoot = none := by simpa using hlo.symm
    refine ⟨levels', none, internals', ?_, hg, rfl, ?_, by simpa [rootLevel, rootAfter] using hidx,
      by simpa [rootLevel] using hocc'⟩
    · simp [commitSepCascade, hcasc, rootAfter, rootLevel, hroot, hlen, hheight]
    · simpa [rootLevel] using hown'
  | some x =>
    obtain ⟨s, r⟩ := x
    obtain ⟨nr, rfl⟩ : ∃ nr, newRoot = some nr := isSome_iff_exists.mp hlo.symm
    have hmax : sepMax F = F - 1 := rfl
    obtain ⟨i, hset, hown''⟩ := (hown'.perm perm_append_comm).set (⟨[s.1], [root, r]⟩ : Internal S)
    refine ⟨levels', some (s, r), i, ?_, hg, rfl, ?_, ?_, ?_⟩
    · simp [commitSepCascade, hcasc, rootAfter, rootLevel, hroot, hlen, hheight, hset]
    · refine hown''.perm ?_
      simp only [rootLevel, storedNodes, flatten_append, map_append]
      exact (perm_append_singleton _ _).symm
    · exact Indexes.snoc (n := ⟨nr, [s], [root, r]⟩) (by simpa using hidx) rfl
    · exact Occupied.snoc (by simpa using hocc') (by simp) (by simp; omega)

private theorem splitItems_head (idx : Nat) (right : List (LeafNode S)) (item : Item S) (hlen : items.length = F) (hF : 8 ≤ F) :
    ∃ y tail, (splitItems F (cutOf F idx right) idx items item).2 = y :: tail ∧
      (cutOf F idx right = F ∧ y = item ∨ cutOf F idx right ≠ F ∧ items[cutOf F idx right]? = some y) := by
  by_cases hcut : cutOf F idx right = F
  · have hidx : idx = F := by
      unfold cutOf at hcut
      split_ifs at hcut with h
      · exact h.2
      · omega
    refine ⟨item, [], ?_, .inl ⟨hcut, rfl⟩⟩
    rw [hcut, splitItems, if_pos (.inl rfl), hidx, ← hlen]
    simp
  · have hlt : cutOf F idx right < items.length := by
      unfold cutOf at hcut ⊢
      split_ifs at hcut ⊢ <;> omega
    have hdrop : items.drop (cutOf F idx right) = items[cutOf F idx right] :: items.drop (cutOf F idx right + 1) :=
      drop_eq_getElem_cons hlt
    by_cases hr : cutOf F idx right < idx
    · obtain ⟨k, hk⟩ : ∃ k, idx - cutOf F idx right = k + 1 := ⟨idx - cutOf F idx right - 1, by omega⟩
      refine ⟨items[cutOf F idx right], (items.drop (cutOf F idx right + 1)).take k ++
        item :: (items.drop (cutOf F idx right + 1)).drop k, ?_, .inr ⟨hcut, getElem?_eq_getElem hlt⟩⟩
      simp only [splitItems, hr, or_true, if_true, hk, hdrop, take_succ_cons, cons_append, drop_succ_cons]
    · refine ⟨items[cutOf F idx right], items.drop (cutOf F idx right + 1), ?_, .inr ⟨hcut, getElem?_eq_getElem hlt⟩⟩
      simp only [splitItems, hr, hcut, or_false, if_false]
      exact hdrop

section Order
variable {left right : List (LeafNode S)} {id : Nat} {a b : List (Item S)} {fl fr : List (Item S)}

theorem Rep.order_insert (h : Rep m v root) (hf : Focus v left id (a ++ b) right fl fr) (item : Item S)
    (hat : At v item.2 left right fl fr) (ha : ∀ x ∈ a, x.2 < item.2) (hb : ∀ x ∈ b, item.2 < x.2) :
    (weaveL (leafMarks left) (fl.map fenceMark) ++ (a ++ item :: b).map entryMark ++
      weaveR (fr.map fenceMark) (leafMarks right)).Pairwise Mark.Before := by
  have hord := h.order
  rw [hf.marks, map_append, ← append_assoc, append_assoc, pairwise_append] at hord
  obtain ⟨hL, hR, hLR⟩ := hord
  rw [map_append, map_cons, ← append_assoc, append_assoc, cons_append, pairwise_append, pairwise_cons]
  refine ⟨hL, ⟨?_, hR⟩, ?_⟩
  · intro x hx
    rcases mem_append.mp hx with hx | hx
    · obtain ⟨y, hy, rfl⟩ := List.mem_map.mp hx
      exact hb y hy
    · exact hat.after x hx
  · intro x hx y hy
    rcases mem_cons.mp hy with rfl | hy
    · rcases mem_append.mp hx with hx | hx
      · exact hat.before x hx
      · obtain ⟨z, hz, rfl⟩ := List.mem_map.mp hx
        exact ha z hz
    · exact hLR x hx y hy

/-- What a successful placement does to the view: `item` goes between `a` and `b` in one leaf,
which splits when it is full. -/
inductive Placed (F : Nat) (v : View S) (root : Nat) (left : List (LeafNode S)) (id : Nat)
    (a b : List (Item S)) (right : List (LeafNode S)) (fl fr : List (Item S)) (item : Item S) :
    View S → Nat → Prop
  | room (hroom : (a ++ b).length < F) :
      Placed F v root left id a b right fl fr item
        ⟨left ++ (id, a ++ item :: b) :: right, v.fences, v.levels⟩ root
  | split {sep : Item S} {rightId : Nat} {path : Path} {planned : List Nat} {levels' : List (Level S)}
      {leftover : Option (Item S × Nat)} {newRoot : Option Nat} (hfull : (a ++ b).length = F)
      (hgrow : Grows F v.levels path left.length sep rightId planned levels' leftover)
      (hroot : leftover.isSome = newRoot.isSome)
      (hsep : sep.2 ∈ (splitItems F (cutOf F a.length right) a.length (a ++ b) item).2.map Prod.snd) :
      Placed F v root left id a b right fl fr item
        ⟨left ++ (id, (splitItems F (cutOf F a.length right) a.length (a ++ b) item).1) ::
            (rightId, (splitItems F (cutOf F a.length right) a.length (a ++ b) item).2) :: right,
          fl ++ sep :: fr, levels' ++ rootLevel root leftover newRoot⟩
        (rootAfter root leftover newRoot)

theorem Placed.items_perm {item : Item S} {v' : View S} {root' : Nat}
    (hf : Focus v left id (a ++ b) right fl fr) (h : Placed F v root left id a b right fl fr item v' root') :
    v'.items.Perm (item :: v.items) := by
  have hmid : (left.flatMap Prod.snd ++ (a ++ item :: b) ++ right.flatMap Prod.snd).Perm
      (item :: (left.flatMap Prod.snd ++ (a ++ b) ++ right.flatMap Prod.snd)) := by
    classical
    refine perm_iff_count.mpr fun x => ?_
    simp only [count_append, count_cons]
    omega
  rw [hf.items_eq]
  refine List.Perm.trans (List.Perm.of_eq ?_) hmid
  cases h with
  | room => simp [View.items]
  | split hfull =>
    have happ := splitItems_append a.length right item hfull
    rw [take_left, drop_left] at happ
    rw [← happ]
    simp [View.items]

private theorem cutOf_next (right : List (LeafNode S)) (idx : Nat) :
    (if (right.map Prod.fst).head? = none ∧ idx = F then F else F / 2) = cutOf F idx right := by
  cases right <;> simp [cutOf]

/-- The pair a split copies as its fence is the first of the right half. -/
theorem Rep.fenceSource (h : Rep m v root) (hf : Focus v left id (a ++ b) right fl fr)
    (hfull : (a ++ b).length = F) (hF : 8 ≤ F) (p : Pair) (idx : Nat) :
    ∃ q, FenceSource m v id (cutOf F idx right) p q ∧ ∀ item : Item S, item.2 = p →
      ∃ y tail, (splitItems F (cutOf F idx right) idx (a ++ b) item).2 = y :: tail ∧ y.2 = q := by
  by_cases hcut : cutOf F idx right = F
  · refine ⟨p, .inl ⟨hcut, rfl⟩, fun item hp => ?_⟩
    obtain ⟨y, tail, hhalf, ⟨-, rfl⟩ | ⟨hne, -⟩⟩ := splitItems_head idx right item hfull hF
    · exact ⟨y, tail, hhalf, hp⟩
    · exact absurd hcut hne
  · have hlt : cutOf F idx right < (a ++ b).length := by
      unfold cutOf at hcut ⊢
      split_ifs at hcut ⊢ <;> omega
    refine ⟨(a ++ b)[cutOf F idx right].2, .inr ⟨hcut, _, (a ++ b)[cutOf F idx right].1, h.leaf_get hf, ?_, ?_⟩,
      fun item hp => ?_⟩
    · rw [getElem?_map, getElem?_eq_getElem hlt]
      rfl
    · refine mem_append_left _ ?_
      rw [hf.items_eq]
      exact mem_append_left _ (mem_append_right _ (getElem_mem hlt))
    · obtain ⟨y, tail, hhalf, ⟨he, -⟩ | ⟨-, hy⟩⟩ := splitItems_head idx right item hfull hF
      · exact absurd he hcut
      · rw [getElem?_eq_getElem hlt, some.injEq] at hy
        exact ⟨y, tail, hhalf, by rw [hy]⟩

variable {key : Bytes} {r : UInt64} {path : Path}

/-- Splitting a full leaf around the new pair, or refusing with everything given back. -/
theorem Rep.insertSplit (h : Rep m v root) (hF : 8 ≤ F) (heven : F % 2 = 0) (hheight : m.height < maxHeight)
    (hf : Focus v left id (a ++ b) right fl fr) (hk : S.Admits key) (hat : At v ⟨key, r⟩ left right fl fr)
    (ha : ∀ x ∈ a, x.2 < ⟨key, r⟩) (hb : ∀ x ∈ b, ⟨key, r⟩ < x.2) (hpath : PathAt v.levels path left.length)
    (hfull : (a ++ b).length = F) :
    (∃ m' v' root' item, m.insertSplit id a.length (.ofKey key) r path = some (.ok (), m') ∧
      item.2 = ⟨key, r⟩ ∧ Placed F v root left id a b right fl fr item v' root' ∧ m'.epoch = m.epoch ∧
      Rep ({ m' with len := m'.len + 1, epoch := m'.epoch + 1 } : OrderedMap S F) v' root') ∨
    ∃ e m', m.insertSplit id a.length (.ofKey key) r path = some (.error e, m') ∧ Rep m' v root ∧
      m'.epoch = m.epoch ∧ Refused v e := by
  have hleaf := h.leaf_get hf
  have hidx : a.length ≤ F := by
    rw [← hfull, length_append]
    omega
  obtain ⟨q, hsrc, hhead⟩ := h.fenceSource hf hfull hF ⟨key, r⟩ a.length
  rcases h.planSplit hheight hpath hk hsrc with
    ⟨plan, m₁, side, sep, rightId, planned, newRoot, hplan, hdone⟩ | ⟨e, plan, m₁, m₂, hplan, hroll, hrep, hep, href⟩
  swap
  · refine .inr ⟨e, m₂, ?_, hrep, hep, href⟩
    simp only [OrderedMap.insertSplit, hleaf, bind_eq_bind, bind_some, cutOf_next, hplan, hroll]
  obtain ⟨rfl, hframe, hheap, hleaves, hinternals, hrun⟩ := hdone
  let item : Item S := (⟨keyPrefix key, side, r⟩, ⟨key, r⟩)
  obtain ⟨y, tail, hhalf, hy⟩ := hhead item rfl
  have hcut : cutOf F a.length right = F ∧ a.length = F ∨ 0 < cutOf F a.length right ∧ cutOf F a.length right < F := by
    unfold cutOf
    split_ifs with hc
    · exact .inl ⟨rfl, hc.2⟩
    · exact .inr ⟨by omega, by omega⟩
  rw [hf.leaves, chainNodes_focus] at hleaves
  obtain ⟨leaf, leaf', leaves₁, leaves₂, hsplit, hget, hplace, hset, hleaves₂⟩ :=
    splitLeaf_spec item (hleaves.perm (List.Perm.cons _ perm_middle)) hfull hidx hF hcut
  have hm₁ : m₁.root = m.root ∧ m₁.height = m.height ∧ m₁.len = m.len ∧ m₁.epoch = m.epoch := by
    rw [hframe]
    exact ⟨rfl, rfl, rfl, rfl⟩
  obtain ⟨hroot₁, hheight₁, hlen₁, hepoch₁⟩ := hm₁
  obtain ⟨levels', leftover, internals', hcommit, hgrow, hlo, hown', hindex', hocc'⟩ :=
    commitSepCascade_spec (m := { m₁ with leaves := leaves₂ }) none (some side) (sep, q) rightId hF heven (hroot₁.trans h.rooted)
      (h.height.trans hheight₁.symm) hpath h.index h.occupied hinternals hrun
  have hplaced : Placed F v root left id a b right fl fr item _ _ :=
    .split hfull hgrow hlo (by rw [hhalf, map_cons, hy]; exact mem_cons_self)
  refine .inl ⟨{ m₁ with
      leaves := leaves₂
      internals := internals'
      root := some (rootAfter root leftover newRoot)
      height := (levels' ++ rootLevel root leftover newRoot).length }, _, _, item, ?_, rfl, hplaced, hepoch₁, ?_⟩
  · simp only [OrderedMap.insertSplit, hleaf, bind_eq_bind, bind_some, cutOf_next, hplan, hsplit]
    have hplace' : leaf.place F _ ⟨(Probe.ofKey key).pre, side, r⟩ = some leaf' := hplace
    rw [hget, bind_some, hplace', bind_some, hset, bind_some, hcommit, bind_some]
  · have hitems := hplaced.items_perm hf
    have hids : v.leaves.map Prod.fst = left.map Prod.fst ++ [id] ++ right.map Prod.fst := by
      simp [hf.leaves]
    obtain ⟨hne₁, hle₁, hne₂, hle₂⟩ := splitItems_bounds right item hfull hidx hF
    refine ⟨⟨rfl, rfl, ?_, hown', ?_, ?_, ?_, ?_, ?_⟩, ?_, hocc'⟩
    · rw [chainNodes_focus, chainNodes, chainTo]
      refine hleaves₂.perm ?_
      refine List.Perm.trans ?_ perm_middle.symm
      refine List.Perm.cons _ (List.Perm.trans ?_ perm_middle.symm)
      simp
    · refine hheap.perm ?_
      refine List.Perm.trans ?_ (hitems.append_right _).symm
      refine List.Perm.cons _ ?_
      change ((sep, q) :: (v.items ++ v.fences)).Perm (v.items ++ (fl ++ (sep, q) :: fr))
      rw [hf.fences]
      classical
      refine perm_iff_count.mpr fun x => ?_
      simp only [count_append, count_cons]
      omega
    · have hins := insert_middle (left.map Prod.fst) [id] (right.map Prod.fst) rightId (c := 1) (by simp)
      rw [← hids, length_map] at hins
      rw [hins, hf.fences, take_left' hf.left_length.symm, drop_left' hf.left_length.symm] at hindex'
      simpa using hindex'
    · have hord := h.order_insert hf item hat ha hb
      have happ := splitItems_append a.length right item hfull
      rw [take_left, drop_left, hhalf] at happ
      rw [← happ] at hord
      have hord' := order_fence (sep, q) hord hy.symm
      rw [View.marks_focus _ hf.left_length]
      simpa [leafMarks, hhalf] using hord'
    · exact forall_mem_splice [_] [_, _] (hf.leaves ▸ h.fits) (forall_mem_cons.mpr ⟨hle₁, forall_mem_singleton.mpr hle₂⟩)
    · rw [hitems.length_eq, length_cons, ← h.len, ← hlen₁]
    · exact forall_mem_splice [_] [_, _] (hf.leaves ▸ h.filled) (forall_mem_cons.mpr ⟨hne₁, forall_mem_singleton.mpr hne₂⟩)

/-- Placing the pair: in a leaf with room, by splitting a full one, or not at all. -/
theorem Rep.insertAt (h : Rep m v root) (hF : 8 ≤ F) (heven : F % 2 = 0) (hheight : m.height < maxHeight)
    (hf : Focus v left id (a ++ b) right fl fr) (hk : S.Admits key) (hat : At v ⟨key, r⟩ left right fl fr)
    (ha : ∀ x ∈ a, x.2 < ⟨key, r⟩) (hb : ∀ x ∈ b, ⟨key, r⟩ < x.2) (hpath : PathAt v.levels path left.length) :
    (∃ m' v' root' item, m.insertAt id a.length (.ofKey key) r path = some (.ok (), m') ∧
      item.2 = ⟨key, r⟩ ∧ Placed F v root left id a b right fl fr item v' root' ∧ m'.epoch = m.epoch + 1 ∧
      Rep m' v' root') ∨ ∃ e m', m.insertAt id a.length (.ofKey key) r path = some (.error e, m') ∧ Rep m' v root ∧
      m'.epoch = m.epoch ∧ Refused v e := by
  have hleaf := h.leaf_get hf
  have hle : (a ++ b).length ≤ F := h.fits (id, a ++ b) (by rw [hf.leaves]; simp)
  have hcount : Leaf.count (S := S) ⟨(right.map Prod.fst).head?, (a ++ b).map Prod.fst⟩ = (a ++ b).length := length_map _
  by_cases hroom : (a ++ b).length < F
  · rcases storeMeta_spec h.heap hk r with ⟨side, heap', hstore, hh⟩ | ⟨heap', hstore, hh, hS⟩
    · let item : Item S := (⟨keyPrefix key, side, r⟩, ⟨key, r⟩)
      have hown := h.leaves
      rw [hf.leaves, chainNodes_focus] at hown
      obtain ⟨leaves', hset, hown'⟩ := (hown.perm perm_middle).set
        ⟨(right.map Prod.fst).head?, (a ++ item :: b).map Prod.fst⟩
      have hplaced : Placed F v root left id a b right fl fr item _ _ := .room hroom
      have hitems := hplaced.items_perm hf
      refine .inl ⟨{ m with heap := heap', leaves := leaves', len := m.len + 1, epoch := m.epoch + 1 }, _, _,
        item, ?_, rfl, hplaced, rfl, ?_⟩
      · have hplace : Leaf.place F ⟨(right.map Prod.fst).head?, (a ++ b).map Prod.fst⟩ a.length item.1 =
            some ⟨(right.map Prod.fst).head?, (a ++ item :: b).map Prod.fst⟩ := by
          have hlen : a.length + b.length < F := by simpa using hroom
          simp [Leaf.place, Leaf.count, hlen]
        simp only [OrderedMap.insertAt, hleaf, bind_eq_bind, bind_some, hcount, hroom, if_true, hstore]
        rw [show (⟨(Probe.ofKey key).pre, side, r⟩ : Slot S) = item.1 from rfl, hplace, bind_some, hset, bind_some]
      · refine ⟨⟨h.rooted, h.height, ?_, h.internals, ?_, ?_, ?_, ?_, ?_⟩, ?_, h.occupied⟩
        · rw [chainNodes_focus]
          exact hown'.perm perm_middle.symm
        · exact hh.perm (List.Perm.trans (List.Perm.refl _) (hitems.append_right _).symm)
        · have hindex := h.index
          rw [hf.leaves] at hindex
          simpa using hindex
        · have hord := h.order_insert hf item hat ha hb
          rw [hf.fences, View.marks_focus _ hf.left_length]
          exact hord
        · simp only [length_append] at hroom
          exact forall_mem_splice [_] [_] (hf.leaves ▸ h.fits) (by simp; omega)
        · rw [hitems.length_eq, length_cons, ← h.len]
        · exact forall_mem_splice [_] [_] (hf.leaves ▸ h.filled) (by simp)
    · refine .inr ⟨.heapFull, { m with heap := heap' }, ?_, { h with heap := hh }, rfl, hS⟩
      simp only [OrderedMap.insertAt, hleaf, bind_eq_bind, bind_some, hcount, hroom, if_true, hstore]
  · have hfull : (a ++ b).length = F := le_antisymm hle (not_lt.mp hroom)
    rcases h.insertSplit hF heven hheight hf hk hat ha hb hpath hfull with
      ⟨m', v', root', item, hsplit, hp, hplaced, hep, hrep⟩ | ⟨e, m', hsplit, hrep, hep, href⟩
    · refine .inl ⟨{ m' with len := m'.len + 1, epoch := m'.epoch + 1 }, v', root', item, ?_, hp, hplaced,
        by simp [hep], hrep⟩
      simp only [OrderedMap.insertAt, hleaf, bind_eq_bind, bind_some, hcount, hroom, if_false, hsplit]
    · refine .inr ⟨e, m', ?_, hrep, hep, href⟩
      simp only [OrderedMap.insertAt, hleaf, bind_eq_bind, bind_some, hcount, hroom, if_false, hsplit]

end Order

/-- The one-leaf view of a first insertion. -/
def View.single (id : Nat) (item : Item S) : View S := ⟨[(id, [item])], [], []⟩

theorem Vacant.insertFirst (h : Vacant m) (hF : 8 ≤ F) (hk : S.Admits key) (r : UInt64) :
    (∃ m' id item, m.insertFirst (.ofKey key) r = some (.ok true, m') ∧ item.2 = ⟨key, r⟩ ∧
      m'.epoch = m.epoch + 1 ∧ Rep m' (View.single id item) id) ∨
    ∃ m', m.insertFirst (.ofKey key) r = some (.error .heapFull, m') ∧ Vacant m' ∧ m'.epoch = m.epoch ∧
      S.fixed = false := by
  rcases storeMeta_spec h.heap hk r with ⟨side, heap', hstore, hh⟩ | ⟨heap', hstore, hh, hS⟩
  · rcases h.leaves.alloc ⟨none, [⟨keyPrefix key, side, r⟩]⟩ with ⟨id, leaves', halloc, hown⟩ | ⟨-, hfull⟩
    · let item : Item S := (⟨keyPrefix key, side, r⟩, ⟨key, r⟩)
      refine .inl ⟨{ m with heap := heap', leaves := leaves', root := some id, len := 1, epoch := m.epoch + 1 },
        id, item, ?_, rfl, rfl, ?_⟩
      · have halloc' : m.leaves.alloc ⟨none, [⟨(Probe.ofKey key).pre, side, r⟩]⟩ = some (.ok id, leaves') := halloc
        simp only [OrderedMap.insertFirst, hstore, bind_eq_bind, bind_some, halloc']
      · refine ⟨⟨rfl, h.height.symm, hown, h.internals, hh, ⟨rfl, rfl⟩, ?_, ?_, rfl⟩, ?_, trivial⟩
        · simp [View.marks, View.single, leafMarks, weave]
        · intro leaf hleaf
          obtain rfl := mem_singleton.mp hleaf
          simp only [length_singleton]
          omega
        · intro leaf hleaf
          obtain rfl := mem_singleton.mp hleaf
          simp
    · simp [nodeNone] at hfull
  · refine .inr ⟨{ m with heap := heap' }, ?_, { h with heap := hh }, rfl, hS⟩
    simp only [OrderedMap.insertFirst, hstore, bind_eq_bind, bind_some]

/-- A view with one pair more. Its fences are fences it had or copies of pairs it holds. -/
structure Inserted (v : View S) (p : Pair) (v' : View S) : Prop where
  item : ∃ item, item.2 = p ∧ v'.items.Perm (item :: v.items)
  fences : ∀ f ∈ v'.fences, f ∈ v.fences ∨ f.2 ∈ v'.pairs
  leaves : v'.leaves.length ≤ v.leaves.length + 1

theorem Inserted.pairs_perm {p : Pair} {v' : View S} (h : Inserted v p v') : v'.pairs.Perm (p :: v.pairs) := by
  obtain ⟨item, rfl, hperm⟩ := h.item
  exact hperm.map Prod.snd

theorem Placed.inserted {left right : List (LeafNode S)} {id : Nat} {a b fl fr : List (Item S)} {item : Item S}
    {v' : View S} {root' : Nat} (hf : Focus v left id (a ++ b) right fl fr)
    (h : Placed F v root left id a b right fl fr item v' root') : Inserted v item.2 v' := by
  refine ⟨⟨item, rfl, h.items_perm hf⟩, ?_, ?_⟩
  · cases h with
    | room => exact fun f hfence => .inl hfence
    | split hfull hgrow hroot hsep =>
      intro f hfence
      rw [hf.fences]
      rcases mem_append.mp hfence with hfence | hfence
      · exact .inl (mem_append_left _ hfence)
      rcases mem_cons.mp hfence with rfl | hfence
      · right
        simp only [View.pairs, View.items, flatMap_append, flatMap_cons, map_append]
        exact mem_append_right _ (mem_append_right _ (mem_append_left _ hsep))
      · exact .inl (mem_append_right _ hfence)
  · rw [hf.leaves]
    cases h with
    | room => simp
    | split =>
      simp only [length_append, length_cons]
      omega

theorem Rep.insert_spec (h : Rep m v root) (hF : 8 ≤ F) (heven : F % 2 = 0) (hheight : m.height < maxHeight)
    (hk : S.Admits key) (r : UInt64) : (⟨key, r⟩ ∈ v.pairs ∧ m.insert key r = some (.ok false, m)) ∨
    ⟨key, r⟩ ∉ v.pairs ∧ ((∃ m' v' root', m.insert key r = some (.ok true, m') ∧ Inserted v ⟨key, r⟩ v' ∧
        m'.epoch = m.epoch + 1 ∧ Rep m' v' root') ∨
      ∃ e m', m.insert key r = some (.error e, m') ∧ Rep m' v root ∧ m'.epoch = m.epoch ∧ Refused v e) := by
  obtain ⟨left, id, items, right, fl, fr, path, hf, hdesc, hpath, hat⟩ := h.locate hk r
  obtain ⟨a, b, rfl, hlb, ha, hb, hexact⟩ := h.search hf hk r hat (right.map Prod.fst).head?
  have hrun {res m'} (hins : m.insertAt id a.length (.ofKey key) r path = some (res, m')) (hmem : ⟨key, r⟩ ∉ v.pairs) :
      m.insert key r = some (res.map fun _ => true, m') := by
    simp only [OrderedMap.insert, h.rooted, makeProbe_admits hk, OrderedMap.descend, hheight, if_true, hdesc,
      h.leaf_get hf, hlb, hexact, hmem, decide_false, bind_eq_bind, bind_some, reduceCtorEq,
      if_false, Bool.false_eq_true, hins]
    cases res <;> rfl
  by_cases hmem : (⟨key, r⟩ : Pair) ∈ v.pairs
  · refine .inl ⟨hmem, ?_⟩
    simp only [OrderedMap.insert, h.rooted, makeProbe_admits hk, OrderedMap.descend, hheight, if_true, hdesc,
      h.leaf_get hf, hlb, hexact, hmem, decide_true, bind_eq_bind, bind_some, reduceCtorEq, if_false]
  refine .inr ⟨hmem, ?_⟩
  have hb' : ∀ x ∈ b, ⟨key, r⟩ < x.2 := by
    intro x hx
    refine lt_of_le_of_ne (hb x hx) fun he => hmem ?_
    rw [hf.mem_pairs hat, he]
    exact List.mem_map_of_mem (mem_append_right _ hx)
  rcases h.insertAt hF heven hheight hf hk hat ha hb' hpath with
    ⟨m', v', root', item, hins, hp, hplaced, hep, hrep⟩ | ⟨e, m', hins, hrep, hep, href⟩
  · exact .inl ⟨m', v', root', hrun hins hmem, hp ▸ hplaced.inserted hf, hep, hrep⟩
  · exact .inr ⟨e, m', hrun hins hmem, hrep, hep, href⟩

/-- The rightmost leaf holds the greatest pair. -/
theorem Rep.last_leaf (h : Rep m v root) : ∃ left id init last fl path, Focus v left id (init ++ [last]) [] fl [] ∧
      m.descendFrom (fun node => some node.count) m.height = some (id, path) ∧
      PathAt v.levels path left.length ∧ ∀ p : Pair, (∀ q ∈ v.pairs, q < p) ↔ last.2 < p := by
  obtain ⟨leaf, path, hdesc, hget, hpath⟩ := descend_rightmost h.rooted h.stored h.index
  obtain ⟨left, items, right, fl, fr, hf, hlen, hfl, hfr⟩ := h.focus hget
  obtain rfl : right = [] := by
    have hcount := h.fences_length
    rw [hf.leaves, length_append, length_cons, hlen] at hcount
    exact length_eq_zero_iff.mp (by omega)
  obtain rfl : fr = [] := length_eq_zero_iff.mp hf.right_length.symm
  have hne : items ≠ [] := h.filled (leaf, items) (by rw [hf.leaves]; simp)
  obtain ⟨init, last, rfl⟩ : ∃ init last, items = init ++ [last] :=
    ⟨items.dropLast, items.getLast hne, (dropLast_append_getLast hne).symm⟩
  refine ⟨left, leaf, init, last, fl, path, hf, h.height ▸ hdesc, hlen ▸ hpath, fun p => ?_⟩
  have hsorted := h.pairs_sorted
  have hpairs : v.pairs = (left.flatMap Prod.snd ++ init).map Prod.snd ++ [last.2] := by
    simp [View.pairs, hf.items_eq]
  rw [hpairs] at hsorted ⊢
  constructor
  · intro hall
    exact hall last.2 (by simp)
  · intro hlt q hq
    rcases mem_append.mp hq with hq | hq
    · exact lt_trans ((pairwise_append.mp hsorted).2.2 q hq last.2 (by simp)) hlt
    · rwa [mem_singleton.mp hq]

theorem Rep.append_spec (h : Rep m v root) (hF : 8 ≤ F) (heven : F % 2 = 0) (hheight : m.height < maxHeight)
    (hk : S.Admits key) (r : UInt64) :
    ((¬ ∀ q ∈ v.pairs, q < ⟨key, r⟩) ∧ m.append key r = some (.error .outOfOrder, m)) ∨
    (∀ q ∈ v.pairs, q < ⟨key, r⟩) ∧
      ((∃ left id a fl item m' v' root', Focus v left id a [] fl [] ∧ m.append key r = some (.ok (), m') ∧
        item.2 = ⟨key, r⟩ ∧ Placed F v root left id a [] [] fl [] item v' root' ∧
        m'.epoch = m.epoch + 1 ∧ Rep m' v' root') ∨
      ∃ e m', m.append key r = some (.error (.map e), m') ∧ Rep m' v root ∧ m'.epoch = m.epoch ∧ Refused v e) := by
  obtain ⟨left, id, init, last, fl, path, hf, hdesc, hpath, hmax⟩ := h.last_leaf
  have hcmp := cmpPair_eq (h.leaf_encodes hf last (by simp)) hk r
  have hlast : ((init ++ [last]).map Prod.fst)[(init ++ [last]).length - 1]? = some last.1 := by simp
  by_cases hlt : last.2 < ⟨key, r⟩
  · refine .inr ⟨(hmax _).mpr hlt, ?_⟩
    have hrun {res m'} (hins : m.insertAt id (init ++ [last]).length (.ofKey key) r path = some (res, m')) :
        m.append key r = some ((res.map fun _ => ()).mapError .map, m') := by
      have hord : ordCmp last.2 ⟨key, r⟩ = .lt := ordCmp_eq_lt.mpr hlt
      simp only [OrderedMap.append, h.rooted, makeProbe_admits hk, hheight, if_true, hdesc, h.leaf_get hf,
        Leaf.count, hlast, hcmp, hord, bind_eq_bind, bind_some, reduceCtorEq, if_false, ne_eq,
        not_true_eq_false, length_map, hins]
      cases res <;> rfl
    have ha : ∀ x ∈ init ++ [last], x.2 < ⟨key, r⟩ := by
      intro x hx
      refine (hmax _).mpr hlt x.2 (List.mem_map_of_mem ?_)
      rw [hf.items_eq]
      exact mem_append_left _ (mem_append_right _ hx)
    have hat : At v ⟨key, r⟩ left [] fl [] := by
      have hord := h.order
      rw [hf.marks, append_assoc, pairwise_append] at hord
      refine ⟨fun x hx => ?_, by simp [leafMarks]⟩
      exact (hord.2.2 x hx (entryMark last) (by simp)).trans hlt
    have hf' : Focus v left id ((init ++ [last]) ++ []) [] fl [] := by rwa [append_nil]
    rcases h.insertAt hF heven hheight hf' hk hat ha (by simp) hpath with
      ⟨m', v', root', item, hins, hp, hplaced, hep, hrep⟩ | ⟨e, m', hins, hrep, hep, href⟩
    · exact .inl ⟨left, id, _, fl, item, m', v', root', hf, hrun hins, hp, hplaced, hep, hrep⟩
    · exact .inr ⟨e, m', hrun hins, hrep, hep, href⟩
  · refine .inl ⟨fun hall => hlt ((hmax _).mp hall), ?_⟩
    have hord : ordCmp last.2 ⟨key, r⟩ ≠ .lt := fun he => hlt (ordCmp_eq_lt.mp he)
    simp only [OrderedMap.append, h.rooted, makeProbe_admits hk, hheight, if_true, hdesc, h.leaf_get hf,
      Leaf.count, hlast, hcmp, hord, bind_eq_bind, bind_some, reduceCtorEq, if_false, ne_eq,
      not_false_eq_true, length_map]

end InfinityDB

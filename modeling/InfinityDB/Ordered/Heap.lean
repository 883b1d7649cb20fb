import InfinityDB.Ordered.Key

/-!
# Variable-key heap

Suffix bytes of `VarKey` entries live in one size-classed byte heap. `Custody` says who owns
what: the live suffixes and the free blocks tile the heap without overlap, and the two byte
counters are the sums the blocks imply. Allocation and release keep it and never disturb
another owner's bytes.
-/

namespace InfinityDB

open Lib List

inductive OrderedMapError where
  | heapFull
  | nodeLimit
deriving DecidableEq, Repr

/-- `HEAP_CLASSES`: class `c` holds blocks of `c * 8` bytes. -/
def heapClasses : Nat := orderedKeyMax / 8

structure KeyHeap where
  bytes : Bytes
  free : List (List Nat)
  freeBytes : Nat
  padBytes : Nat
  ceiling : UInt32
deriving DecidableEq, Repr

namespace KeyHeap

def new (ceiling : UInt32) : KeyHeap := ⟨[], [], 0, 0, ceiling⟩

def classOf (suffixLen : Nat) : Nat := (suffixLen + 7) / 8

def get (h : KeyHeap) (addr suffixLen : Nat) : Option Bytes :=
  if addr + suffixLen ≤ h.bytes.length then some ((h.bytes.drop addr).take suffixLen) else none

/-- A bounds-checked `copy_from_slice` into the heap. -/
def write (h : KeyHeap) (addr : Nat) (suffix : Bytes) : Option KeyHeap :=
  if addr + suffix.length ≤ h.bytes.length then
    some { h with bytes := h.bytes.take addr ++ suffix ++ h.bytes.drop (addr + suffix.length) }
  else none

/-- The free lists come into being with the first allocation. -/
def openFree (h : KeyHeap) : KeyHeap :=
  if h.free.isEmpty then { h with free := List.replicate (heapClasses + 1) [] } else h

/-- Copy the suffix into its block and account the class rounding. -/
def fill (h : KeyHeap) (addr : Nat) (suffix : Bytes) : Option (Except OrderedMapError Nat × KeyHeap) := do
  let pad := classOf suffix.length * 8 - suffix.length
  let h ← write { h with padBytes := h.padBytes + pad } addr suffix
  some (.ok addr, h)

/-- Take a block of the class from its free list, or fresh space below the ceiling. The freed
stacks are kept top first. -/
def alloc (h : KeyHeap) (suffix : Bytes) : Option (Except OrderedMapError Nat × KeyHeap) := do
  let cls := classOf suffix.length
  let block := cls * 8
  let h := h.openFree
  match ← h.free[cls]? with
  | addr :: rest =>
    fill { h with free := h.free.set cls rest, freeBytes := h.freeBytes - block } addr suffix
  | [] =>
    let addr := h.bytes.length
    if h.ceiling.toNat < addr + block then some (.error .heapFull, h)
    else fill { h with bytes := h.bytes ++ List.replicate block 0 } addr suffix

def release (h : KeyHeap) (addr suffixLen : Nat) : Option KeyHeap := do
  let cls := classOf suffixLen
  let list ← h.free[cls]?
  some { h with
    free := h.free.set cls (addr :: list)
    freeBytes := h.freeBytes + cls * 8
    padBytes := h.padBytes - (cls * 8 - suffixLen) }

end KeyHeap

/-- A heap block: address and size. -/
abbrev Block := Nat × Nat

def Block.Disjoint (b c : Block) : Prop := b.1 + b.2 ≤ c.1 ∨ c.1 + c.2 ≤ b.1

theorem Block.Disjoint.symm {b c : Block} (h : b.Disjoint c) : c.Disjoint b := Or.symm h

/-- The block a live suffix (address, suffix length) occupies. -/
def liveBlock (owner : Nat × Nat) : Block := (owner.1, KeyHeap.classOf owner.2 * 8)

/-- The blocks on the free lists, the first list being the one of class `k`. -/
def freeBlocksFrom : Nat → List (List Nat) → List Block
  | _, [] => []
  | k, list :: lists => list.map (fun addr => (addr, k * 8)) ++ freeBlocksFrom (k+1) lists

private theorem freeBlocksFrom_split (k cls : Nat) (free : List (List Nat)) (list : List Nat) (h : free[cls]? = some list) :
    ∃ before after, freeBlocksFrom k free = before ++ list.map (fun addr => (addr, (k + cls) * 8)) ++ after ∧
      ∀ list', freeBlocksFrom k (free.set cls list') =
        before ++ list'.map (fun addr => (addr, (k + cls) * 8)) ++ after := by
  induction free generalizing k cls with
  | nil => simp at h
  | cons l free ih =>
    cases cls with
    | zero =>
      have hl : l = list := by simpa using h
      subst hl
      exact ⟨[], freeBlocksFrom (k+1) free, rfl, fun _ => rfl⟩
    | succ cls =>
      obtain ⟨before, after, hfree, hset⟩ := ih (k+1) cls (by simpa using h)
      refine ⟨l.map (fun addr => (addr, k * 8)) ++ before, after, ?_, fun list' => ?_⟩
      · rw [freeBlocksFrom, hfree]
        simp only [append_assoc, add_assoc, add_comm 1]
      · rw [set_cons_succ, freeBlocksFrom, hset list']
        simp only [append_assoc, add_assoc, add_comm 1]

private theorem freeBlocksFrom_replicate (k n : Nat) : freeBlocksFrom k (List.replicate n []) = [] := by
  induction n generalizing k with
  | zero => rfl
  | succ n ih => simp [replicate_succ, freeBlocksFrom, ih]

/-- Live suffixes and free blocks tile the heap. -/
structure KeyHeap.Custody (h : KeyHeap) (live : List (Nat × Nat)) : Prop where
  opened : h.free = [] ∧ live = [] ∨ h.free.length = heapClasses + 1
  sized : ∀ o ∈ live, 1 ≤ o.2 ∧ o.2 ≤ orderedKeyMax - 8
  within : ∀ b ∈ live.map liveBlock ++ freeBlocksFrom 0 h.free, b.1 + b.2 ≤ h.bytes.length
  disjoint : (live.map liveBlock ++ freeBlocksFrom 0 h.free).Pairwise Block.Disjoint
  covered : ((live.map liveBlock ++ freeBlocksFrom 0 h.free).map Prod.snd).sum = h.bytes.length
  freeSum : h.freeBytes = ((freeBlocksFrom 0 h.free).map Prod.snd).sum
  padSum : h.padBytes = (live.map fun o => (liveBlock o).2 - o.2).sum

namespace KeyHeap

theorem custody_new (ceiling : UInt32) : (KeyHeap.new ceiling).Custody [] := by
  constructor <;> simp [KeyHeap.new, freeBlocksFrom]

variable {h h' : KeyHeap} {live : List (Nat × Nat)} {n addr : Nat} {suffix : Bytes}

theorem Custody.perm {live' : List (Nat × Nat)} (hc : h.Custody live) (hp : live.Perm live') : h.Custody live' := by
  have hblocks : (live.map liveBlock ++ freeBlocksFrom 0 h.free).Perm
      (live'.map liveBlock ++ freeBlocksFrom 0 h.free) := (hp.map _).append_right _
  refine ⟨?_, fun o ho => hc.sized o (hp.mem_iff.mpr ho), fun b hb => hc.within b (hblocks.mem_iff.mpr hb),
    (hblocks.pairwise_iff Block.Disjoint.symm).mp hc.disjoint, ?_, hc.freeSum, ?_⟩
  · rcases hc.opened with ⟨hf, rfl⟩ | hf
    · exact .inl ⟨hf, hp.nil_eq.symm⟩
    · exact .inr hf
  · rw [← hc.covered]
    exact ((hblocks.map _).sum_eq).symm
  · rw [hc.padSum]
    exact (hp.map _).sum_eq

theorem classOf_bounds (hn : 1 ≤ n) (hm : n ≤ orderedKeyMax - 8) :
    1 ≤ classOf n ∧ classOf n ≤ heapClasses ∧ n ≤ classOf n * 8 := by
  simp only [classOf, orderedKeyMax, heapClasses] at *
  omega

theorem get_of_within (hw : addr + n ≤ h.bytes.length) : h.get addr n = some ((h.bytes.drop addr).take n) := by
  rw [get, if_pos hw]

theorem write_eq_some (hw : h.write addr suffix = some h') : addr + suffix.length ≤ h.bytes.length ∧
      h' = { h with bytes := h.bytes.take addr ++ suffix ++ h.bytes.drop (addr + suffix.length) } := by
  unfold write at hw
  split at hw
  · next hle => exact ⟨hle, by simpa using hw.symm⟩
  · simp at hw

theorem write_length (hw : h.write addr suffix = some h') : h'.bytes.length = h.bytes.length := by
  obtain ⟨hle, rfl⟩ := write_eq_some hw
  simp only [length_append, length_take, length_drop]
  omega

private theorem get_write_self (hw : h.write addr suffix = some h') : h'.get addr suffix.length = some suffix := by
  have hlen := write_length hw
  obtain ⟨hle, rfl⟩ := write_eq_some hw
  have htake : (h.bytes.take addr).length = addr := by simp only [length_take]; omega
  rw [get_of_within (by rw [hlen]; exact hle)]
  simp only [append_assoc]
  rw [drop_left' htake, take_left' rfl]

private theorem get_write_disjoint {a : Nat}
    (hw : h.write addr suffix = some h') (hd : a + n ≤ addr ∨ addr + suffix.length ≤ a) : h'.get a n = h.get a n := by
  have hlen := write_length hw
  obtain ⟨hle, rfl⟩ := write_eq_some hw
  unfold get
  rw [hlen]
  split
  · next hin =>
    congr 1
    apply ext_getElem?
    intro i
    by_cases hi : i < n
    · simp only [getElem?_take_of_lt hi, getElem?_drop, append_assoc, getElem?_append, length_take]
      rcases hd with hd | hd
      · rw [if_pos (by omega), getElem?_take_of_lt (by omega)]
      · rw [if_neg (by omega), if_neg (by omega)]
        congr 1
        omega
    · simp only [getElem?_take, hi, if_false]
  · rfl

private theorem openFree_bytes (h : KeyHeap) : h.openFree.bytes = h.bytes := by
  unfold openFree
  split <;> rfl

theorem Custody.openFree (hc : h.Custody live) :
    h.openFree.Custody live ∧ h.openFree.free.length = heapClasses + 1 := by
  rcases hc.opened with ⟨hf, rfl⟩ | hf
  · have ho : h.openFree = { h with free := List.replicate (heapClasses + 1) [] } := by
      simp [KeyHeap.openFree, hf]
    rw [ho]
    have hfree : freeBlocksFrom 0 h.free = [] := by rw [hf]; rfl
    have hopen : freeBlocksFrom 0 (List.replicate (heapClasses + 1) []) = [] :=
      freeBlocksFrom_replicate 0 _
    refine ⟨⟨.inr (by simp), hc.sized, ?_, ?_, ?_, ?_, hc.padSum⟩, by simp⟩
    · simp [hopen]
    · simp [hopen]
    · simpa [hopen, hfree] using hc.covered
    · simpa [hopen, hfree] using hc.freeSum
  · have hne : h.free ≠ [] := by
      intro he
      simp [he, heapClasses] at hf
    have ho : h.openFree = h := by simp [KeyHeap.openFree, hne]
    rw [ho]
    exact ⟨hc, hf⟩

/-- Moving one block between the free list of its class and the owners keeps the tiling. -/
private theorem blocks_transfer (live : List (Nat × Nat))
    {rest : List Nat} (hlist : h.free[classOf n]? = some (addr :: rest)) :
    (live.map liveBlock ++ freeBlocksFrom 0 h.free).Perm
      (((addr, n) :: live).map liveBlock ++ freeBlocksFrom 0 (h.free.set (classOf n) rest)) ∧
    ((freeBlocksFrom 0 h.free).map Prod.snd).sum =
      classOf n * 8 + ((freeBlocksFrom 0 (h.free.set (classOf n) rest)).map Prod.snd).sum := by
  obtain ⟨before, after, hfree, hset⟩ := freeBlocksFrom_split 0 (classOf n) h.free _ hlist
  rw [hfree, hset rest]
  constructor
  · apply perm_iff_count.mpr
    intro b
    simp only [map_cons, cons_append, count_append, count_cons, liveBlock, zero_add]
    omega
  · simp only [map_append, map_cons, sum_append, sum_cons, zero_add]
    omega

/-- Once the block is accounted to its new owner, the copy disturbs nobody else. -/
private theorem Custody.fill (live : List (Nat × Nat)) (addr : Nat) (suffix : Bytes)
    (hc : { h with padBytes := h.padBytes + (classOf suffix.length * 8 - suffix.length) }.Custody
      ((addr, suffix.length) :: live)) :
    ∃ h', h.fill addr suffix = some (.ok addr, h') ∧ h'.Custody ((addr, suffix.length) :: live) ∧
      h'.get addr suffix.length = some suffix ∧ ∀ o ∈ live, h'.get o.1 o.2 = h.get o.1 o.2 := by
  have hfits {o : Nat × Nat} (ho : o ∈ (addr, suffix.length) :: live) : o.2 ≤ (liveBlock o).2 :=
    (classOf_bounds (hc.sized o ho).1 (hc.sized o ho).2).2.2
  have hself : addr + suffix.length ≤ h.bytes.length := by
    have hin := hc.within (liveBlock (addr, suffix.length)) (by simp)
    have hfit := hfits (o := (addr, suffix.length)) (by simp)
    simp only [liveBlock] at hin hfit
    omega
  obtain ⟨h', hw⟩ : ∃ h', write { h with
      padBytes := h.padBytes + (classOf suffix.length * 8 - suffix.length) } addr suffix = some h' := by
    simp [write, hself]
  have hlen := write_length hw
  refine ⟨h', by simp [KeyHeap.fill, hw], ?_, get_write_self hw, ?_⟩
  · obtain ⟨-, rfl⟩ := write_eq_some hw
    exact ⟨hc.opened, hc.sized, fun b hb => hlen ▸ hc.within b hb, hc.disjoint,
      hc.covered.trans hlen.symm, hc.freeSum, hc.padSum⟩
  · intro o ho
    have hdis : (liveBlock (addr, suffix.length)).Disjoint (liveBlock o) :=
      (pairwise_cons.mp hc.disjoint).1 _ (mem_append_left _ (mem_map_of_mem ho))
    have hofit := hfits (mem_cons_of_mem _ ho)
    have hfit := hfits (o := (addr, suffix.length)) (by simp)
    have hapart : o.1 + o.2 ≤ addr ∨ addr + suffix.length ≤ o.1 := by
      simp only [Block.Disjoint, liveBlock] at hdis hofit hfit
      omega
    exact (get_write_disjoint hw hapart :)

theorem Custody.alloc (hc : h.Custody live)
    (suffix : Bytes) (hpos : 1 ≤ suffix.length) (hmax : suffix.length ≤ orderedKeyMax - 8) :
    (∃ addr h', h.alloc suffix = some (.ok addr, h') ∧ h'.Custody ((addr, suffix.length) :: live) ∧
      h'.get addr suffix.length = some suffix ∧ ∀ o ∈ live, h'.get o.1 o.2 = h.get o.1 o.2) ∨
    ∃ h', h.alloc suffix = some (.error .heapFull, h') ∧ h'.Custody live ∧ h'.bytes = h.bytes := by
  obtain ⟨hopen, hlen⟩ := hc.openFree
  obtain ⟨-, hclsMax, hfit⟩ := classOf_bounds hpos hmax
  have hidx : classOf suffix.length < h.openFree.free.length := by omega
  have hsized : ∀ addr, ∀ o ∈ (addr, suffix.length) :: live, 1 ≤ o.2 ∧ o.2 ≤ orderedKeyMax - 8 := by
    intro addr o ho
    rcases mem_cons.mp ho with rfl | ho
    · exact ⟨hpos, hmax⟩
    · exact hopen.sized o ho
  have hget : ∀ o : Nat × Nat, h.openFree.get o.1 o.2 = h.get o.1 o.2 := by simp [KeyHeap.get, openFree_bytes]
  have hpad : ∀ addr, h.openFree.padBytes + (classOf suffix.length * 8 - suffix.length) =
      (((addr, suffix.length) :: live).map fun o => (liveBlock o).2 - o.2).sum := by
    intro addr
    rw [hopen.padSum, map_cons, sum_cons, add_comm]
    rfl
  unfold KeyHeap.alloc
  simp only [getElem?_eq_getElem hidx, Option.bind_eq_bind, Option.bind_some]
  cases hlist : h.openFree.free[classOf suffix.length] with
  | cons addr rest =>
    -- a block of the class is recycled: it leaves the free list for the new owner
    left
    obtain ⟨hperm, hsum⟩ := blocks_transfer live (by rw [getElem?_eq_getElem hidx, hlist])
    obtain ⟨h', hfill, hrest⟩ := Custody.fill (h := { h.openFree with
        free := h.openFree.free.set (classOf suffix.length) rest
        freeBytes := h.openFree.freeBytes - classOf suffix.length * 8 })
      live addr suffix
      ⟨.inr (by simpa using hlen), hsized addr, fun b hb => hopen.within b (hperm.mem_iff.mpr hb),
        (hperm.pairwise_iff Block.Disjoint.symm).mp hopen.disjoint, ((hperm.map _).sum_eq).symm.trans hopen.covered,
        by simp only [hopen.freeSum, hsum]; omega, hpad addr⟩
    exact ⟨addr, h', hfill, hrest.1, hrest.2.1, fun o ho => (hrest.2.2 o ho).trans (hget o)⟩
  | nil =>
    by_cases hceil : h.openFree.ceiling.toNat < h.openFree.bytes.length + classOf suffix.length * 8
    · exact .inr ⟨h.openFree, by simp only [hceil, if_true], hopen, openFree_bytes h⟩
    -- fresh space past the last byte: disjoint from every block the heap knows
    left
    simp only [hceil, if_false]
    have hgrown : { h.openFree with
        bytes := h.openFree.bytes ++ List.replicate (classOf suffix.length * 8) 0
        padBytes := h.openFree.padBytes + (classOf suffix.length * 8 - suffix.length) }.Custody
        ((h.openFree.bytes.length, suffix.length) :: live) := by
      refine ⟨.inr hlen, hsized _, ?_, pairwise_cons.mpr ⟨fun b hb => .inr (hopen.within b hb), hopen.disjoint⟩,
        ?_, hopen.freeSum, hpad _⟩
      · intro b hb
        simp only [length_append, length_replicate]
        rcases mem_cons.mp hb with rfl | hb
        · exact Nat.le_refl _
        · exact (hopen.within b hb).trans (Nat.le_add_right _ _)
      · simp only [length_append, length_replicate, ← hopen.covered, map_cons, cons_append, sum_cons, liveBlock]
        omega
    obtain ⟨h', hfill, hrest⟩ := Custody.fill (h := { h.openFree with
      bytes := h.openFree.bytes ++ List.replicate (classOf suffix.length * 8) 0 }) live _ suffix hgrown
    refine ⟨h.openFree.bytes.length, h', hfill, hrest.1, hrest.2.1, fun o ho => ?_⟩
    have hoin : o.1 + classOf o.2 * 8 ≤ h.openFree.bytes.length :=
      hopen.within _ (mem_append_left _ (mem_map_of_mem ho))
    have hofit := (classOf_bounds (hopen.sized o ho).1 (hopen.sized o ho).2).2.2
    rw [hrest.2.2 o ho, ← hget o, get_of_within (by simp only [length_append]; omega),
      get_of_within (by omega), drop_append_of_le_length (by omega),
      take_append_of_le_length (by simp only [length_drop]; omega)]

theorem Custody.release (hc : h.Custody ((addr, n) :: live)) :
    ∃ h', h.release addr n = some h' ∧ h'.Custody live ∧ h'.bytes = h.bytes := by
  obtain ⟨hpos, hmax⟩ : 1 ≤ n ∧ n ≤ orderedKeyMax - 8 := hc.sized (addr, n) (by simp)
  obtain ⟨-, hclsMax, hfit⟩ := classOf_bounds hpos hmax
  have hlen : h.free.length = heapClasses + 1 := by
    rcases hc.opened with ⟨-, h0⟩ | h0
    · simp at h0
    · exact h0
  have hidx : classOf n < h.free.length := by omega
  have hnew : (h.free.set (classOf n) (addr :: h.free[classOf n]))[classOf n]? =
      some (addr :: h.free[classOf n]) := by simp [hidx]
  have hback : (h.free.set (classOf n) (addr :: h.free[classOf n])).set (classOf n) h.free[classOf n] =
      h.free := by simp
  obtain ⟨hperm, hsum⟩ := blocks_transfer live
    (h := { h with free := h.free.set (classOf n) (addr :: h.free[classOf n]) }) hnew
  simp only [hback] at hperm hsum
  refine ⟨{ h with
      free := h.free.set (classOf n) (addr :: h.free[classOf n])
      freeBytes := h.freeBytes + classOf n * 8
      padBytes := h.padBytes - (classOf n * 8 - n) }, ?_, ?_, rfl⟩
  · simp [KeyHeap.release, getElem?_eq_getElem hidx]
  · refine ⟨.inr (by simpa using hlen), (forall_mem_cons.mp hc.sized).2, ?_,
      (hperm.pairwise_iff Block.Disjoint.symm).mpr hc.disjoint, ?_, ?_, ?_⟩
    · intro b hb
      exact hc.within b (hperm.mem_iff.mp hb)
    · rw [← hc.covered]
      exact (hperm.map _).sum_eq
    · simp only
      rw [hsum, hc.freeSum]
      omega
    · simp only
      rw [hc.padSum]
      simp [liveBlock]

end KeyHeap

end InfinityDB

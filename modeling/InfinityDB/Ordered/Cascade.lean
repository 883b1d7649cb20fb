import InfinityDB.Ordered.Levels

/-!
# Separator cascade

A leaf split hands a separator and a right child to the level above; full nodes split in turn.
`Grows` says what the cascade does to the levels. The code follows it, and every property of the
result is read off the relation.
-/

namespace InfinityDB

open Lib List Option OrderedMap

variable {S : KeyScheme} {F : Nat}

namespace INode

/-- A separator and the child to its right, inserted at child `c`. -/
def insertAt (n : INode S) (c : Nat) (sep : Item S) (right : Nat) : INode S :=
  ⟨n.id, n.seps.take c ++ sep :: n.seps.drop c, n.children.take (c+1) ++ right :: n.children.drop (c+1)⟩

def splitLeft (n : INode S) (mid : Nat) : INode S := ⟨n.id, n.seps.take mid, n.children.take (mid+1)⟩

def splitRight (n : INode S) (mid newId : Nat) : INode S :=
  ⟨newId, n.seps.drop (mid+1), n.children.drop (mid+1)⟩

@[simp] theorem insertAt_id (n : INode S) (c : Nat) (sep : Item S) (right : Nat) :
    (n.insertAt c sep right).id = n.id := rfl

@[simp] theorem insertAt_seps_length (n : INode S) (c : Nat) (sep : Item S) (right : Nat) :
    (n.insertAt c sep right).seps.length = n.seps.length + 1 := by
  simp only [insertAt, length_append, length_take, length_cons, length_drop]
  omega

theorem insertAt_children_length {n : INode S} (h : n.children.length = n.seps.length + 1) (c : Nat)
    (sep : Item S) (right : Nat) :
    (n.insertAt c sep right).children.length = (n.insertAt c sep right).seps.length + 1 := by
  rw [insertAt_seps_length]
  simp only [insertAt, length_append, length_take, length_cons, length_drop]
  omega

theorem place_internal {n : INode S} {c : Nat} (sep : Item S) (right : Nat)
    (hc : c ≤ n.seps.length) (hroom : n.seps.length < F - 1) :
    n.internal.place F c sep.1 right = some (n.insertAt c sep right).internal := by
  rw [Internal.place, if_pos ⟨by simpa using hroom, by simpa using hc⟩]
  simp [insertAt, internal, map_take, map_drop]

end INode

/-- The two halves of a split node, the new separator already in its half. -/
def splitInsert (F : Nat) (n : INode S) (c : Nat) (sep : Item S) (right newId : Nat) :
    INode S × INode S :=
  let mid := sepMax F / 2
  if c ≤ mid then ((n.splitLeft mid).insertAt c sep right, n.splitRight mid newId)
  else (n.splitLeft mid, (n.splitRight mid newId).insertAt (c - (mid+1)) sep right)

/-- Threading `(sep, right)` upward from child position `pos`; the last argument is what is
left for a new root. -/
inductive Grows (F : Nat) : List (Level S) → Path → Nat → Item S → Nat → List Nat →
    List (Level S) → Option (Item S × Nat) → Prop
  | top (sep : Item S) (right : Nat) : Grows F [] [] 0 sep right [] [] (some (sep, right))
  | room {left rest : Level S} {n : INode S} {up : List (Level S)} {c : Nat} {path : Path}
      (sep : Item S) (right : Nat) (hc : c ≤ n.seps.length) (hroom : n.seps.length < sepMax F) :
      Grows F ((left ++ n :: rest) :: up) ((n.id, c) :: path)
        ((left.flatMap INode.children).length + c) sep right []
        ((left ++ n.insertAt c sep right :: rest) :: up) none
  | split {left rest : Level S} {n : INode S} {up up' : List (Level S)} {c newId : Nat} {path : Path}
      {planned : List Nat} {leftover : Option (Item S × Nat)} {evicted : Item S}
      (sep : Item S) (right : Nat) (hc : c ≤ n.seps.length) (hfull : n.seps.length = sepMax F)
      (hev : n.seps[sepMax F / 2]? = some evicted)
      (habove : Grows F up path left.length evicted newId planned up' leftover) :
      Grows F ((left ++ n :: rest) :: up) ((n.id, c) :: path)
        ((left.flatMap INode.children).length + c) sep right (newId :: planned)
        ((left ++ (splitInsert F n c sep right newId).1 :: (splitInsert F n c sep right newId).2 :: rest) :: up')
        leftover

variable {levels levels' : List (Level S)} {path : Path} {pos c right root lo : Nat} {internals : Pool (Internal S)}
  {rest : List (Nat × Internal S)} {n : INode S} {planned ids : List Nat} {sep : Item S}
  {leftover : Option (Item S × Nat)} {fences : List (Item S)}

/-- A full ancestor run reads only the nodes on the path. -/
theorem fullRun_congr {internals' : Pool (Internal S)} (hpath : PathAt levels path pos)
    (h : ∀ n ∈ levels.flatten, internals.get n.id = some n.internal)
    (h' : ∀ n ∈ levels.flatten, internals'.get n.id = some n.internal) :
    fullRun F internals path = fullRun F internals' path := by
  induction levels generalizing path pos with
  | nil =>
    obtain ⟨rfl, -⟩ := hpath.nil_inv
    rfl
  | cons level up ih =>
    obtain ⟨left, n, right, c, path, rfl, rfl, -, -, hup⟩ := hpath.cons_inv
    have hrest := ih hup (fun x hx => h x (by simp [hx])) (fun x hx => h' x (by simp [hx]))
    simp only [fullRun, h n (by simp), h' n (by simp), hrest]

abbrev storedNodes (levels : List (Level S)) : List (Nat × Internal S) :=
  levels.flatten.map INode.stored

/-- Some nodes of a level in front, the others of it behind the levels above. -/
theorem storedNodes_perm (left mid right : Level S) (up : List (Level S)) (planned frame : List (Nat × Internal S)) :
    (storedNodes ((left ++ (mid ++ right)) :: up) ++ (planned ++ frame)).Perm
      (mid.map INode.stored ++ (storedNodes up ++ (planned ++ ((left ++ right).map INode.stored ++ frame)))) := by
  classical
  refine perm_iff_count.mpr fun z => ?_
  simp only [storedNodes, flatten_cons, map_append, count_append]
  omega

theorem Owned.stored_get (h : Owned internals (storedNodes levels ++ rest)) :
    ∀ n ∈ levels.flatten, internals.get n.id = some n.internal := by
  intro n hn
  exact h.get (x := n.stored) (mem_append_left _ (List.mem_map_of_mem hn))

theorem splitInternalInto_spec {newId : Nat} {x : Internal S} {evicted : Item S}
    (hown : Owned internals (n.stored :: (newId, x) :: rest)) (hev : n.seps[sepMax F / 2]? = some evicted) :
    ∃ internals', splitInternalInto F internals n.id newId = some (evicted.1, internals') ∧
      Owned internals' ((n.splitLeft (sepMax F / 2)).stored :: (n.splitRight (sepMax F / 2) newId).stored :: rest) := by
  have hne : n.id ≠ newId := hown.ne (y := (newId, x)) (by simp)
  have hgetL : internals.get n.id = some n.internal := hown.get (x := n.stored) (by simp)
  have hgetR : internals.get newId = some x := hown.get (x := (newId, x)) (by simp)
  obtain ⟨i₁, hset₁, hown₁⟩ := (hown.perm (List.Perm.swap _ _ _)).set (n.splitRight (sepMax F / 2) newId).internal
  obtain ⟨i₂, hset₂, hown₂⟩ := (hown₁.perm (List.Perm.swap _ _ _)).set (n.splitLeft (sepMax F / 2)).internal
  refine ⟨i₂, ?_, hown₂⟩
  have hsep : n.internal.seps[sepMax F / 2]? = some evicted.1 := by
    simp [INode.internal, hev]
  have hr : (⟨n.internal.seps.drop (sepMax F / 2 + 1), n.internal.children.drop (sepMax F / 2 + 1)⟩ :
      Internal S) = (n.splitRight (sepMax F / 2) newId).internal := by
    simp [INode.internal, INode.splitRight, map_drop]
  have hl : (⟨n.internal.seps.take (sepMax F / 2), n.internal.children.take (sepMax F / 2 + 1)⟩ :
      Internal S) = (n.splitLeft (sepMax F / 2)).internal := by
    simp [INode.internal, INode.splitLeft, map_take]
  simp only [splitInternalInto, hne, if_false, hgetL, hgetR, bind_eq_bind, bind_some, hsep, hr, hset₁, hl]
  simp [hset₂]

private theorem splitInsert_place {newId : Nat} (sep : Item S) (right : Nat) (hc : c ≤ n.seps.length)
    (hfull : n.seps.length = sepMax F) (hF : 8 ≤ F) (hown : Owned internals ((n.splitLeft (sepMax F / 2)).stored ::
      (n.splitRight (sepMax F / 2) newId).stored :: rest)) : ∃ node node' internals',
      internals.get (if c ≤ sepMax F / 2 then (n.id, c) else (newId, c - (sepMax F / 2 + 1))).1 = some node ∧
      node.place F (if c ≤ sepMax F / 2 then (n.id, c) else (newId, c - (sepMax F / 2 + 1))).2 sep.1 right =
        some node' ∧ internals.set (if c ≤ sepMax F / 2 then (n.id, c) else (newId, c - (sepMax F / 2 + 1))).1 node' =
        some internals' ∧ Owned internals' ((splitInsert F n c sep right newId).1.stored ::
        (splitInsert F n c sep right newId).2.stored :: rest) := by
  have hmax : sepMax F = F - 1 := rfl
  by_cases hmid : c ≤ sepMax F / 2
  · have hlen : (n.splitLeft (sepMax F / 2)).seps.length = sepMax F / 2 := by
      simp only [INode.splitLeft, length_take]
      omega
    obtain ⟨i, hset, hown'⟩ := hown.set ((n.splitLeft (sepMax F / 2)).insertAt c sep right).internal
    simp only [splitInsert, hmid, if_true]
    exact ⟨_, _, i, hown.get (x := (n.splitLeft (sepMax F / 2)).stored) (by simp),
      INode.place_internal sep right (by omega) (by omega), hset, hown'⟩
  · have hlen : (n.splitRight (sepMax F / 2) newId).seps.length = sepMax F - (sepMax F / 2 + 1) := by
      simp only [INode.splitRight, length_drop]
      omega
    obtain ⟨i, hset, hown'⟩ := (hown.perm (List.Perm.swap _ _ _)).set
      ((n.splitRight (sepMax F / 2) newId).insertAt (c - (sepMax F / 2 + 1)) sep right).internal
    simp only [splitInsert, hmid, if_false]
    exact ⟨_, _, i, hown.get (x := (n.splitRight (sepMax F / 2) newId).stored) (by simp),
      INode.place_internal sep right (by omega) (by omega), hset, hown'.perm (List.Perm.swap _ _ _)⟩

/-- The cascade of the code follows `Grows`, through exactly the planned nodes. -/
theorem sepCascade_spec {frame : List (Nat × Internal S)} {grow : Bool} (hF : 8 ≤ F) (hpath : PathAt levels path pos)
    (hown : Owned internals (storedNodes levels ++ (planned.map (fun id => (id, Internal.new)) ++ frame)))
    (hrun : fullRun F internals path = some (planned.length, grow))
    (hcap : ∀ n ∈ levels.flatten, n.seps.length ≤ sepMax F) (sep : Item S) (right : Nat) :
    ∃ levels' leftover internals', Grows F levels path pos sep right planned levels' leftover ∧ leftover.isSome = grow ∧
      sepCascade F internals planned sep.1 right path = some (internals', leftover.map fun x => (x.1.1, x.2)) ∧
      Owned internals' (storedNodes levels' ++ frame) := by
  induction levels generalizing path pos internals frame planned sep right with
  | nil =>
    obtain ⟨rfl, rfl⟩ := hpath.nil_inv
    obtain ⟨hp, rfl⟩ : planned = [] ∧ grow = true := by
      simpa [fullRun, eq_comm, length_eq_zero_iff] using hrun
    subst hp
    exact ⟨[], some (sep, right), internals, .top sep right, rfl, rfl, by simpa using hown⟩
  | cons level up ih =>
    have hget := hown.stored_get
    obtain ⟨left, n, rest, c, path, rfl, rfl, hc, rfl, hup⟩ := hpath.cons_inv
    have hn := hget n (by simp)
    have hfront := storedNodes_perm left [n] rest up (planned.map fun id => (id, Internal.new)) frame
    by_cases hroom : n.seps.length < sepMax F
    · -- the first ancestor with room takes the separator
      have hrun' : some (0, false) = some (planned.length, grow) := by
        rw [← hrun, fullRun]
        simp [hn, hroom]
      obtain ⟨hp, rfl⟩ : planned = [] ∧ grow = false := by
        simpa [eq_comm, length_eq_zero_iff] using hrun'
      subst hp
      obtain ⟨i, hset, hown'⟩ := (hown.perm hfront).set (n.insertAt c sep right).internal
      refine ⟨_, none, i, .room sep right hc hroom, rfl, ?_, hown'.perm
        (storedNodes_perm left [n.insertAt c sep right] rest up [] frame).symm⟩
      simp [sepCascade, hn, hroom, INode.place_internal sep right hc hroom, hset]
    · -- a full ancestor splits through the next planned node and evicts its middle separator
      have hfull : n.seps.length = sepMax F := le_antisymm (hcap n (by simp)) (not_lt.mp hroom)
      have hrun' : (fullRun F internals path).map (fun x => (x.1 + 1, x.2)) = some (planned.length, grow) := by
        rw [← hrun]
        simp only [fullRun, hn, INode.internal_count, hroom, bind_eq_bind, bind_some]
        cases fullRun F internals path <;> rfl
      obtain ⟨⟨k, g⟩, hrest, hk⟩ := map_eq_some_iff.mp hrun'
      simp only [Prod.mk.injEq] at hk
      obtain ⟨hk, rfl⟩ := hk
      obtain ⟨newId, planned, rfl⟩ : ∃ newId planned', planned = newId :: planned' := by
        cases planned with
        | nil => simp at hk
        | cons newId planned => exact ⟨newId, planned, rfl⟩
      obtain rfl : k = planned.length := by simpa using hk
      have hmid : sepMax F / 2 < n.seps.length := by
        have hmax : sepMax F = F - 1 := rfl
        omega
      have hev : n.seps[sepMax F / 2]? = some n.seps[sepMax F / 2] := getElem?_eq_getElem hmid
      have hpair := hfront.trans (List.Perm.cons _ perm_middle)
      obtain ⟨i₁, hsplit, hown₁⟩ := splitInternalInto_spec (hown.perm hpair) hev
      obtain ⟨node, node', i₂, hgetT, hplace, hsetT, hown₂⟩ :=
        splitInsert_place sep right hc hfull hF hown₁
      have hown₃ : Owned i₂ (storedNodes up ++ (planned.map (fun id => (id, Internal.new)) ++
          ((splitInsert F n c sep right newId).1.stored :: (splitInsert F n c sep right newId).2.stored ::
            ((left ++ rest).map INode.stored ++ frame)))) := by
        exact hown₂.perm ((perm_append_comm_assoc [_, _] _ _).trans ((perm_append_comm_assoc [_, _] _ _).append_left _))
      have hrun₃ : fullRun F i₂ path = some (planned.length, g) := by
        rw [← hrest]
        exact fullRun_congr hup hown₃.stored_get fun x hx => hget x (by simp [hx])
      obtain ⟨up', leftover, i₃, hgrow, hlo, hcasc, hown₄⟩ :=
        ih hup hown₃ hrun₃ (fun x hx => hcap x (by simp [hx])) n.seps[sepMax F / 2] newId
      refine ⟨_, leftover, i₃, .split sep right hc hfull hev hgrow, hlo, ?_, hown₄.perm
        ((perm_append_comm_assoc _ [_, _] _).trans (storedNodes_perm left [_, _] rest up' [] frame).symm)⟩
      simp only [sepCascade, hn, INode.internal_count, hroom, if_false, bind_eq_bind, bind_some, hsplit]
      rw [hgetT, bind_some, hplace, bind_some, hsetT, bind_some, hcasc]

/-- Cutting a list and inserting in the half that owns position `c`. -/
theorem cut_insert {α : Type} (xs : List α) (x : α) {cut : Nat} (hcut : cut ≤ xs.length) :
    (c ≤ cut → (xs.take cut).take c ++ x :: (xs.take cut).drop c ++ xs.drop cut = xs.take c ++ x :: xs.drop c) ∧
    (cut ≤ c → xs.take cut ++ ((xs.drop cut).take (c - cut) ++ x :: (xs.drop cut).drop (c - cut)) =
      xs.take c ++ x :: xs.drop c) := by
  obtain ⟨a, b, rfl, ha⟩ : ∃ a b, xs = a ++ b ∧ a.length = cut :=
    ⟨xs.take cut, xs.drop cut, (take_append_drop _ _).symm, by rw [length_take]; omega⟩
  rw [take_left' ha, drop_left' ha]
  constructor
  · intro hle
    rw [take_append_of_le_length (by omega), drop_append_of_le_length (by omega)]
    simp
  · intro hle
    obtain ⟨d, rfl⟩ := Nat.exists_eq_add_of_le hle
    subst ha
    rw [Nat.add_sub_cancel_left, take_length_add_append, drop_length_add_append]
    simp

private theorem splitInsert_seps {evicted : Item S} (sep : Item S) (right newId : Nat)
    (hev : n.seps[sepMax F / 2]? = some evicted) :
    (splitInsert F n c sep right newId).1.seps ++ evicted :: (splitInsert F n c sep right newId).2.seps =
      n.seps.take c ++ sep :: n.seps.drop c := by
  obtain ⟨hlt, hget⟩ := List.getElem?_eq_some_iff.mp hev
  have hdrop : evicted :: n.seps.drop (sepMax F / 2 + 1) = n.seps.drop (sepMax F / 2) := by
    rw [← hget, getElem_cons_drop]
  by_cases hmid : c ≤ sepMax F / 2
  · simp only [splitInsert, hmid, if_true, INode.insertAt, INode.splitLeft, INode.splitRight, hdrop]
    exact (cut_insert n.seps sep hlt.le).1 hmid
  · have htake : n.seps.take (sepMax F / 2) ++ [evicted] = n.seps.take (sepMax F / 2 + 1) := by
      rw [← hget, take_append_getElem]
    simp only [splitInsert, hmid, if_false, INode.insertAt, INode.splitLeft, INode.splitRight]
    rw [← (cut_insert n.seps sep (show sepMax F / 2 + 1 ≤ n.seps.length from hlt)).2 (by omega), ← htake]
    simp

private theorem splitInsert_children (c : Nat) (sep : Item S) (right newId : Nat)
    (hchild : n.children.length = n.seps.length + 1) (hfull : sepMax F ≤ n.seps.length) :
    (splitInsert F n c sep right newId).1.children ++ (splitInsert F n c sep right newId).2.children =
      n.children.take (c+1) ++ right :: n.children.drop (c+1) := by
  have hcut : sepMax F / 2 + 1 ≤ n.children.length := by omega
  by_cases hmid : c ≤ sepMax F / 2
  · simp only [splitInsert, hmid, if_true, INode.insertAt, INode.splitLeft, INode.splitRight]
    exact (cut_insert n.children right hcut).1 (by omega)
  · simp only [splitInsert, hmid, if_false, INode.insertAt, INode.splitLeft, INode.splitRight]
    rw [← (cut_insert n.children right hcut).2 (show sepMax F / 2 + 1 ≤ c + 1 by omega)]
    congr 3 <;> congr 1 <;> omega

private theorem splitInsert_ids (n : INode S) (c : Nat) (sep : Item S) (right newId : Nat) :
    (splitInsert F n c sep right newId).1.id = n.id ∧ (splitInsert F n c sep right newId).2.id = newId := by
  by_cases hmid : c ≤ sepMax F / 2 <;> simp [splitInsert, hmid, INode.insertAt, INode.splitLeft, INode.splitRight]

theorem splitInsert_lengths (c : Nat) (sep : Item S) (right newId : Nat)
    (hfull : n.seps.length = sepMax F) (hF : 8 ≤ F) (hchild : n.children.length = n.seps.length + 1) :
    let halves := splitInsert F n c sep right newId
    halves.1.children.length = halves.1.seps.length + 1 ∧
    halves.2.children.length = halves.2.seps.length + 1 ∧
    sepMin F ≤ halves.1.seps.length ∧ halves.1.seps.length ≤ sepMax F ∧
    sepMax F - (sepMax F / 2 + 1) ≤ halves.2.seps.length ∧ halves.2.seps.length ≤ sepMax F := by
  have hmax : sepMax F = F - 1 := rfl
  have hmin : sepMin F = (F - 1) / 2 := rfl
  by_cases hmid : c ≤ sepMax F / 2
  · simp only [splitInsert, hmid, if_true, INode.insertAt, INode.splitLeft, INode.splitRight,
      length_append, length_take, length_drop, length_cons]
    omega
  · simp only [splitInsert, hmid, if_false, INode.insertAt, INode.splitLeft, INode.splitRight,
      length_append, length_take, length_drop, length_cons]
    omega

/-- Inserting inside the middle of three runs. -/
theorem insert_middle {α : Type} (left mid right : List α) (x : α) (hc : c ≤ mid.length) :
    (left ++ mid ++ right).take (left.length + c) ++ x :: (left ++ mid ++ right).drop (left.length + c) =
      left ++ (mid.take c ++ x :: mid.drop c) ++ right := by
  rw [append_assoc, take_length_add_append, drop_length_add_append,
    take_append_of_le_length hc, drop_append_of_le_length hc]
  simp

/-- The cascade inserts the separator and the child at their position and moves nothing else. -/
theorem Grows.indexes (hF : 8 ≤ F) (hg : Grows F levels path pos sep right planned levels' leftover)
    (hi : Indexes levels ids fences [root] []) : Indexes levels' (ids.take (pos+1) ++ right :: ids.drop (pos+1))
      (fences.take pos ++ sep :: fences.drop pos)
      (root :: leftover.toList.map Prod.snd) (leftover.toList.map Prod.fst) := by
  induction hg generalizing ids fences with
  | top sep right =>
    obtain ⟨rfl, rfl⟩ := hi
    exact ⟨rfl, rfl⟩
  | @room left rest n up c path sep right hc hroom =>
    obtain ⟨upper, hlen, hchild, rfl, rfl, hup⟩ := hi
    obtain ⟨ul, ur, rfl, hul, hur, hopen, hpos⟩ := level_open hlen hchild rfl
    refine ⟨ul ++ ur, by simpa using hlen, ?_, ?_, ?_, by simpa using hup⟩
    · intro x hx
      rcases mem_append.mp hx with hx | hx
      · exact hchild x (by simp [hx])
      · rcases mem_cons.mp hx with rfl | hx
        · exact INode.insertAt_children_length (hchild n (by simp)) c sep right
        · exact hchild x (by simp [hx])
    · have hins := insert_middle (left.flatMap INode.children) n.children (rest.flatMap INode.children)
        right (c := c + 1) (by rw [hchild n (by simp)]; omega)
      simpa [INode.insertAt, add_assoc] using hins
    · rw [hopen, ← hpos, insert_middle _ _ _ sep hc, map_append, map_cons, weave_split _ _ _ (by simpa using hul)]
      rfl
  | @split left rest n up up' c newId path planned leftover evicted sep right hc hfull hev habove ih =>
    obtain ⟨upper, hlen, hchild, rfl, rfl, hup⟩ := hi
    obtain ⟨ul, ur, rfl, hul, hur, hopen, hpos⟩ := level_open hlen hchild rfl
    have habove' := ih hup
    obtain ⟨hid₁, hid₂⟩ := splitInsert_ids (F := F) n c sep right newId
    have hids : ((left ++ n :: rest).map INode.id).take (left.length + 1) ++
        newId :: ((left ++ n :: rest).map INode.id).drop (left.length + 1) =
        (left ++ (splitInsert F n c sep right newId).1 :: (splitInsert F n c sep right newId).2 :: rest).map
          INode.id := by
      have hins := insert_middle (left.map INode.id) [n.id] (rest.map INode.id) newId (c := 1) (by simp)
      simpa [hid₁, hid₂] using hins
    rw [hids, take_left' hul.symm, drop_left' hul.symm] at habove'
    refine ⟨ul ++ evicted :: ur, ?_, ?_, ?_, ?_, habove'⟩
    · simp only [length_append, length_cons] at hlen ⊢
      omega
    · obtain ⟨hlen₁, hlen₂, -⟩ := splitInsert_lengths c sep right newId hfull hF (hchild n (by simp))
      exact forall_mem_splice [n] [_, _] hchild (by simp [hlen₁, hlen₂])
    · have hins := insert_middle (left.flatMap INode.children) n.children (rest.flatMap INode.children)
        right (c := c + 1) (by rw [hchild n (by simp)]; omega)
      have hkids := splitInsert_children (F := F) c sep right newId (hchild n (by simp)) hfull.ge
      rw [← hkids] at hins
      simpa [add_assoc] using hins
    · rw [hopen, ← hpos, insert_middle _ _ _ sep hc, ← splitInsert_seps sep right newId hev,
        map_append, map_cons, map_cons, weave_split _ _ _ (by simpa using hul), weaveR_cons]
      simp

theorem Grows.length (hg : Grows F levels path pos sep right planned levels' leftover) :
    levels'.length = levels.length := by
  induction hg with
  | top | room => rfl
  | split _ _ _ _ _ _ ih => simp [ih]

/-- Separator counts: at most `SEP_MAX`, and at least `SEP_MIN` below the topmost level, whose
nodes have at least `lo`. -/
def Occupied (F lo : Nat) : List (Level S) → Prop
  | [] => True
  | level :: up =>
    (∀ n ∈ level, (if up.isEmpty then lo else sepMin F) ≤ n.seps.length ∧ n.seps.length ≤ sepMax F) ∧
      Occupied F lo up

theorem Occupied.cap (h : Occupied F lo levels) : ∀ n ∈ levels.flatten, n.seps.length ≤ sepMax F := by
  induction levels with
  | nil => simp
  | cons level up ih =>
    intro n hn
    rw [flatten_cons] at hn
    rcases mem_append.mp hn with hn | hn
    · exact (h.1 n hn).2
    · exact ih h.2 n hn

theorem Occupied.one_le {level : Level S} {up : List (Level S)} (h : Occupied F 1 (level :: up)) (hF : 8 ≤ F) {n : INode S}
    (hn : n ∈ level) : 1 ≤ n.seps.length := by
  have hmin : sepMin F = (F - 1) / 2 := rfl
  refine le_trans ?_ (h.1 n hn).1
  split <;> omega

/-- Separator counts a node other than the root may have. -/
def INode.InRange (F : Nat) (n : INode S) : Prop := sepMin F ≤ n.seps.length ∧ n.seps.length ≤ sepMax F

/-- The topmost level is the root alone, so a node with a neighbour has the full minimum. -/
theorem Occupied.neighbour {left right : Level S} {up : List (Level S)} (h : Occupied F lo ((left ++ n :: right) :: up))
    (hi : Indexes ((left ++ n :: right) :: up) ids fences [root] []) : ∀ x ∈ left ++ right, x.InRange F := by
  intro x hx
  have hx' := h.1 x (by rcases mem_append.mp hx with h | h <;> simp [h])
  cases up with
  | nil =>
    obtain ⟨-, -, -, -, -, hone, -⟩ := hi
    have hlen := congrArg List.length hone
    simp only [map_append, map_cons, length_append, length_cons, length_map, length_nil] at hlen
    have hnil : left ++ right = [] := by
      rw [← length_eq_zero_iff, length_append]
      omega
    simp [hnil] at hx
  | cons => simpa [INode.InRange] using hx'

/-- A node may be swapped for one with as many separators. -/
theorem Occupied.swap {left right : Level S} {n' : INode S} {up : List (Level S)}
    (h : Occupied F lo ((left ++ n :: right) :: up)) (hn : n'.seps.length = n.seps.length) :
    Occupied F lo ((left ++ n' :: right) :: up) := by
  refine ⟨forall_mem_splice [n] [n'] h.1 (forall_mem_singleton.mpr ?_), h.2⟩
  rw [hn]
  exact h.1 n (by simp)

/-- A cascade that stops keeps the occupancy; one that splits every level leaves two full-fledged
nodes at the top. -/
theorem Grows.occupied (hF : 8 ≤ F) (heven : F % 2 = 0)
    (hg : Grows F levels path pos sep right planned levels' leftover) (ho : Occupied F 1 levels)
    (hi : Indexes levels ids fences [root] []) : Occupied F (if leftover.isSome then sepMin F else 1) levels' := by
  have hmin : sepMin F = (F - 1) / 2 := rfl
  have hmax : sepMax F = F - 1 := rfl
  induction hg generalizing ids fences with
  | top => trivial
  | @room left rest n up c path sep right hc hroom =>
    refine ⟨forall_mem_splice [n] [_] ho.1 (forall_mem_singleton.mpr ?_), ho.2⟩
    rw [INode.insertAt_seps_length]
    exact ⟨(ho.1 n (by simp)).1.trans (Nat.le_succ _), hroom⟩
  | @split left rest n up up' c newId path planned leftover evicted sep right hc hfull hev habove ih =>
    obtain ⟨upper, hlen, hchild, -, -, hup⟩ := id hi
    obtain ⟨-, -, hlo₁, hhi₁, hlo₂, hhi₂⟩ := splitInsert_lengths c sep right newId hfull hF (hchild n (by simp))
    have hfloor : (if up'.isEmpty then (if leftover.isSome then sepMin F else 1) else sepMin F) ≤ sepMin F := by
      split_ifs <;> omega
    have hold := ho.neighbour hi
    refine ⟨forall_mem_splice [] [_, _] (fun x hx => ⟨hfloor.trans (hold x hx).1, (hold x hx).2⟩) ?_, ih ho.2 hup⟩
    exact forall_mem_cons.mpr ⟨⟨hfloor.trans hlo₁, hhi₁⟩, forall_mem_singleton.mpr ⟨hfloor.trans (by omega), hhi₂⟩⟩

end InfinityDB

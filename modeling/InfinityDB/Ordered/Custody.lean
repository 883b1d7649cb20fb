import InfinityDB.Ordered.Balance

/-!
# Custody of the suffix blocks

An owner is a slot of the tree, a leaf entry or a separator, together with the pair it was stored
for. Along a run the owners are put on record: an owner stays as it is until its slot leaves the
tree, and a new one is the entry of the call's pair or a copy of a pair the map holds. After every
call the recorded slots are the tree's, each block holds its owner's suffix, and the owned and the
free blocks tile the heap.
-/

namespace InfinityDB

open Lib List OrderedMap

variable {S : KeyScheme} {F : Nat}

namespace OrderedMap

def leafSlots (m : OrderedMap S F) : Option (List (Slot S)) := do
  let ids ← m.idsAt m.height
  let leaves ← ids.mapM m.leaves.get
  some (leaves.flatMap Leaf.slots)

def sepSlots (m : OrderedMap S F) : Option (List (Slot S)) := do
  let ids ← m.internalIds
  let nodes ← ids.mapM m.internals.get
  some (nodes.flatMap Internal.seps)

end OrderedMap

/-- The slots of the tree and the pairs they were stored for; the heap holds exactly their suffixes. -/
structure Owners (m : OrderedMap S F) (entries seps : List (Item S)) : Prop where
  leafSlots : m.leafSlots = some (entries.map Prod.fst)
  sepSlots : m.sepSlots = some (seps.map Prod.fst)
  heap : Holds m.heap (entries ++ seps)

/-- A run with its owners on record. A call that changes nothing, a refused one among them, leaves
every owner and its block alone. -/
inductive Recorded (ceiling : UInt32) : List Call → OrderedMap S F → List (Item S) → List (Item S) → Prop
  | new : Recorded ceiling [] (OrderedMap.new S F ceiling) [] []
  | kept {calls : List Call} {call : Call} {reply : Reply} {m m' : OrderedMap S F} {entries seps : List (Item S)}
      (h : Recorded ceiling calls m entries seps) (hstep : m.step call = some (reply, m'))
      (hreply : reply.changed = false) (howners : Owners m' entries seps) :
      Recorded ceiling (calls ++ [call]) m' entries seps
  | changed {calls : List Call} {call : Call} {reply : Reply} {m m' : OrderedMap S F}
      {entries seps entries' seps' : List (Item S)} (h : Recorded ceiling calls m entries seps)
      (hstep : m.step call = some (reply, m')) (hreply : reply.changed = true) (howners : Owners m' entries' seps')
      (hentries : Exchange call entries entries')
      (hseps : ∀ sep ∈ seps', sep ∈ seps ∨ sep.2 ∈ entries.map Prod.snd ∨ sep.2 ∈ entries'.map Prod.snd) :
      Recorded ceiling (calls ++ [call]) m' entries' seps'

/-- The separators in the order of the walk; the fences are the same ones in key order. -/
def View.seps (v : View S) : List (Item S) := v.levels.reverse.flatten.flatMap INode.seps

def Backing.seps : Backing S → List (Item S)
  | none => []
  | some (v, _) => v.seps

section View
variable {m : OrderedMap S F} {v : View S} {root : Nat}

theorem Indexes.fences_perm {levels : List (Level S)} {ids : List Nat} {fences : List (Item S)}
    (h : Indexes levels ids fences [root] []) : fences.Perm (levels.flatten.flatMap INode.seps) := by
  induction levels generalizing ids fences with
  | nil =>
    obtain ⟨-, rfl⟩ := h
    exact List.Perm.refl _
  | cons level up ih =>
    obtain ⟨upper, hlen, -, -, rfl, hup⟩ := h
    have hweave := weave_perm (show (level.map INode.seps).length = upper.length + 1 by rw [length_map, hlen])
    rw [flatten_cons, flatMap_append]
    exact hweave.trans ((ih hup).append_left _)

theorem Shape.seps_perm (h : Shape m v root) : v.fences.Perm v.seps := by
  refine h.index.fences_perm.trans (List.Perm.flatMap_right _ ?_)
  exact (List.Perm.flatten v.levels.reverse_perm).symm

theorem Shape.leafSlots_eq (h : Shape m v root) : m.leafSlots = some (v.items.map Prod.fst) := by
  have hnodes : (v.leaves.map Prod.fst).mapM m.leaves.get = some ((chainNodes v.leaves).map Prod.snd) := by
    rw [← chainTo_ids none v.leaves]
    exact mapM_stored Prod.fst Prod.snd fun x hx => h.leaves.get hx
  have hslots (next : Option Nat) (leaves : List (LeafNode S)) :
      ((chainTo next leaves).map Prod.snd).flatMap Leaf.slots = (leaves.flatMap Prod.snd).map Prod.fst := by
    induction leaves with
    | nil => rfl
    | cons leaf rest ih => rw [chainTo, map_cons, flatMap_cons, ih, flatMap_cons, map_append]
  rw [leafSlots, run_bind h.idsAt_leaves, run_bind hnodes, hslots]
  rfl

theorem Shape.sepSlots_eq (h : Shape m v root) : m.sepSlots = some (v.seps.map Prod.fst) := by
  have hnodes : (v.levels.reverse.flatten.map INode.id).mapM m.internals.get =
      some (v.levels.reverse.flatten.map INode.internal) :=
    mapM_stored INode.id INode.internal fun n hn =>
      h.stored n ((List.Perm.flatten v.levels.reverse_perm).mem_iff.mp hn)
  rw [sepSlots, run_bind h.internalIds_eq, run_bind hnodes, View.seps, flatMap_map, map_flatMap]
  rfl

end View

section Run
variable {m : OrderedMap S F} {V : Backing S} {ceiling : UInt32}

theorem Backs.owners (h : Backs m V) : Owners m V.entries V.seps := by
  match V, h with
  | none, h =>
    have hids := Vacant.accounted h
    refine ⟨?_, ?_, Vacant.heap h⟩
    · rw [leafSlots, run_bind hids.leaves]
      rfl
    · rw [sepSlots, run_bind hids.internals]
      rfl
  | some (v, root), h =>
    have hshape := Rep.toShape h
    exact ⟨hshape.leafSlots_eq, hshape.sepSlots_eq, hshape.heap.perm (hshape.seps_perm.append_left _)⟩

theorem Backs.mem_seps (h : Backs m V) {sep : Item S} : sep ∈ V.seps ↔ sep ∈ V.fences := by
  match V, h with
  | none, _ => rfl
  | some (v, root), h => exact (Rep.toShape h).seps_perm.mem_iff.symm

theorem Backing.pairs_eq (V : Backing S) : V.pairs = V.entries.map Prod.snd := by
  cases V <;> rfl

/-- One call more on record. -/
theorem Recorded.step {calls : List Call} {call : Call} {reply : Reply} {m' : OrderedMap S F}
    (hrec : Recorded ceiling calls m V.entries V.seps) (h : Backs m V) (hF : 8 ≤ F) (heven : F % 2 = 0)
    (hstep : m.step call = some (reply, m')) :
    ∃ V', Backs m' V' ∧ Recorded ceiling (calls ++ [call]) m' V'.entries V'.seps := by
  obtain ⟨V', -, h', hmoved⟩ := h.step_of_some hF heven hstep
  refine ⟨V', h', ?_⟩
  rcases hmoved with ⟨hreply, -, rfl⟩ | ⟨hreply, -, hex⟩
  · exact .kept hrec hstep hreply h'.owners
  · refine .changed hrec hstep hreply h'.owners hex.entries fun sep hsep => ?_
    rw [← Backing.pairs_eq, ← Backing.pairs_eq, h.mem_seps]
    exact hex.fences sep (h'.mem_seps.mp hsep)

theorem Recorded.run {before calls : List Call} {replies : List Reply} {m' : OrderedMap S F}
    (hrec : Recorded ceiling before m V.entries V.seps) (h : Backs m V) (hF : 8 ≤ F) (heven : F % 2 = 0)
    (hrun : m.run calls = some (replies, m')) :
    ∃ V', Backs m' V' ∧ Recorded ceiling (before ++ calls) m' V'.entries V'.seps := by
  induction calls generalizing m V before replies with
  | nil =>
    obtain ⟨-, rfl⟩ : [] = replies ∧ m = m' := by simpa [OrderedMap.run] using hrun
    exact ⟨V, h, by rwa [append_nil]⟩
  | cons call calls ih =>
    obtain ⟨reply, m₁, rest, hstep, hrest, -⟩ := run_cons_inv hrun
    obtain ⟨V₁, h₁, hrec₁⟩ := hrec.step h hF heven hstep
    obtain ⟨V', h', hrec'⟩ := ih hrec₁ h₁ hrest
    exact ⟨V', h', by rwa [append_assoc] at hrec'⟩

end Run

/-- After any run of a variable-key map there is a record of owners that reaches the state: the
recorded slots are the tree's, every block is owned by one of them or free, and every node is in the
tree or free. -/
theorem suffix_custody {F : Nat} (hF : 8 ≤ F) (heven : F % 2 = 0) (ceiling : UInt32) {calls : List Call}
    {replies : List Reply} {m : OrderedMap .varKey F}
    (hrun : (OrderedMap.new .varKey F ceiling).run calls = some (replies, m)) :
    (∃ entries seps, Recorded ceiling calls m entries seps ∧ Owners m entries seps) ∧
      ∃ leafIds internalIds, Accounted m leafIds internalIds := by
  obtain ⟨V, h, hrec⟩ := Recorded.run (V := none) .new (backs_new .varKey F ceiling) hF heven hrun
  exact ⟨⟨V.entries, V.seps, hrec, h.owners⟩, h.accounted⟩

theorem suffix_custody_refused : ∃ replies m, (OrderedMap.new .varKey 8 8).run
    [.insert ⟨[3, 1, 0, 0, 0, 0, 0, 0, 0, 4], 1⟩, .insert ⟨[3, 1, 0, 0, 0, 0, 0, 0, 0, 4], 2⟩] = some (replies, m) ∧
    ∃ entries seps, Recorded 8 [.insert ⟨[3, 1, 0, 0, 0, 0, 0, 0, 0, 4], 1⟩, .insert ⟨[3, 1, 0, 0, 0, 0, 0, 0, 0, 4], 2⟩] m
      entries seps ∧ Owners m entries seps := by
  obtain ⟨⟨replies, m⟩, hrun⟩ := Option.isSome_iff_exists.mp (show ((OrderedMap.new .varKey 8 8).run
    [.insert ⟨[3, 1, 0, 0, 0, 0, 0, 0, 0, 4], 1⟩, .insert ⟨[3, 1, 0, 0, 0, 0, 0, 0, 0, 4], 2⟩]).isSome = true by
      decide +kernel)
  exact ⟨replies, m, hrun, (suffix_custody (by decide) (by decide) 8 hrun).1⟩

end InfinityDB

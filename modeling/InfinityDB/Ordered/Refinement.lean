import InfinityDB.Ordered.Insert
import InfinityDB.Ordered.Remove

/-!
# Refinement of a sorted set

The map answers every call as a set of pairs would, apart from capacity refusals, and its leaf
chain lists that set in ascending order. The one thing that can stop it is the bound on the
height of the descent path, which is out of reach of the node-id space from fanout 10 on.
-/

namespace InfinityDB

open List Option

open OrderedMap

variable {S : KeyScheme} {F : Nat}

inductive Call where
  | insert (pair : Pair)
  | append (pair : Pair)
  | remove (pair : Pair)
  | contains (pair : Pair)
deriving DecidableEq

def Call.pair : Call → Pair
  | .insert pair | .append pair | .remove pair | .contains pair => pair

inductive Reply where
  | inserted (result : Except OrderedMapError Bool)
  | appended (result : Except AppendError Unit)
  | removed (result : Bool)
  | contained (result : Bool)

def Reply.changed : Reply → Bool
  | .inserted (.ok result) => result
  | .appended (.ok _) => true
  | .removed result => result
  | _ => false

namespace OrderedMap

def step (m : OrderedMap S F) : Call → Option (Reply × OrderedMap S F)
  | .insert pair => do
    let (result, m) ← m.insert pair.key pair.entryRef
    some (.inserted result, m)
  | .append pair => do
    let (result, m) ← m.append pair.key pair.entryRef
    some (.appended result, m)
  | .remove pair => do
    let (result, m) ← m.remove pair.key pair.entryRef
    some (.removed result, m)
  | .contains pair => do
    let result ← m.contains pair.key pair.entryRef
    some (.contained result, m)

def run (m : OrderedMap S F) : List Call → Option (List Reply × OrderedMap S F)
  | [] => some ([], m)
  | call :: calls => do
    let (reply, m) ← m.step call
    let (replies, m) ← m.run calls
    some (reply :: replies, m)

/-- The pairs of the leaves from one id on. -/
def chainFrom (m : OrderedMap S F) : Nat → Option Nat → Option (List Pair)
  | _, none => some []
  | 0, some _ => none
  | fuel + 1, some id => do
    let leaf ← m.leaves.get id
    let pairs ← leaf.slots.mapM fun slot => do
      let key ← slotKey m.heap slot
      some (⟨key, slot.entryRef⟩ : Pair)
    let rest ← m.chainFrom fuel leaf.next
    some (pairs ++ rest)

/-- The leaf chain walked from the leftmost leaf; a chain has no more leaves than the pool. -/
def leafChain (m : OrderedMap S F) : Option (List Pair) := do
  let first ← m.leftmostLeaf
  m.chainFrom m.leaves.nodes.length first

end OrderedMap

/-- The contract of a sorted set with room for refusals: what a call may reply and the set after. -/
inductive Answers : Finset Pair → Call → Reply → Finset Pair → Prop
  | inserted {s : Finset Pair} {p : Pair} (h : p ∉ s) :
      Answers s (.insert p) (.inserted (.ok true)) (insert p s)
  | present {s : Finset Pair} {p : Pair} (h : p ∈ s) : Answers s (.insert p) (.inserted (.ok false)) s
  | insertRefused {s : Finset Pair} {p : Pair} (e : OrderedMapError) (h : p ∉ s) :
      Answers s (.insert p) (.inserted (.error e)) s
  | appended {s : Finset Pair} {p : Pair} (h : ∀ q ∈ s, q < p) :
      Answers s (.append p) (.appended (.ok ())) (insert p s)
  | outOfOrder {s : Finset Pair} {p : Pair} (h : ¬ ∀ q ∈ s, q < p) :
      Answers s (.append p) (.appended (.error .outOfOrder)) s
  | appendRefused {s : Finset Pair} {p : Pair} (e : OrderedMapError) (h : ∀ q ∈ s, q < p) :
      Answers s (.append p) (.appended (.error (.map e))) s
  | removed {s : Finset Pair} {p : Pair} : Answers s (.remove p) (.removed (decide (p ∈ s))) (s.erase p)
  | contained {s : Finset Pair} {p : Pair} : Answers s (.contains p) (.contained (decide (p ∈ s))) s

variable {call : Call} {reply : Reply} {root : Nat} {m m' : OrderedMap S F} {calls : List Call}

/-- A call brings in no pair but its own. -/
theorem Answers.subset {s s' : Finset Pair} (h : Answers s call reply s') : ∀ p ∈ s', p = call.pair ∨ p ∈ s := by
  intro p hp
  cases h with
  | inserted | appended => exact Finset.mem_insert.mp hp
  | present | insertRefused | outOfOrder | appendRefused | contained => exact .inr hp
  | removed => exact .inr (Finset.mem_of_mem_erase hp)

inductive AnswersAll : Finset Pair → List Call → List Reply → Finset Pair → Prop
  | nil (s : Finset Pair) : AnswersAll s [] [] s
  | cons {s s' s'' : Finset Pair} {call : Call} {reply : Reply} {calls : List Call} {replies : List Reply}
      (h : Answers s call reply s') (hs : AnswersAll s' calls replies s'') :
      AnswersAll s (call :: calls) (reply :: replies) s''

/-- The leaf chain lists the set in ascending order and `len` counts it. -/
structure Lists (m : OrderedMap S F) (s : Finset Pair) (chain : List Pair) : Prop where
  walk : m.leafChain = some chain
  ascending : chain.Pairwise (· < ·)
  exact : chain.toFinset = s
  len : m.len = s.card

section Chain
variable {m : OrderedMap S F} {v : View S} {root : Nat}

private theorem emit_items {heap : KeyHeap} {items : List (Item S)} (h : ∀ item ∈ items, item.1.Encodes heap item.2) :
    ((items.map Prod.fst).mapM fun slot => do
      let key ← slotKey heap slot
      some (⟨key, slot.entryRef⟩ : Pair)) = some (items.map Prod.snd) := by
  induction items with
  | nil => rfl
  | cons item items ih =>
    have hitem := h item (by simp)
    rw [map_cons, mapM_cons, run_bind (show _ = some item.2 by rw [run_bind (slotKey_eq hitem), hitem.entryRef]),
      run_bind (ih (forall_mem_cons.mp h).2)]
    rfl

/-- The walk from any leaf of the chain lists what is left of it. -/
theorem Shape.chainFrom_eq (h : Shape m v root) {left right : List (LeafNode S)} (hv : v.leaves = left ++ right)
    {fuel : Nat} (hfuel : right.length ≤ fuel) :
    m.chainFrom fuel (right.map Prod.fst).head? = some ((right.flatMap Prod.snd).map Prod.snd) := by
  induction right generalizing left fuel with
  | nil => cases fuel <;> rfl
  | cons leaf right ih =>
    obtain ⟨fuel, rfl⟩ : ∃ k, fuel = k + 1 := ⟨fuel - 1, by simp at hfuel; omega⟩
    obtain ⟨id, items⟩ := leaf
    have henc : ∀ item ∈ items, item.1.Encodes m.heap item.2 := by
      intro item hi
      refine h.encodes item (mem_append_left _ ?_)
      simp [View.items, hv, hi]
    have hrest := @ih (left ++ [(id, items)]) (by simp [hv]) fuel (by simpa using hfuel)
    rw [map_cons, head?_cons, chainFrom, run_bind (h.get_leaf hv), run_bind (emit_items henc), run_bind hrest]
    simp

theorem Shape.leafChain_eq (h : Shape m v root) : m.leafChain = some v.pairs := by
  obtain ⟨first, path, hdesc, hget, -⟩ := descend_leftmost h.rooted h.stored h.index
  have hleft : m.leftmostLeaf = some (v.leaves.map Prod.fst).head? := by
    rw [leftmostLeaf, if_neg (by simp [h.rooted]), ← h.height, run_bind hdesc, head?_eq_getElem?, hget]
  have hfuel : v.leaves.length ≤ m.leaves.nodes.length := by
    have hids := h.leaves.ids.length_eq
    simp only [length_append, length_map, chainTo_length, length_range] at hids
    omega
  rw [leafChain, run_bind hleft]
  exact h.chainFrom_eq (nil_append _).symm hfuel

end Chain

/-- What backs a map: nothing while it is empty, else a view and its root. -/
abbrev Backing (S : KeyScheme) := Option (View S × Nat)

def Backs (m : OrderedMap S F) : Backing S → Prop
  | none => Vacant m
  | some (v, root) => Rep m v root

def Backing.entries : Backing S → List (Item S)
  | none => []
  | some (v, _) => v.items

def Backing.fences : Backing S → List (Item S)
  | none => []
  | some (v, _) => v.fences

def Backing.pairs : Backing S → List Pair
  | none => []
  | some (v, _) => v.pairs

def Backing.set (V : Backing S) : Finset Pair := V.pairs.toFinset

section Step
variable {m : OrderedMap S F} {V : Backing S}

theorem backs_new (S : KeyScheme) (F : Nat) (ceiling : UInt32) : Backs (OrderedMap.new S F ceiling) none :=
  vacant_new S F ceiling

theorem Backs.sorted (h : Backs m V) : V.pairs.Pairwise (· < ·) := by
  match V, h with
  | none, _ => exact List.Pairwise.nil
  | some (v, root), h => exact (Rep.toShape h).pairs_sorted

theorem Backs.lists (h : Backs m V) : Lists m V.set V.pairs := by
  refine ⟨?_, h.sorted, rfl, ?_⟩
  · match V, h with
    | none, h =>
      rw [leafChain, run_bind (show m.leftmostLeaf = some none by rw [leftmostLeaf, if_pos (Vacant.root h)])]
      cases m.leaves.nodes.length <;> rfl
    | some (v, root), h => exact Shape.leafChain_eq (Rep.toShape h)
  · rw [Backing.set, toFinset_card_of_nodup (h.sorted.imp fun h => ne_of_lt h)]
    match V, h with
    | none, h => exact Vacant.len h
    | some (v, root), h =>
      rw [show m.len = v.items.length from (Rep.toShape h).len, Backing.pairs, View.pairs, length_map]

/-- The entries around a call that changed the map. -/
def Exchange : Call → List (Item S) → List (Item S) → Prop
  | .insert p, entries, entries' | .append p, entries, entries' => ∃ item, item.2 = p ∧ entries'.Perm (item :: entries)
  | .remove p, entries, entries' => ∃ item, item.2 = p ∧ entries.Perm (item :: entries')
  | .contains _, _, _ => False

/-- The fences after a change are fences from before it or copies of pairs held then or since. -/
structure Exchanged (call : Call) (V V' : Backing S) : Prop where
  entries : Exchange call V.entries V'.entries
  fences : ∀ f ∈ V'.fences, f ∈ V.fences ∨ f.2 ∈ V.pairs ∨ f.2 ∈ V'.pairs

/-- A call moved on: either the structure is the one it was, or the reply and the epoch tell. -/
def Moved (call : Call) (m m' : OrderedMap S F) (V V' : Backing S) (reply : Reply) : Prop :=
  reply.changed = false ∧ m'.epoch = m.epoch ∧ V' = V ∨
    reply.changed = true ∧ m'.epoch = m.epoch + 1 ∧ Exchanged call V V'

variable {p : Pair}

theorem toFinset_perm_cons {l l' : List Pair} (h : l'.Perm (p :: l)) : l'.toFinset = insert p l.toFinset := by
  rw [toFinset_eq_of_perm _ _ h, toFinset_cons]

theorem Inserted.exchanged {v v' : View S} {root root' : Nat} (h : Inserted v p v') (call : Pair → Call)
    (hcall : ∀ entries entries' : List (Item S), (∃ item, item.2 = p ∧ entries'.Perm (item :: entries)) →
      Exchange (call p) entries entries') : Exchanged (call p) (some (v, root)) (some (v', root')) :=
  ⟨hcall _ _ h.item, fun f hf => (h.fences f hf).imp_right .inr⟩

theorem set_single {id : Nat} {item : Item S} (hp : item.2 = p) :
    Backing.set (some (View.single id item, id)) = insert p (Backing.set (none : Backing S)) := by
  simp [Backing.set, Backing.pairs, View.pairs, View.items, View.single, hp]

theorem Inserted.set {v v' : View S} (h : Inserted v p v') (root root' : Nat) :
    Backing.set (some (v', root')) = insert p (Backing.set (some (v, root))) :=
  toFinset_perm_cons h.pairs_perm

theorem Backs.insert_step (h : Backs m V) (hF : 8 ≤ F) (heven : F % 2 = 0) (hheight : m.height < maxHeight)
    (hk : S.Admits p.key) :
    ∃ reply m' V', m.step (.insert p) = some (reply, m') ∧ Answers V.set (.insert p) reply V'.set ∧
      Backs m' V' ∧ Moved (.insert p) m m' V V' reply := by
  match V, h with
  | none, h =>
    have hstart : m.insert p.key p.entryRef = m.insertFirst (.ofKey p.key) p.entryRef := by
      rw [OrderedMap.insert, run_bind (makeProbe_admits hk), if_pos (Vacant.root h)]
    rcases Vacant.insertFirst h hF hk p.entryRef with ⟨m', id, item, hrun, hp, hep, hrep⟩ | ⟨m', hrun, hvac, hep, -⟩
    · refine ⟨_, m', some (View.single id item, id), by rw [OrderedMap.step, run_bind (hstart.trans hrun)], ?_, hrep,
        .inr ⟨rfl, hep, ⟨item, hp, List.Perm.refl _⟩, by simp [Backing.fences, View.single]⟩⟩
      rw [set_single hp]
      exact Answers.inserted (by simp [Backing.set, Backing.pairs])
    · exact ⟨_, m', none, by rw [OrderedMap.step, run_bind (hstart.trans hrun)],
        Answers.insertRefused _ (by simp [Backing.set, Backing.pairs]), hvac, .inl ⟨rfl, hep, rfl⟩⟩
  | some (v, root), h =>
    rcases Rep.insert_spec h hF heven hheight hk p.entryRef with
      ⟨hmem, hrun⟩ | ⟨hmem, ⟨m', v', root', hrun, hins, hep, hrep⟩ | ⟨e, m', hrun, hrep, hep, -⟩⟩
    · exact ⟨_, m, some (v, root), by rw [OrderedMap.step, run_bind hrun],
        Answers.present (List.mem_toFinset.mpr hmem), h, .inl ⟨rfl, rfl, rfl⟩⟩
    · refine ⟨_, m', some (v', root'), by rw [OrderedMap.step, run_bind hrun], ?_, hrep,
        .inr ⟨rfl, hep, hins.exchanged .insert fun _ _ h => h⟩⟩
      rw [hins.set]
      exact Answers.inserted fun hin => hmem (List.mem_toFinset.mp hin)
    · exact ⟨_, m', some (v, root), by rw [OrderedMap.step, run_bind hrun],
        Answers.insertRefused e fun hin => hmem (List.mem_toFinset.mp hin), hrep, .inl ⟨rfl, hep, rfl⟩⟩

theorem Backs.append_step (h : Backs m V) (hF : 8 ≤ F) (heven : F % 2 = 0) (hheight : m.height < maxHeight)
    (hk : S.Admits p.key) :
    ∃ reply m' V', m.step (.append p) = some (reply, m') ∧ Answers V.set (.append p) reply V'.set ∧
      Backs m' V' ∧ Moved (.append p) m m' V V' reply := by
  match V, h with
  | none, h =>
    have hstart {out} (hfirst : m.insertFirst (.ofKey p.key) p.entryRef = some out) :
        m.append p.key p.entryRef = some (match out with
          | (.error error, m) => (.error (.map error), m)
          | (.ok _, m) => (.ok (), m)) := by
      rw [OrderedMap.append, run_bind (makeProbe_admits hk), if_pos (Vacant.root h), run_bind hfirst]
      obtain ⟨_ | _, _⟩ := out <;> rfl
    rcases Vacant.insertFirst h hF hk p.entryRef with ⟨m', id, item, hrun, hp, hep, hrep⟩ | ⟨m', hrun, hvac, hep, -⟩
    · refine ⟨_, m', some (View.single id item, id), by rw [OrderedMap.step, run_bind (hstart hrun)], ?_, hrep,
        .inr ⟨rfl, hep, ⟨item, hp, List.Perm.refl _⟩, by simp [Backing.fences, View.single]⟩⟩
      rw [set_single hp]
      exact Answers.appended (by simp [Backing.set, Backing.pairs])
    · exact ⟨_, m', none, by rw [OrderedMap.step, run_bind (hstart hrun)],
        Answers.appendRefused _ (by simp [Backing.set, Backing.pairs]), hvac, .inl ⟨rfl, hep, rfl⟩⟩
  | some (v, root), h =>
    have hall : (∀ q ∈ Backing.set (some (v, root)), q < p) ↔ ∀ q ∈ v.pairs, q < p := by
      simp [Backing.set, Backing.pairs]
    rcases Rep.append_spec h hF heven hheight hk p.entryRef with
      ⟨hmax, hrun⟩ | ⟨hmax, ⟨left, id, a, fl, item, m', v', root', hf, hrun, hp, hplaced, hep, hrep⟩ |
        ⟨e, m', hrun, hrep, hep, -⟩⟩
    · exact ⟨_, m, some (v, root), by rw [OrderedMap.step, run_bind hrun],
        Answers.outOfOrder fun h => hmax (hall.mp h), h, .inl ⟨rfl, rfl, rfl⟩⟩
    · have hins : Inserted v p v' := by
        have hins := hplaced.inserted (by rwa [append_nil])
        rwa [hp] at hins
      refine ⟨_, m', some (v', root'), by rw [OrderedMap.step, run_bind hrun], ?_, hrep,
        .inr ⟨rfl, hep, hins.exchanged .append fun _ _ h => h⟩⟩
      rw [hins.set]
      exact Answers.appended (hall.mpr hmax)
    · exact ⟨_, m', some (v, root), by rw [OrderedMap.step, run_bind hrun],
        Answers.appendRefused e (hall.mpr hmax), hrep, .inl ⟨rfl, hep, rfl⟩⟩

theorem Backs.remove_step (h : Backs m V) (hF : 8 ≤ F) (hheight : m.height < maxHeight) (hk : S.Admits p.key) :
    ∃ reply m' V', m.step (.remove p) = some (reply, m') ∧ Answers V.set (.remove p) reply V'.set ∧
      Backs m' V' ∧ Moved (.remove p) m m' V V' reply := by
  match V, h with
  | none, h =>
    refine ⟨.removed false, m, none, ?_, ?_, h, .inl ⟨rfl, rfl, rfl⟩⟩
    · have hrun : m.remove p.key p.entryRef = some (false, m) := by rw [OrderedMap.remove, if_pos (Vacant.root h)]
      rw [OrderedMap.step, run_bind hrun]
    · have hans := Answers.removed (s := Backing.set (none : Backing S)) (p := p)
      simpa [Backing.set, Backing.pairs] using hans
  | some (v, root), h =>
    have hmem_iff : p ∈ Backing.set (some (v, root)) ↔ p ∈ v.pairs := List.mem_toFinset
    have hnodup : v.pairs.Nodup := (Rep.toShape h).pairs_sorted.imp fun h => ne_of_lt h
    rcases Rep.remove_spec h hF hheight hk p.entryRef with
      ⟨hmem, hrun⟩ | ⟨hmem, ⟨m', v', root', hrun, hremoved, hep, hrep⟩ | ⟨m', hrun, hone, hep, hvac⟩⟩
    · refine ⟨.removed false, m, some (v, root), by rw [OrderedMap.step, run_bind hrun], ?_, h, .inl ⟨rfl, rfl, rfl⟩⟩
      have hans := Answers.removed (s := Backing.set (some (v, root))) (p := p)
      rwa [decide_eq_false (fun h => hmem (hmem_iff.mp h)),
        Finset.erase_eq_of_notMem (fun h => hmem (hmem_iff.mp h))] at hans
    · have hperm := hremoved.pairs_perm
      refine ⟨.removed true, m', some (v', root'), by rw [OrderedMap.step, run_bind hrun], ?_, hrep,
        .inr ⟨rfl, hep, hremoved.item, fun f hf => (hremoved.fences f hf).imp_right .inl⟩⟩
      have hans := Answers.removed (s := Backing.set (some (v, root))) (p := p)
      have hset : Backing.set (some (v, root)) = insert p (Backing.set (some (v', root'))) := toFinset_perm_cons hperm
      have hnot : p ∉ Backing.set (some (v', root')) := by
        rw [Backing.set, List.mem_toFinset]
        exact (nodup_cons.mp (hperm.nodup_iff.mp hnodup)).1
      rwa [decide_eq_true (hmem_iff.mpr hmem), hset, Finset.erase_insert hnot, ← hset] at hans
    · obtain ⟨item, hitems, hp⟩ := map_eq_singleton_iff.mp hone
      refine ⟨.removed true, m', none, by rw [OrderedMap.step, run_bind hrun], ?_, hvac,
        .inr ⟨rfl, hep, ⟨item, hp, List.Perm.of_eq hitems⟩, by simp [Backing.fences]⟩⟩
      have hans := Answers.removed (s := Backing.set (some (v, root))) (p := p)
      have hset : Backing.set (some (v, root)) = {p} := by
        rw [Backing.set, Backing.pairs, hone]
        rfl
      rwa [decide_eq_true (hmem_iff.mpr hmem), hset, Finset.erase_singleton, ← hset] at hans

/-- A call on a map below the height bound answers as the set does. -/
theorem Backs.step (h : Backs m V) (hF : 8 ≤ F) (heven : F % 2 = 0) (hheight : m.height < maxHeight)
    {call : Call} (hk : S.Admits call.pair.key) :
    ∃ reply m' V', m.step call = some (reply, m') ∧ Answers V.set call reply V'.set ∧ Backs m' V' ∧
      Moved call m m' V V' reply := by
  cases call with
  | insert p => exact h.insert_step hF heven hheight hk
  | append p => exact h.append_step hF heven hheight hk
  | remove p => exact h.remove_step hF hheight hk
  | contains p =>
    refine ⟨.contained (decide (p ∈ V.set)), m, V, ?_, Answers.contained, h, .inl ⟨rfl, rfl, rfl⟩⟩
    have hrun : m.contains p.key p.entryRef = some (decide (p ∈ V.set)) := by
      match V, h with
      | none, h =>
        rw [OrderedMap.contains, if_pos (Vacant.root h)]
        rfl
      | some (v, root), h =>
        rw [(Rep.toShape h).contains_eq hheight (show S.Admits p.key from hk)]
        simp [Backing.set, Backing.pairs]
    rw [OrderedMap.step, run_bind hrun]

end Step

theorem children_length_ge {level : Level S} {k : Nat} (hc : ∀ n ∈ level, n.children.length = n.seps.length + 1)
    (hk : ∀ n ∈ level, k ≤ n.seps.length) : (k + 1) * level.length ≤ (level.flatMap INode.children).length := by
  induction level with
  | nil => simp
  | cons n level ih =>
    have htail := ih (forall_mem_cons.mp hc).2 (forall_mem_cons.mp hk).2
    have hn := hk n (by simp)
    rw [flatMap_cons, length_append, hc n (by simp), length_cons, mul_add]
    omega

section Count
variable {levels : List (Level S)} {ids : List Nat} {fences : List (Item S)} (h : Indexes levels ids fences [root] [])
  (ho : Occupied F 1 levels)
include h ho

/-- A tree has fewer internal nodes than leaves. -/
theorem Indexes.internals_lt (hF : 8 ≤ F) : levels.flatten.length < ids.length := by
  induction levels generalizing ids fences with
  | nil =>
    obtain ⟨rfl, -⟩ := h
    exact Nat.zero_lt_one
  | cons level up ih =>
    obtain ⟨upper, -, hc, rfl, -, hup⟩ := h
    have habove := ih hup ho.2
    have hmin := children_length_ge hc fun n hn => ho.one_le hF hn
    rw [length_map] at habove
    rw [flatten_cons, length_append]
    omega

/-- Every level multiplies what it indexes by the minimum number of children. -/
theorem Indexes.count_ge (hne : levels ≠ []) : 2 * (sepMin F + 1) ^ (levels.length - 1) ≤ ids.length := by
  induction levels generalizing ids fences with
  | nil => exact absurd rfl hne
  | cons level up ih =>
    obtain ⟨upper, -, hc, rfl, -, hup⟩ := h
    cases up with
    | nil =>
      have hlen : level.length = 1 := by
        rw [← length_map INode.id, hup.1]
        rfl
      have hmin := children_length_ge hc (k := 1) fun n hn => by simpa using (ho.1 n hn).1
      rw [hlen] at hmin
      simpa using hmin
    | cons level' up =>
      have habove := ih hup ho.2 (by simp)
      have hmin := children_length_ge hc (k := sepMin F) fun n hn => by simpa using (ho.1 n hn).1
      rw [length_map] at habove
      refine le_trans ?_ hmin
      calc 2 * (sepMin F + 1) ^ ((level :: level' :: up).length - 1)
          = (sepMin F + 1) * (2 * (sepMin F + 1) ^ ((level' :: up).length - 1)) := by
            simp only [length_cons, Nat.add_sub_cancel, pow_succ]
            ring
        _ ≤ (sepMin F + 1) * level.length := Nat.mul_le_mul_left _ habove

end Count

/-- From fanout 10 on, sixteen levels need more leaves than there are node ids. -/
theorem Rep.height_lt {v : View S} (h : Rep m v root) (hF : 10 ≤ F) : m.height < maxHeight := by
  by_contra hge
  have hlen : 16 ≤ v.levels.length := by
    rw [h.height]
    exact not_lt.mp hge
  have hcount := h.index.count_ge h.occupied (by
    rw [ne_eq, ← length_eq_zero_iff]
    omega)
  have hids := h.leaves.length_le
  rw [length_map] at hcount
  rw [chainTo_length] at hids
  have hmin : 5 ≤ sepMin F + 1 := by
    have hsep : sepMin F = (F - 1) / 2 := rfl
    omega
  have hpow : 5 ^ 15 ≤ (sepMin F + 1) ^ (v.levels.length - 1) :=
    calc 5 ^ 15 ≤ (sepMin F + 1) ^ 15 := Nat.pow_le_pow_left hmin 15
      _ ≤ (sepMin F + 1) ^ (v.levels.length - 1) := Nat.pow_le_pow_right (by omega) (by omega)
  have hnone : nodeNone = 4294967295 := rfl
  omega

variable {V : Backing S}

theorem Backs.height_lt (h : Backs m V) (hF : 10 ≤ F) : m.height < maxHeight := by
  match V, h with
  | none, h =>
    rw [Vacant.height h]
    decide
  | some (v, root), h => exact Rep.height_lt h hF

/-- At the height bound every call panics. -/
theorem step_at_bound (hroot : m.root = some root) (hheight : ¬ m.height < maxHeight)
    (hk : S.Admits call.pair.key) : m.step call = none := by
  have hne : ¬ m.root = none := by simp [hroot]
  have hdesc (p : Probe) (r : UInt64) : m.descend p r = none := if_neg hheight
  cases call with
  | insert p =>
    have hrun : m.insert p.key p.entryRef = none := by
      rw [OrderedMap.insert, run_bind (makeProbe_admits (show S.Admits p.key from hk)), if_neg hne, hdesc]
      rfl
    rw [OrderedMap.step, hrun]
    rfl
  | append p =>
    have hrun : m.append p.key p.entryRef = none := by
      rw [OrderedMap.append, run_bind (makeProbe_admits (show S.Admits p.key from hk)), if_neg hne, if_neg hheight]
    rw [OrderedMap.step, hrun]
    rfl
  | remove p =>
    have hrun : m.remove p.key p.entryRef = none := by
      rw [OrderedMap.remove, if_neg hne, run_bind (makeProbe_admits (show S.Admits p.key from hk)), hdesc]
      rfl
    rw [OrderedMap.step, hrun]
    rfl
  | contains p =>
    have hrun : m.contains p.key p.entryRef = none := by
      rw [OrderedMap.contains, if_neg hne, run_bind (makeProbe_admits (show S.Admits p.key from hk)), hdesc]
      rfl
    rw [OrderedMap.step, hrun]
    rfl

theorem Backs.step_some (h : Backs m V)
    (hk : S.Admits call.pair.key) {out : Reply × OrderedMap S F} (hrun : m.step call = some out) :
    m.height < maxHeight := by
  match V, h with
  | none, h =>
    rw [Vacant.height h]
    decide
  | some (v, root), h =>
    by_contra hge
    rw [step_at_bound (Rep.toShape h).rooted hge hk] at hrun
    simp at hrun

/-- The same, read off a call that returned. The key needs no check: a bad one panics, or the
map is empty and nothing happens. -/
theorem Backs.step_of_some (h : Backs m V) (hF : 8 ≤ F) (heven : F % 2 = 0) (hrun : m.step call = some (reply, m')) :
    ∃ V', Answers V.set call reply V'.set ∧ Backs m' V' ∧ Moved call m m' V V' reply := by
  by_cases hk : S.Admits call.pair.key
  · obtain ⟨reply', m'', V', hstep, hans, h', hmoved⟩ := h.step hF heven (h.step_some hk hrun) hk
    obtain ⟨rfl, rfl⟩ : reply = reply' ∧ m' = m'' := by simpa using hrun.symm.trans hstep
    exact ⟨V', hans, h', hmoved⟩
  have hprobe : makeProbe S call.pair.key = none := if_neg hk
  by_cases hroot : m.root = none
  · obtain rfl : V = none := by
      match V, h with
      | none, _ => rfl
      | some (v, root), h => exact absurd ((Rep.toShape h).rooted.symm.trans hroot) (by simp)
    cases call with
    | insert p => simp [OrderedMap.step, OrderedMap.insert, show makeProbe S p.key = none from hprobe] at hrun
    | append p => simp [OrderedMap.step, OrderedMap.append, show makeProbe S p.key = none from hprobe] at hrun
    | remove p =>
      obtain ⟨rfl, rfl⟩ : .removed false = reply ∧ m = m' := by
        simpa [OrderedMap.step, OrderedMap.remove, hroot] using hrun
      exact ⟨none, Answers.removed, h, .inl ⟨rfl, rfl, rfl⟩⟩
    | contains p =>
      obtain ⟨rfl, rfl⟩ : .contained false = reply ∧ m = m' := by
        simpa [OrderedMap.step, OrderedMap.contains, hroot] using hrun
      exact ⟨none, Answers.contained, h, .inl ⟨rfl, rfl, rfl⟩⟩
  · cases call with
    | insert p => simp [OrderedMap.step, OrderedMap.insert, show makeProbe S p.key = none from hprobe] at hrun
    | append p => simp [OrderedMap.step, OrderedMap.append, show makeProbe S p.key = none from hprobe] at hrun
    | remove p => simp [OrderedMap.step, OrderedMap.remove, hroot, show makeProbe S p.key = none from hprobe] at hrun
    | contains p =>
      simp [OrderedMap.step, OrderedMap.contains, hroot, show makeProbe S p.key = none from hprobe] at hrun

/-- A call sequence answered as by a sorted set, with the chain listing the set at the end. -/
def Refines (S : KeyScheme) (F : Nat) (ceiling : UInt32) (calls : List Call) : Prop :=
  ∃ replies m s chain, (OrderedMap.new S F ceiling).run calls = some (replies, m) ∧
    AnswersAll ∅ calls replies s ∧ Lists m s chain

/-- No call of the sequence meets a map of the height bound. -/
def WithinHeight (m : OrderedMap S F) (calls : List Call) : Prop :=
  ∀ before call after replies m', calls = before ++ call :: after → m.run before = some (replies, m') →
    m'.height < maxHeight

theorem WithinHeight.head (h : WithinHeight m (call :: calls)) : m.height < maxHeight :=
  h [] call calls [] m rfl rfl

theorem WithinHeight.tail
    (h : WithinHeight m (call :: calls)) (hstep : m.step call = some (reply, m')) : WithinHeight m' calls := by
  intro before c after replies m'' hsplit hrun
  refine h (call :: before) c after (reply :: replies) m'' (by rw [hsplit]; rfl) ?_
  rw [OrderedMap.run, run_bind hstep]
  dsimp only
  rw [run_bind hrun]

theorem Backs.run (h : Backs m V) (hF : 8 ≤ F) (heven : F % 2 = 0)
    (hkeys : ∀ call ∈ calls, S.Admits call.pair.key) (hw : WithinHeight m calls) :
    ∃ replies m' V', m.run calls = some (replies, m') ∧ AnswersAll V.set calls replies V'.set ∧ Backs m' V' := by
  induction calls generalizing m V with
  | nil => exact ⟨[], m, V, rfl, .nil _, h⟩
  | cons call calls ih =>
    obtain ⟨reply, m₁, V₁, hstep, hans, h₁, -⟩ := h.step hF heven hw.head (hkeys call (by simp))
    obtain ⟨replies, m', V', hrun, hall, h'⟩ := ih h₁ (forall_mem_cons.mp hkeys).2 (hw.tail hstep)
    refine ⟨reply :: replies, m', V', ?_, .cons hans hall, h'⟩
    rw [OrderedMap.run, run_bind hstep]
    dsimp only
    rw [run_bind hrun]

theorem WithinHeight.cons {m : OrderedMap S F} {call : Call} {calls : List Call} (hm : m.height < maxHeight)
    (hnext : ∀ reply m', m.step call = some (reply, m') → WithinHeight m' calls) : WithinHeight m (call :: calls) := by
  intro before c after replies m'' hsplit hrun
  cases before with
  | nil =>
    obtain ⟨-, rfl⟩ : [] = replies ∧ m = m'' := by simpa [OrderedMap.run] using hrun
    exact hm
  | cons c₀ before =>
    obtain ⟨rfl, rfl⟩ := List.cons.inj hsplit
    cases hstep : m.step call with
    | none =>
      rw [OrderedMap.run, hstep] at hrun
      simp at hrun
    | some out =>
      obtain ⟨reply, m₁⟩ := out
      rw [OrderedMap.run, run_bind hstep] at hrun
      obtain ⟨rest, hrest, hout⟩ := bind_eq_some_iff.mp hrun
      obtain rfl : rest.2 = m'' := by
        simpa using congrArg (Option.map Prod.snd) hout
      exact hnext reply m₁ hstep before c after rest.1 rest.2 rfl hrest

theorem run_cons_inv {replies : List Reply} (hrun : m.run (call :: calls) = some (replies, m')) :
    ∃ reply m₁ rest, m.step call = some (reply, m₁) ∧ m₁.run calls = some (rest, m') ∧ reply :: rest = replies := by
  obtain ⟨⟨reply, m₁⟩, hstep, hnext⟩ := bind_eq_some_iff.mp hrun
  obtain ⟨⟨rest, m₂⟩, hrest, hout⟩ := bind_eq_some_iff.mp hnext
  obtain ⟨hcons, rfl⟩ : reply :: rest = replies ∧ m₂ = m' := by simpa using hout
  exact ⟨reply, m₁, rest, hstep, hrest, hcons⟩

/-- What backs a map after a run, whatever the keys were. -/
theorem Backs.after_run (h : Backs m V) (hF : 8 ≤ F) (heven : F % 2 = 0) {replies : List Reply}
    (hrun : m.run calls = some (replies, m')) : ∃ V', Backs m' V' := by
  induction calls generalizing m V replies with
  | nil =>
    obtain ⟨-, rfl⟩ : [] = replies ∧ m = m' := by simpa [OrderedMap.run] using hrun
    exact ⟨V, h⟩
  | cons call calls ih =>
    obtain ⟨reply, m₁, rest, hstep, hrest, -⟩ := run_cons_inv hrun
    obtain ⟨V₁, -, h₁, -⟩ := h.step_of_some hF heven hstep
    exact ih h₁ hrest

/-- A run that ends met the bound nowhere. -/
theorem Backs.within_of_run (h : Backs m V) (hF : 8 ≤ F) (heven : F % 2 = 0)
    (hkeys : ∀ call ∈ calls, S.Admits call.pair.key) {out : List Reply × OrderedMap S F}
    (hrun : m.run calls = some out) : WithinHeight m calls := by
  induction calls generalizing m V out with
  | nil => exact fun before _ _ _ _ hsplit => absurd hsplit (by simp)
  | cons call calls ih =>
    obtain ⟨⟨reply, m₁⟩, hstep, hrest⟩ := bind_eq_some_iff.mp hrun
    obtain ⟨rest, hrest, -⟩ := bind_eq_some_iff.mp hrest
    have hm := h.step_some (hkeys call (by simp)) hstep
    obtain ⟨reply', m₁', V₁, hstep', -, h₁, -⟩ := h.step hF heven hm (hkeys call (by simp))
    refine WithinHeight.cons hm fun r m₂ hm₂ => ?_
    obtain ⟨rfl, rfl⟩ : reply = r ∧ m₁ = m₂ := by simpa using hstep.symm.trans hm₂
    obtain ⟨-, rfl⟩ : reply = reply' ∧ m₁ = m₁' := by simpa using hstep.symm.trans hstep'
    exact ih h₁ (forall_mem_cons.mp hkeys).2 hrest

theorem Backs.within (h : Backs m V) (hF : 10 ≤ F) (heven : F % 2 = 0)
    (hkeys : ∀ call ∈ calls, S.Admits call.pair.key) : WithinHeight m calls := by
  induction calls generalizing m V with
  | nil => exact fun before _ _ _ _ hsplit => absurd hsplit (by simp)
  | cons call calls ih =>
    have hm := h.height_lt hF
    obtain ⟨reply, m₁, V₁, hstep, -, h₁, -⟩ := h.step (by omega) heven hm (hkeys call (by simp))
    refine WithinHeight.cons hm fun r m₂ hm₂ => ?_
    obtain ⟨rfl, rfl⟩ : reply = r ∧ m₁ = m₂ := by simpa using hstep.symm.trans hm₂
    exact ih h₁ (forall_mem_cons.mp hkeys).2

/-- For every scheme, even fanout from 8 on, heap ceiling and finite call sequence: the map is a
sorted set exactly as long as no call meets a tree of `MAX_HEIGHT` levels, and from fanout 10 on no
call ever does. -/
theorem orderedMap_refines_set (S : KeyScheme) {F : Nat} (hF : 8 ≤ F) (heven : F % 2 = 0) (ceiling : UInt32)
    (calls : List Call) (hkeys : ∀ call ∈ calls, S.Admits call.pair.key) :
    (Refines S F ceiling calls ↔ WithinHeight (OrderedMap.new S F ceiling) calls) ∧
      (10 ≤ F → Refines S F ceiling calls) := by
  have hnew := backs_new S F ceiling
  have hback (hw : WithinHeight (OrderedMap.new S F ceiling) calls) : Refines S F ceiling calls := by
    obtain ⟨replies, m, V, hrun, hall, h⟩ := hnew.run hF heven hkeys hw
    exact ⟨replies, m, V.set, V.pairs, hrun, hall, h.lists⟩
  refine ⟨⟨?_, hback⟩, fun h10 => hback (hnew.within h10 heven hkeys)⟩
  rintro ⟨replies, m, s, chain, hrun, -, -⟩
  exact hnew.within_of_run hF heven hkeys hrun

theorem orderedMap_refines_set_varKey : Refines .varKey 64 4096
      [.insert ⟨[3, 1], 7⟩, .append ⟨[3, 1, 0, 0, 0, 0, 0, 0, 0, 4], 1⟩, .contains ⟨[3], 7⟩, .remove ⟨[3, 1], 7⟩] :=
  (orderedMap_refines_set .varKey (by decide) (by decide) 4096 _ (by decide)).2 (by decide)

/-- Pairs of one key, the refs rising: so many that a leaf splits, for the examples below. -/
def rising (first count : Nat) : List Pair := (range' first count).map fun r => ⟨[0, 0, 0, 0, 0, 0, 0, 0], UInt64.ofNat r⟩

end InfinityDB

import InfinityDB.Lib.Cursor
import InfinityDB.Lib.PageRing

/-!
# The single-producer ring

Free-running indices of 64 bits, slots by the low bits. Each side caches the index of the other, and
refreshes its copy only when the cached view does not answer. `Ring.Holds` reads the ring as a queue:
over true counters that never wrap, a batch published is appended and a batch consumed is taken from
the front, whatever the caches hold.
-/

namespace InfinityDB.Fabric

open Lib List

def wordSize : Nat := 2 ^ 64

def wrappingAdd (a b : Nat) : Nat := (a + b) % wordSize

def wrappingSub (a b : Nat) : Nat := (a + (wordSize - b)) % wordSize

/-- Both handles and what they share. A slot that is not initialised is `none`. -/
structure Ring (α : Type) where
  head : Nat
  tail : Nat
  mask : Nat
  slots : List (Option α)
  producerTail : Nat
  headCache : Nat
  consumerHead : Nat
  tailCache : Nat

namespace Ring

variable {α : Type}

/-- A capacity that is not a power of two is a panic. -/
def new (capacity : Nat) : Option (Ring α) :=
  if capacity ≠ 0 ∧ capacity &&& (capacity - 1) = 0 then
    some ⟨0, 0, capacity - 1, List.replicate capacity none, 0, 0, 0, 0⟩
  else none

/-- Free slots of a view of the consumer; a subtraction that would underflow is a panic. -/
def freeOf (r : Ring α) (head : Nat) : Option Nat :=
  let used := wrappingSub r.producerTail head
  if r.mask + 1 < used then none else some (r.mask + 1 - used)

def freeSlots (r : Ring α) (want : Nat) : Option (Ring α × Nat) := do
  let free ← r.freeOf r.headCache
  if want ≤ free then return (r, free)
  let r := { r with headCache := r.head }
  let free ← r.freeOf r.headCache
  return (r, free)

def writeSlot (mask : Nat) (slots : List (Option α)) (index : Nat) (value : α) : List (Option α) :=
  slots.set (index &&& mask) (some value)

/-- Items written while slots are free: the slots, how many, and the items left. -/
def fill (mask tail free : Nat) : Nat → List α → List (Option α) → List (Option α) × Nat × List α
  | n, [], slots => (slots, n, [])
  | n, value :: items, slots =>
    if n < free then fill mask tail free (n + 1) items (writeSlot mask slots (wrappingAdd tail n) value)
    else (slots, n, value :: items)

/-- How many were published, and the items left in the iterator. -/
def publishBatch (r : Ring α) (items : List α) : Option (Ring α × Nat × List α) := do
  let (r, free) ← r.freeSlots (wordSize - 1)
  let (slots, n, rest) := fill r.mask r.producerTail free 0 items r.slots
  let r := { r with slots }
  if 0 < n then
    let tail := wrappingAdd r.producerTail n
    return ({ r with producerTail := tail, tail }, n, rest)
  return (r, n, rest)

/-- `n` values out of their slots; reading an uninitialised one is undefined. -/
def takeSlots : Nat → Ring α → Option (Ring α × List α)
  | 0, r => some (r, [])
  | n + 1, r => do
    let value ← (r.slots[r.consumerHead &&& r.mask]?).join
    let r := { r with slots := r.slots.set (r.consumerHead &&& r.mask) none, consumerHead := wrappingAdd r.consumerHead 1 }
    let (r, values) ← takeSlots n r
    return (r, value :: values)

/-- The cached tail, refreshed when it cannot satisfy the request. -/
def refreshTail (r : Ring α) (max : Nat) : Ring α :=
  if wrappingSub r.tailCache r.consumerHead < max then { r with tailCache := r.tail } else r

def consumeBatch (r : Ring α) (max : Nat) : Option (Ring α × List α) :=
  let r := r.refreshTail max
  let available := wrappingSub r.tailCache r.consumerHead
  if available = 0 then some (r, [])
  else do
    let (r, values) ← takeSlots (min available max) r
    return ({ r with head := r.consumerHead }, values)

theorem wrappingSub_mod {a b : Nat} (hle : b ≤ a) (hlt : a - b < wordSize) :
    wrappingSub (a % wordSize) (b % wordSize) = a - b := by
  unfold wrappingSub wordSize at *
  omega

theorem wrappingAdd_mod (a n : Nat) : wrappingAdd (a % wordSize) n = (a + n) % wordSize := by
  unfold wrappingAdd
  rw [Nat.mod_add_mod]

/-- Capacities: powers of two that divide the word. -/
def Capacity (cap : Nat) : Prop := ∃ k, k ≤ 63 ∧ cap = 2 ^ k

variable {cap : Nat} {r : Ring α} {queue : List α}

theorem Capacity.pos (h : Capacity cap) : 0 < cap := by
  obtain ⟨k, _, rfl⟩ := h
  exact Nat.two_pow_pos k

theorem Capacity.lt (h : Capacity cap) : cap < wordSize - 1 := by
  obtain ⟨k, hk, rfl⟩ := h
  have hpow : 2 ^ k ≤ 2 ^ 63 := Nat.pow_le_pow_right (by decide) hk
  unfold wordSize
  omega

theorem Capacity.index (h : Capacity cap) (a : Nat) : (a % wordSize) &&& (cap - 1) = a % cap := by
  obtain ⟨k, hk, rfl⟩ := h
  rw [Nat.and_two_pow_sub_one_eq_mod, wordSize, Nat.mod_mod_of_dvd _ (Nat.pow_dvd_pow 2 (by omega))]

/-- The slots from the true head on hold the queue. -/
def Filled (cap first : Nat) (slots : List (Option α)) (queue : List α) : Prop :=
  ∀ i value, queue[i]? = some value → slots[(first + i) % cap]? = some (some value)

/-- The ring as a queue, over true counters `first` for the head, `seen` and `known` for what the
producer and the consumer last saw of the other side. -/
structure Counts (r : Ring α) (cap : Nat) (queue : List α) (first seen known : Nat) : Prop where
  mask_eq : r.mask = cap - 1
  size : r.slots.length = cap
  short : queue.length ≤ cap
  head_eq : r.head = first % wordSize
  consumer_eq : r.consumerHead = first % wordSize
  tail_eq : r.tail = (first + queue.length) % wordSize
  producer_eq : r.producerTail = (first + queue.length) % wordSize
  headCache_eq : r.headCache = seen % wordSize
  tailCache_eq : r.tailCache = known % wordSize
  seen_le : seen ≤ first
  seen_room : first + queue.length ≤ seen + cap
  known_ge : first ≤ known
  known_le : known ≤ first + queue.length
  filled : Filled cap first r.slots queue

def Holds (r : Ring α) (cap : Nat) (queue : List α) : Prop :=
  Capacity cap ∧ ∃ first seen known, Counts r cap queue first seen known

theorem new_holds (hlt : cap < wordSize) (h : new cap = some r) : r.Holds cap [] := by
  obtain ⟨⟨hne, hand⟩, h⟩ := Option.ite_none_right_eq_some.mp h
  cases h
  obtain ⟨k, rfl⟩ := (Nat.and_sub_one_eq_zero_iff_isPowerOfTwo hne).mp hand
  have hk : k < 64 := (Nat.pow_lt_pow_iff_right (by decide)).mp hlt
  refine ⟨⟨k, by omega, rfl⟩, 0, 0, 0, ?_⟩
  refine ⟨rfl, length_replicate, zero_le, rfl, rfl, rfl, rfl, rfl, rfl, le_rfl, ?_, le_rfl, le_rfl, ?_⟩
  · exact zero_le
  · intro i value hi
    simp at hi

theorem Filled.write {cap first : Nat} {slots : List (Option α)} {queue : List α} (h : Filled cap first slots queue)
    (hsize : slots.length = cap) (hroom : queue.length < cap) (value : α) :
    Filled cap first (slots.set ((first + queue.length) % cap) (some value)) (queue ++ [value]) := by
  intro i old hi
  rcases Nat.lt_trichotomy i queue.length with hlt | heq | hgt
  · rw [getElem?_append_left hlt] at hi
    have hne : (first + queue.length) % cap ≠ (first + i) % cap := by
      intro heq
      have := @mod_injOn_window cap first _ _ (by omega) (by omega) (by omega) (by omega) heq
      omega
    rw [getElem?_set_ne hne]
    exact h i old hi
  · subst heq
    rw [getElem?_concat_length] at hi
    rw [getElem?_set_self (by rw [hsize]; exact Nat.mod_lt _ (by omega)), Option.some.inj hi]
  · rw [getElem?_eq_none (by rw [length_append, length_singleton]; omega)] at hi
    cases hi

theorem Filled.take {first : Nat} {slots : List (Option α)} {value : α}
    (h : Filled cap first slots (value :: queue)) (hroom : queue.length < cap) :
    Filled cap (first + 1) (slots.set (first % cap) none) queue := by
  intro i old hi
  have hlt : i < queue.length := (List.getElem?_eq_some_iff.mp hi).1
  have hne : first % cap ≠ (first + 1 + i) % cap := by
    intro heq
    have := @mod_injOn_window cap first _ _ (by omega) (by omega) (by omega) (by omega) heq
    omega
  rw [getElem?_set_ne hne]
  have hnext := h (i + 1) old (by rwa [getElem?_cons_succ])
  rwa [add_assoc, add_comm 1 i]

theorem fill_spec {cap first : Nat} (hcap : Capacity cap) (queue : List α) {slots : List (Option α)} {free n : Nat} {items : List α}
    (hsize : slots.length = cap) (hroom : queue.length + free ≤ cap) (written : List α)
    (hwritten : written.length = n) (hfilled : Filled cap first slots (queue ++ written)) :
    ∃ slots', fill (cap - 1) ((first + queue.length) % wordSize) free n items slots =
        (slots', n + (items.take (free - n)).length, items.drop (free - n)) ∧
      slots'.length = cap ∧ Filled cap first slots' (queue ++ written ++ items.take (free - n)) := by
  induction items generalizing n slots written with
  | nil => exact ⟨slots, by simp [fill], hsize, by simpa using hfilled⟩
  | cons value items ih =>
    unfold fill
    by_cases hlt : n < free
    · have hindex : writeSlot (cap - 1) slots (wrappingAdd ((first + queue.length) % wordSize) n) value =
          slots.set ((first + (queue ++ written).length) % cap) (some value) := by
        unfold writeSlot
        rw [wrappingAdd_mod, hcap.index, length_append, hwritten, add_assoc]
      have hnext := hfilled.write hsize (by rw [length_append]; omega) value
      rw [append_assoc] at hnext
      obtain ⟨slots', hfill, hsize', hfilled'⟩ := @ih _ (n + 1) (by rw [length_set, hsize]) (written ++ [value])
        (by rw [length_append, hwritten, length_singleton]) hnext
      have hsub : free - n = (free - (n + 1)) + 1 := by omega
      rw [if_pos hlt, hindex, hsub, take_succ_cons, drop_succ_cons, length_cons, hfill]
      refine ⟨slots', ?_, hsize', ?_⟩
      · congr 2
        omega
      · rw [append_assoc, append_assoc] at hfilled'
        rw [append_assoc]
        exact hfilled'
    · have hsub : free - n = 0 := by omega
      rw [if_neg hlt, hsub, take_zero, append_nil]
      exact ⟨slots, rfl, hsize, hfilled⟩

/-- A batch goes in as far as it fits. -/
theorem publishBatch_spec (h : r.Holds cap queue) (items : List α) : ∃ r', r.publishBatch items =
        some (r', (items.take (cap - queue.length)).length, items.drop (cap - queue.length)) ∧
      r'.Holds cap (queue ++ items.take (cap - queue.length)) := by
  obtain ⟨hcap, first, seen, known, hc⟩ := h
  have hlt := hcap.lt
  have hpos := hcap.pos
  have hshort := hc.short
  have hmask : r.mask + 1 = cap := by rw [hc.mask_eq]; omega
  have hroom := hc.seen_room
  have hseen := hc.seen_le
  have hstale : wrappingSub r.producerTail r.headCache = first + queue.length - seen := by
    rw [hc.producer_eq, hc.headCache_eq]
    exact wrappingSub_mod (by omega) (by omega)
  have hfresh : wrappingSub r.producerTail r.head = queue.length := by
    rw [hc.producer_eq, hc.head_eq, wrappingSub_mod (by omega) (by omega), Nat.add_sub_cancel_left]
  have hfree : r.freeSlots (wordSize - 1) = some ({ r with headCache := r.head }, cap - queue.length) := by
    unfold freeSlots freeOf
    dsimp only
    rw [hstale, hfresh, hmask, if_neg (by omega), option_some_bind, if_neg (by omega), if_neg (by omega)]
    rfl
  obtain ⟨slots, hfill, hsize, hfilled⟩ := @fill_spec _ cap first hcap queue r.slots (cap - queue.length) 0 items hc.size
    (by omega) [] rfl (by rw [append_nil]; exact hc.filled)
  rw [append_nil, Nat.sub_zero] at hfilled
  rw [zero_add, Nat.sub_zero] at hfill
  have hput : (queue ++ items.take (cap - queue.length)).length = queue.length + (items.take (cap - queue.length)).length :=
    length_append
  have hle := length_take_le (cap - queue.length) items
  unfold publishBatch
  rw [hfree, option_some_bind]
  dsimp only
  rw [hc.mask_eq, hc.producer_eq, hfill]
  dsimp only
  by_cases hn : 0 < (items.take (cap - queue.length)).length
  · have htail : wrappingAdd ((first + queue.length) % wordSize) (items.take (cap - queue.length)).length =
        (first + (queue ++ items.take (cap - queue.length)).length) % wordSize := by
      rw [wrappingAdd_mod, hput, add_assoc]
    rw [if_pos hn]
    refine ⟨_, rfl, hcap, first, first, known, ?_⟩
    exact ⟨rfl, hsize, by omega, hc.head_eq, hc.consumer_eq, htail, htail, hc.head_eq, hc.tailCache_eq, le_rfl,
      by omega, hc.known_ge, by have := hc.known_le; omega, hfilled⟩
  · have hnone : items.take (cap - queue.length) = [] := length_eq_zero_iff.mp (by omega)
    rw [hnone, append_nil] at hfilled
    rw [if_neg hn, hnone, append_nil]
    refine ⟨_, rfl, hcap, first, first, known, ?_⟩
    exact ⟨rfl, hsize, hshort, hc.head_eq, hc.consumer_eq, hc.tail_eq, rfl, hc.head_eq, hc.tailCache_eq, le_rfl,
      by omega, hc.known_ge, hc.known_le, hfilled⟩

theorem takeSlots_spec {r : Ring α} {cap first : Nat} (hcap : Capacity cap) {n : Nat} {queue : List α} (hn : n ≤ queue.length)
    (hshort : queue.length ≤ cap) (hmask : r.mask = cap - 1) (hhead : r.consumerHead = first % wordSize)
    (hfilled : Filled cap first r.slots queue) : ∃ slots, takeSlots n r =
        some ({ r with slots, consumerHead := (first + n) % wordSize }, queue.take n) ∧
      slots.length = r.slots.length ∧ Filled cap (first + n) slots (queue.drop n) := by
  induction n generalizing r first queue with
  | zero => exact ⟨r.slots, by rw [add_zero, ← hhead]; rfl, rfl, hfilled⟩
  | succ n ih =>
    cases queue with
    | nil => simp at hn
    | cons value queue =>
      rw [length_cons] at hn hshort
      have hindex : r.consumerHead &&& r.mask = first % cap := by rw [hhead, hmask, hcap.index]
      have hslot : r.slots[first % cap]? = some (some value) := hfilled 0 value rfl
      obtain ⟨slots, htake, hsize, hrest⟩ := @ih
        { r with slots := r.slots.set (first % cap) none, consumerHead := wrappingAdd r.consumerHead 1 } (first + 1) queue
        (by omega) (by omega) hmask (by dsimp only; rw [hhead, wrappingAdd_mod]) (hfilled.take (by omega))
      unfold takeSlots
      rw [hindex, hslot, Option.join_some, option_some_bind]
      dsimp only
      rw [htake]
      refine ⟨slots, ?_, by rw [hsize, length_set], ?_⟩
      · rw [add_right_comm]
        rfl
      · rw [add_right_comm] at hrest
        exact hrest

/-- A consumer gets the front of the queue, however stale its view was. -/
theorem consumeBatch_spec (h : r.Holds cap queue) {max : Nat} (hmax : 0 < max) :
    ∃ r', r.consumeBatch max = some (r', queue.take max) ∧ r'.Holds cap (queue.drop max) := by
  obtain ⟨hcap, first, seen, known, hc⟩ := h
  have hlt := hcap.lt
  have hshort := hc.short
  have hge := hc.known_ge
  have hle := hc.known_le
  -- a cached view that answers is at least what is asked for
  obtain ⟨known', hrefresh, hge', hle', hasked⟩ : ∃ known', r.refreshTail max = { r with tailCache := known' % wordSize } ∧
      first ≤ known' ∧ known' ≤ first + queue.length ∧ min (known' - first) max = min queue.length max := by
    have hview : wrappingSub r.tailCache r.consumerHead = known - first := by
      rw [hc.tailCache_eq, hc.consumer_eq, wrappingSub_mod hge (by omega)]
    unfold refreshTail
    rw [hview]
    by_cases hstale : known - first < max
    · rw [if_pos hstale, hc.tail_eq]
      exact ⟨first + queue.length, rfl, by omega, le_rfl, by rw [Nat.add_sub_cancel_left]⟩
    · rw [if_neg hstale]
      exact ⟨known, by rw [← hc.tailCache_eq], hge, hle, by omega⟩
  have hview : wrappingSub (known' % wordSize) r.consumerHead = known' - first := by
    rw [hc.consumer_eq, wrappingSub_mod hge' (by omega)]
  unfold consumeBatch
  dsimp only
  rw [hrefresh]
  dsimp only
  rw [hview]
  by_cases hnone : known' - first = 0
  · have hempty : queue = [] := length_eq_zero_iff.mp (by omega)
    rw [if_pos hnone, hempty, take_nil, drop_nil]
    refine ⟨_, rfl, hcap, first, seen, known', ?_⟩
    have htail := hc.tail_eq
    have hproducer := hc.producer_eq
    have hroom := hc.seen_room
    rw [hempty] at htail hproducer hroom hle'
    exact ⟨hc.mask_eq, hc.size, zero_le, hc.head_eq, hc.consumer_eq, htail, hproducer, hc.headCache_eq, rfl,
      hc.seen_le, hroom, hge', hle', fun i value hi => by simp at hi⟩
  · obtain ⟨slots, htake, hsize, hfilled⟩ := @takeSlots_spec _ { r with tailCache := known' % wordSize } cap first hcap
      (min (known' - first) max) queue (by omega) hshort hc.mask_eq hc.consumer_eq hc.filled
    have hfront : queue.take (min (known' - first) max) = queue.take max := by
      rw [hasked, Nat.min_comm]
      exact take_eq_take_min.symm
    have hback : queue.drop (min (known' - first) max) = queue.drop max := by
      rw [hasked, Nat.min_comm]
      exact drop_eq_drop_min.symm
    rw [if_neg hnone, htake, option_some_bind, hfront]
    rw [hback] at hfilled
    refine ⟨_, rfl, hcap, first + min (known' - first) max, seen, known', ?_⟩
    have hlen : first + min (known' - first) max + (queue.drop max).length = first + queue.length := by
      rw [length_drop]
      omega
    have hroom := hc.seen_room
    have hseen := hc.seen_le
    refine ⟨hc.mask_eq, hsize.trans hc.size, ?_, rfl, rfl, ?_, ?_, hc.headCache_eq, rfl, by omega, ?_, by omega, ?_, hfilled⟩
    · rw [length_drop]
      omega
    · rw [hlen]
      exact hc.tail_eq
    · rw [hlen]
      exact hc.producer_eq
    · rw [hlen]
      exact hroom
    · rw [hlen]
      exact hle'

end Ring

end InfinityDB.Fabric

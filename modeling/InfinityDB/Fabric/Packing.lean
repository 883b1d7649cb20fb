import InfinityDB.Fabric.Mesh
import InfinityDB.Fabric.RoundTrip

/-!
# What a link carries

A link seen as one queue of ops: those in the slots of the ring, then in the sealed slots, then in the
open pack. Pushing appends, flushing moves slots, draining takes whole slots from the front.
-/

namespace InfinityDB.Fabric

open Lib List

/-- The bytes of ops one after the other. -/
inductive Packed : List Op → Bytes → Prop
  | nil : Packed [] []
  | cons {op : Op} {frame : Bytes} {ops : List Op} {bytes : Bytes} (carried : Carried op)
      (spelled : encode op [] = some frame) (rest : Packed ops bytes) : Packed (op :: ops) (frame ++ bytes)

theorem encode_append (op : Op) (out written : Bytes) :
    encode op out = some written ↔ ∃ frame, encode op [] = some frame ∧ written = out ++ frame := by
  constructor
  · intro h
    obtain ⟨hrefused, payload, hspelled, hfits, rfl⟩ := (encode_iff op out written).mp h
    exact ⟨_, (encode_iff op [] _).mpr ⟨hrefused, payload, hspelled, hfits, rfl⟩, rfl⟩
  · rintro ⟨frame, hframe, rfl⟩
    obtain ⟨hrefused, payload, hspelled, hfits, rfl⟩ := (encode_iff op [] frame).mp hframe
    exact (encode_iff op out _).mpr ⟨hrefused, payload, hspelled, hfits, rfl⟩

theorem frame_length {op : Op} {frame : Bytes} (h : encode op [] = some frame) : headerLen ≤ frame.length := by
  obtain ⟨_, payload, _, _, rfl⟩ := (encode_iff op [] frame).mp h
  rw [nil_append, frameBytes, length_append, headerBytes_length]
  omega

theorem frame_ne_nil {op : Op} {frame : Bytes} (h : encode op [] = some frame) : frame ≠ [] := by
  intro hnil
  have hlen := frame_length h
  rw [hnil] at hlen
  exact absurd hlen (by decide)

namespace Packed

variable {ops : List Op}

private theorem push {bytes written : Bytes} {op : Op} (h : Packed ops bytes) (hop : Carried op)
    (hwritten : encode op bytes = some written) : Packed (ops ++ [op]) written := by
  obtain ⟨frame, hframe, rfl⟩ := (encode_append op bytes written).mp hwritten
  induction h with
  | nil =>
    have hsingle := Packed.cons hop hframe .nil
    rwa [append_nil] at hsingle
  | cons hcarried hspelled hrest ih =>
    rw [append_assoc]
    exact .cons hcarried hspelled (ih ((encode_append _ _ _).mpr ⟨frame, hframe, rfl⟩))

theorem eq_nil_iff {bytes : Bytes} (h : Packed ops bytes) : bytes = [] ↔ ops = [] := by
  cases h with
  | nil => simp
  | cons _ hspelled _ =>
    simp only [append_eq_nil_iff, reduceCtorEq, iff_false, not_and]
    intro hnil
    exact absurd hnil (frame_ne_nil hspelled)

/-- Unpacking is packing undone. -/
theorem unpack_eq {debug : Bool} {bytes : Bytes} (h : Packed ops bytes) {fuel : Nat}
    (hfuel : bytes.length ≤ fuel) : unpack debug fuel bytes = some (ops.map Op.canonical) := by
  induction h generalizing fuel with
  | nil => cases fuel <;> rfl
  | @cons op frame ops bytes hcarried hspelled _ ih =>
    have hne := frame_ne_nil hspelled
    have hlen := frame_length hspelled
    rw [length_append] at hfuel
    cases fuel with
    | zero => exact absurd (length_eq_zero_iff.mp (by omega)) hne
    | succ fuel =>
      have hbytes : frame ++ bytes ≠ [] := fun hnil => hne (append_eq_nil_iff.mp hnil).1
      have hdecode : decodePrefix (frame ++ bytes) = some (.ok (op.canonical, frame.length)) :=
        decodeFrame_append hcarried hspelled bytes
      unfold unpack
      rw [if_neg hbytes, hdecode, option_some_bind]
      dsimp only
      rw [drop_left, ih (by unfold headerLen at hlen; omega), option_some_bind]
      rfl

end Packed

structure Slot (ops : List Op) (bytes : Bytes) : Prop where
  packed : Packed ops bytes
  ne_nil : ops ≠ []

theorem unpackAll_eq {debug : Bool} {slots : List (List Op)} {msgs : List Bytes} (h : List.Forall₂ Slot slots msgs) :
    unpackAll debug msgs = some (slots.flatten.map Op.canonical) := by
  induction h with
  | nil => rfl
  | cons hslot _ ih =>
    unfold unpackAll
    rw [hslot.packed.unpack_eq le_rfl, option_some_bind, ih, option_some_bind, flatten_cons, map_append]
    rfl

private theorem slots_le {slots : List (List Op)} {msgs : List Bytes} (h : List.Forall₂ Slot slots msgs) :
    msgs.length ≤ slots.flatten.length := by
  induction h with
  | nil => exact le_rfl
  | cons hslot _ ih =>
    have hpos := length_pos_iff.mpr hslot.ne_nil
    rw [length_cons, flatten_cons, length_append]
    omega

/-- The queue of a link: its slots, its sealed slots, its open pack. -/
structure Carries (cap : Nat) (l : Link) (inRing sealed : List (List Op)) (opened : List Op) : Prop where
  ring : ∃ msgs, l.ring.Holds cap msgs ∧ List.Forall₂ Slot inRing msgs
  staged : List.Forall₂ Slot sealed l.staged
  pack : Packed opened l.pack

/-- A link that carries these ops, in order. -/
def Queues (cap : Nat) (l : Link) (queue : List Op) : Prop :=
  ∃ inRing sealed opened, Carries cap l inRing sealed opened ∧ queue = inRing.flatten ++ sealed.flatten ++ opened

private theorem forall₂_concat {α β : Type} {R : α → β → Prop} {xs : List α} {ys : List β} {x : α} {y : β}
    (h : List.Forall₂ R xs ys) (hxy : R x y) :
    List.Forall₂ R (xs ++ [x]) (ys ++ [y]) := rel_append h (.cons hxy .nil)

namespace Queues

variable {cap : Nat} {l : Link} {queue : List Op}

theorem congr {l' : Link} (h : Queues cap l queue) (hring : l'.ring = l.ring) (hstaged : l'.staged = l.staged)
    (hpack : l'.pack = l.pack) : Queues cap l' queue := by
  obtain ⟨inRing, sealed, opened, hc, heq⟩ := h
  exact ⟨inRing, sealed, opened, ⟨hring ▸ hc.ring, hstaged ▸ hc.staged, hpack ▸ hc.pack⟩, heq⟩

theorem sealPack (h : Queues cap l queue) : Queues cap l.sealPack queue := by
  obtain ⟨inRing, sealed, opened, hc, rfl⟩ := h
  unfold Link.sealPack
  by_cases hempty : l.pack = []
  · rw [if_pos hempty]
    exact ⟨inRing, sealed, opened, hc, rfl⟩
  · rw [if_neg hempty]
    have hne : opened ≠ [] := fun hnil => hempty (hc.pack.eq_nil_iff.mpr hnil)
    refine ⟨inRing, sealed ++ [opened], [], ⟨hc.ring, forall₂_concat hc.staged ⟨hc.pack, hne⟩, .nil⟩, ?_⟩
    rw [flatten_append, flatten_singleton, append_nil, append_assoc]

private theorem sealIfFull (h : Queues cap l queue) : Queues cap l.sealIfFull queue := by
  unfold Link.sealIfFull
  split
  · exact h.sealPack
  · exact h

theorem push {op : Op} {l' : Link} (h : Queues cap l queue) (hop : Carried op) (hpush : l.push op = some l') :
    Queues cap l' (queue ++ [op]) := by
  obtain ⟨pack, hpack, heq⟩ := Option.bind_eq_some_iff.mp hpush
  obtain ⟨inRing, sealed, opened, hc, rfl⟩ := h
  rw [← Option.some.inj heq]
  apply sealIfFull
  refine ⟨inRing, sealed, opened ++ [op], ⟨hc.ring, hc.staged, hc.pack.push hop hpack⟩, ?_⟩
  rw [append_assoc]

end Queues

/-- Sealing and pushing leave credits alone. -/
theorem Link.sealPack_credits (l : Link) : l.sealPack.credits = l.credits := by
  unfold Link.sealPack
  split <;> rfl

theorem Link.push_credits {l l' : Link} {op : Op} (h : l.push op = some l') : l'.credits = l.credits := by
  obtain ⟨pack, _, heq⟩ := Option.bind_eq_some_iff.mp h
  rw [← Option.some.inj heq]
  unfold Link.sealIfFull
  split
  · exact Link.sealPack_credits _
  · rfl

/-- Slots in the ring and sealed slots, counted. -/
theorem Carries.slots_le {cap : Nat} {l : Link} {inRing sealed : List (List Op)} {opened : List Op}
    (h : Carries cap l inRing sealed opened) :
    ∃ msgs, l.ring.Holds cap msgs ∧ List.Forall₂ Slot inRing msgs ∧
      msgs.length + l.staged.length ≤ (inRing.flatten ++ sealed.flatten).length := by
  obtain ⟨msgs, hholds, hslots⟩ := h.ring
  refine ⟨msgs, hholds, hslots, ?_⟩
  have hring := Fabric.slots_le hslots
  have hstaged := Fabric.slots_le h.staged
  rw [length_append]
  omega

/-- With room for every op a flush publishes everything. -/
theorem Link.flush_spec {cap : Nat} {l : Link} {queue : List Op} (h : Queues cap l queue) (hroom : queue.length ≤ cap) :
    ∃ l', l.flush = some l' ∧ Queues cap l' queue ∧ l'.staged = [] ∧ l'.pack = [] ∧ l'.credits = l.credits := by
  have hempty : l.sealPack.pack = [] := by
    unfold Link.sealPack
    split
    · assumption
    · rfl
  have hcredits := l.sealPack_credits
  obtain ⟨inRing, sealed, opened, hc, hqueue⟩ := h.sealPack
  have hopened : opened = [] := hc.pack.eq_nil_iff.mp hempty
  subst hopened
  rw [append_nil] at hqueue
  obtain ⟨msgs, hholds, hslots, hcount⟩ := hc.slots_le
  rw [← hqueue] at hcount
  unfold Link.flush
  dsimp only
  by_cases hnone : l.sealPack.staged = []
  · rw [if_pos hnone]
    exact ⟨_, rfl, h.sealPack, hnone, hempty, hcredits⟩
  obtain ⟨ring, hpublish, hholds'⟩ := Ring.publishBatch_spec hholds l.sealPack.staged
  have hall : l.sealPack.staged.length ≤ cap - msgs.length := by omega
  rw [take_of_length_le hall] at hpublish hholds'
  rw [drop_of_length_le hall] at hpublish
  rw [if_neg hnone, hpublish, option_some_bind]
  refine ⟨_, rfl, ⟨inRing ++ sealed, [], [], ⟨⟨_, hholds', rel_append hslots hc.staged⟩, .nil, hc.pack⟩,
    ?_⟩, rfl, hempty, hcredits⟩
  rw [hqueue, flatten_append]
  simp

/-- A drain takes whole slots from the front of the ring. -/
theorem drainLoop_spec {debug : Bool} {max cap turns drained : Nat} {ring : Ring Bytes} {msgs : List Bytes} {slots : List (List Op)}
    (hholds : ring.Holds cap msgs) (hslots : List.Forall₂ Slot slots msgs) :
    ∃ ring' k drained', drainLoop debug max turns ring drained = some (ring', (slots.take k).flatten.map Op.canonical, drained') ∧
      ring'.Holds cap (msgs.drop k) := by
  induction turns generalizing ring drained msgs slots with
  | zero => exact ⟨ring, 0, drained, rfl, hholds⟩
  | succ turns ih =>
    unfold drainLoop
    by_cases hbudget : drained < max
    · rw [if_pos hbudget]
      dsimp only
      generalize hchunk : min drainSlotChunk (max - drained) = chunk
      have hpos : 0 < chunk := by
        unfold drainSlotChunk at hchunk
        omega
      obtain ⟨ring₁, hconsume, hholds₁⟩ := Ring.consumeBatch_spec hholds hpos
      have hfront := List.forall₂_take chunk hslots
      rw [hconsume, option_some_bind]
      dsimp only
      rw [unpackAll_eq hfront, option_some_bind]
      split
      · exact ⟨ring₁, chunk, _, rfl, hholds₁⟩
      · obtain ⟨ring₂, k, drained₂, hloop, hholds₂⟩ :=
          @ih (drained + ((slots.take chunk).flatten.map Op.canonical).length) ring₁ _ _
          hholds₁ (List.forall₂_drop chunk hslots)
        rw [hloop, option_some_bind]
        refine ⟨ring₂, chunk + k, drained₂, ?_, by rwa [drop_drop] at hholds₂⟩
        rw [take_add, flatten_append, map_append]
        rfl
    · rw [if_neg hbudget]
      exact ⟨ring, 0, drained, rfl, hholds⟩

theorem Queues.drain {debug : Bool} {max cap turns drained : Nat} {l : Link} {queue : List Op} (h : Queues cap l queue) :
    ∃ ring front rest drained', drainLoop debug max turns l.ring drained = some (ring, front.map Op.canonical, drained') ∧
      queue = front ++ rest ∧ Queues cap { l with ring } rest := by
  obtain ⟨inRing, sealed, opened, hc, rfl⟩ := h
  obtain ⟨msgs, hholds, hslots⟩ := hc.ring
  obtain ⟨ring, k, drained', hloop, hholds'⟩ := @drainLoop_spec debug max cap turns drained l.ring msgs inRing hholds hslots
  refine ⟨ring, (inRing.take k).flatten, (inRing.drop k).flatten ++ sealed.flatten ++ opened, drained', hloop, ?_, ?_⟩
  · have hsplit : inRing.flatten = (inRing.take k).flatten ++ (inRing.drop k).flatten := by
      rw [← flatten_append, take_append_drop]
    rw [hsplit, append_assoc, append_assoc, append_assoc]
  · exact ⟨inRing.drop k, sealed, opened, ⟨⟨_, hholds', List.forall₂_drop k hslots⟩, hc.staged, hc.pack⟩, rfl⟩

end InfinityDB.Fabric

import InfinityDB.Log.Staging

/-!
# A segment cut short

A crash may leave only a front part of what was written to a segment. The walk hands out the frames that are whole in it
and stops there, at worst at a truncated frame.
-/

namespace InfinityDB.Log

open Lib List

variable {crc32c : List UInt8 → UInt32} {maxFrameLen cut : Nat} {frames : List (SealedFrame × List UInt8)}

/-- A front part of a frame is refused for its length, before any checksum is read. -/
theorem ReadBack.torn {sealed : SealedFrame} {frame : List UInt8} (h : ReadBack crc32c maxFrameLen sealed frame) (hpos : 0 < cut)
    (hcut : cut < sealed.frameLen) (hlen : (frame.take cut).length = cut) :
    ∃ needed available, Log.decodeFrame crc32c (frame.take cut) maxFrameLen = .error (.truncated needed available) := by
  obtain ⟨t, ht⟩ : ∃ t, frame = sealed.layout.magic ++ (leBytes 4 sealed.frameLen ++ t) := by
    rw [h.bytes, SealedFrame.bytes, frameBytes_append]
    exact ⟨_, rfl⟩
  rw [Log.decodeFrame, hlen]
  by_cases hsmall : cut < 4
  · have hmagic : (frame.take cut).all (· = 0) = false := by
      obtain ⟨n, rfl⟩ : ∃ n, cut = n + 1 := ⟨cut - 1, by omega⟩
      rw [ht]
      cases sealed.layout <;> simp [FrameLayout.magic, frameMagic, frameMagicV3]
    rw [if_pos hsmall, hmagic]
    exact ⟨_, _, rfl⟩
  have hmagic : (frame.take cut).take 4 = sealed.layout.magic := by
    rw [take_take, Nat.min_eq_left (by omega), ht]
    exact take_left' (FrameLayout.magic_length _)
  rw [if_neg hsmall, hmagic, frameShape_magic, except_ok_bind]
  simp only [readShaped, hlen]
  by_cases hheader : cut < frameHeaderLen
  · exact ⟨_, _, if_pos hheader⟩
  have hdef : defaultMaxFrameLen < 2 ^ 32 := by decide
  have hfield : fieldAt (frame.take cut) 4 4 = sealed.frameLen := by
    have hwhole := fieldAt_of_drop (by have := h.default; omega) (drop_past ((drop_zero ..).trans ht) (FrameLayout.magic_length _))
    rw [← hwhole, fieldAt, fieldAt, drop_take, take_take, Nat.min_eq_left (by rw [frameHeaderLen] at hheader; omega)]
  have hrange : ¬ (sealed.frameLen < minFrameLen ∨ maxFrameLen < sealed.frameLen) := by
    have hbody := h.sealable.minimal
    have := h.max
    have hlen : sealed.frameLen = 40 + sealed.body.length + 4 := rfl
    rw [minFrameLen]
    omega
  rw [if_neg hheader]
  simp only [hfield]
  rw [if_neg hrange, extentOf_eq h.default]
  exact ⟨_, _, if_pos hcut⟩

/-- The first `cut` bytes of the frames hold `kept` and not all of the next one; after `kept` the walk yields `rest`. -/
structure TornWalk (crc32c : List UInt8 → UInt32) (it : FrameIter) (frames : List (SealedFrame × List UInt8)) (cut : Nat)
    (kept dropped : List (SealedFrame × List UInt8)) (rest : List FrameItem) : Prop where
  split : frames = kept ++ dropped
  whole : ∀ front f back, kept = front ++ f :: back → (front.flatMap Prod.snd).length + f.1.frameLen ≤ cut
  short : ∀ f ∈ dropped.head?, cut < (kept.flatMap Prod.snd).length + f.1.frameLen
  yields : Yields (FrameIter.next crc32c) it ((framesAt it.offset kept).map .ok ++ rest)
  torn : ∀ item ∈ rest, dropped ≠ [] ∧ ∃ needed available, item = .error (.truncated needed available)

private theorem yields_torn {offset : Nat} {buf : List UInt8} (hframes : ∀ f ∈ frames, ReadBack crc32c maxFrameLen f.1 f.2)
    (hdrop : buf.drop offset = (frames.flatMap Prod.snd).take cut) :
    ∃ kept dropped rest, TornWalk crc32c ⟨buf, offset, maxFrameLen, false⟩ frames cut kept dropped rest := by
  have hended : ∀ offset, Yields (FrameIter.next crc32c) ⟨buf, offset, maxFrameLen, true⟩ [] := fun _ => Yields.nil rfl
  have hover : ∀ offset, buf.drop offset = [] → Yields (FrameIter.next crc32c) ⟨buf, offset, maxFrameLen, false⟩ [] :=
    fun _ h => Yields.skip (if_pos (.inr (drop_eq_nil_iff.mp h))) (hended _)
  induction frames generalizing offset cut with
  | nil => exact ⟨[], [], [], rfl, by simp, nofun, hover _ (hdrop.trans take_nil), nofun⟩
  | cons f rest ih =>
    obtain ⟨sealed, frame⟩ := f
    have hback : ReadBack crc32c maxFrameLen sealed frame := hframes _ mem_cons_self
    have hle : sealed.frameLen ≤ frame.length := hback.length ▸ le_extentOf (extentOf_eq hback.default)
    have hpos : 0 < sealed.frameLen := Nat.succ_pos _
    rw [flatMap_cons] at hdrop
    by_cases hnone : cut = 0
    · subst hnone
      exact ⟨[], _, [], rfl, by simp, by simpa using hpos, hover _ hdrop, nofun⟩
    have hopen : ¬ (false = true ∨ buf.length ≤ offset) := by
      have := congrArg List.length hdrop
      simp only [length_drop, length_take, length_append] at this
      simp only [Bool.false_eq_true, false_or]
      omega
    by_cases hwhole : sealed.frameLen ≤ cut
    · have hdecode : decodeFrame crc32c (buf.drop offset) maxFrameLen = .ok (sealed.frameRef, sealed.frameLen) := by
        rw [hdrop, hback.bytes, SealedFrame.bytes, append_assoc, take_append, take_of_length_le (by rw [frameBytes_length]; exact hwhole)]
        exact decodeFrame_frameBytes hback.sealable hback.max hback.default _
      obtain ⟨kept, dropped, tail, hwalk⟩ := @ih (cut - frame.length) (offset + frame.length) (forall_mem_cons.mp hframes).2
        (by rw [← drop_drop, hdrop, drop_take, drop_left])
      refine ⟨(sealed, frame) :: kept, dropped, tail, congrArg _ hwalk.split, fun front f back hkept => ?_, fun f hf => ?_,
        Yields.cons ?_ hwalk.yields, hwalk.torn⟩
      · rcases cons_eq_append_iff.mp hkept with ⟨rfl, hone⟩ | ⟨front', rfl, hrest⟩
        · rw [(cons.inj hone).1]
          simpa using hwhole
        · have hfits := hwalk.whole front' f back hrest
          have hlen : 0 < f.1.frameLen := Nat.succ_pos _
          simp only [flatMap_cons, length_append]
          omega
      · have := hwalk.short f hf
        simp only [flatMap_cons, length_append]
        omega
      · rw [FrameIter.next, if_neg hopen, hdecode]
        simp only [FrameRef.paddedLen, hback.length]
        rfl
    · obtain ⟨needed, available, hdecode⟩ := hback.torn (Nat.pos_of_ne_zero hnone) (not_le.mp hwhole) (length_take_of_le (by omega))
      refine ⟨[], _, [.error (.truncated needed available)], rfl, by simp, by simpa using hwhole,
        Yields.cons ?_ (hended offset), by simp⟩
      rw [FrameIter.next, if_neg hopen, hdrop, take_append_of_le_length (by change cut ≤ frame.length; omega), hdecode]

/-- A walk over any front part of sealed frames hands out exactly the frames that are whole in it, and reports at most that
the next one is truncated. -/
theorem walk_torn (hframes : ∀ f ∈ frames, LeasedBytes crc32c maxFrameLen f.1 f.2) (cut : Nat) : ∃ kept dropped rest,
    TornWalk crc32c (.new ((frames.flatMap Prod.snd).take cut) maxFrameLen) frames cut kept dropped rest :=
  yields_torn (fun f hf => (hframes f hf).readBack) (drop_zero ..)

/-- Of two frames of 58 and 51 bytes, the first 108 bytes keep one. -/
theorem walk_torn_both : ∃ kept dropped rest,
    TornWalk sameChecksum (.new ((bothFrames.flatMap Prod.snd).take 108) 64) bothFrames 108 kept dropped rest ∧ kept.length = 1 := by
  obtain ⟨kept, dropped, rest, hwalk⟩ := walk_torn bothFrames_leased 108
  refine ⟨kept, dropped, rest, hwalk, ?_⟩
  have hsplit := hwalk.split
  rcases kept with _ | ⟨f, _ | ⟨g, kept⟩⟩
  · have hshort := hwalk.short (pairSealed, pairSealed.bytes sameChecksum) (by rw [← nil_append dropped, ← hsplit]; rfl)
    exact absurd hshort (by decide)
  · rfl
  · have hfits := hwalk.whole [f] g kept rfl
    obtain ⟨rfl, hrest⟩ := cons.inj (hsplit : _ :: _ = f :: _)
    obtain ⟨rfl, -⟩ := cons.inj hrest
    exact absurd hfits (by decide +kernel)

end InfinityDB.Log

import InfinityDB.Lib.Cursor
import InfinityDB.Lib.Varint

/-!
# Readers over bytes

A reader takes its value from the front of the bytes, or fails with a typed error; a panic is `none`.
It reads a form, that is a relation of values and bytes, when it never panics and its successes are
exactly the forms at the front of the buffer. Forms compose as the readers do.
-/

namespace Lib

open List Option

abbrev Reader (ε : Type) := StateT (List UInt8) (ExceptT ε Option)

variable {ε α β : Type}

/-- The outcome on a buffer. -/
def Reader.on (r : Reader ε α) (buf : List UInt8) : Option (Except ε (α × List UInt8)) := r buf

def Reader.panic : Reader ε α := fun _ => (none : Option (Except ε (α × List UInt8)))

def Reader.fail (error : ε) : Reader ε α := fun _ => (some (.error error) : Option (Except ε (α × List UInt8)))

/-- The reader's successes are the forms at the front. -/
structure Reads (r : Reader ε α) (form : α → List UInt8 → Prop) : Prop where
  returns : ∀ buf, r.on buf ≠ none
  ok_iff : ∀ buf a rest, r.on buf = some (.ok (a, rest)) ↔ ∃ bytes, form a bytes ∧ buf = bytes ++ rest

theorem Reader.on_pure (a : α) (buf : List UInt8) : (pure a : Reader ε α).on buf = some (.ok (a, buf)) := rfl

theorem Reader.on_bind (r : Reader ε α) (k : α → Reader ε β) (buf : List UInt8) :
    (r >>= k).on buf = (r.on buf).bind fun outcome => match outcome with
      | .error error => some (.error error)
      | .ok (a, rest) => (k a).on rest := by
  unfold Reader.on
  change (ExceptT.bind (r buf) fun p => k p.1 p.2) = _
  unfold ExceptT.bind ExceptT.mk
  cases h : r buf with
  | none => rfl
  | some outcome => cases outcome <;> rfl

namespace Reads

variable {r s : Reader ε α} {k : α → Reader ε β} {form form' : α → List UInt8 → Prop} {next : α → β → List UInt8 → Prop}

theorem congr (h : Reads r form) (hform : ∀ a bytes, form a bytes ↔ form' a bytes) : Reads r form' where
  returns := h.returns
  ok_iff buf a rest := by
    rw [h.ok_iff]
    simp only [hform]

theorem pure (a : α) : Reads (Pure.pure a : Reader ε α) (fun b bytes => b = a ∧ bytes = []) where
  returns buf := by
    rw [Reader.on_pure]
    exact some_ne_none _
  ok_iff buf b rest := by
    rw [Reader.on_pure]
    constructor
    · intro h
      cases h
      exact ⟨[], ⟨rfl, rfl⟩, rfl⟩
    · rintro ⟨_, ⟨rfl, rfl⟩, rfl⟩
      rfl

theorem fail (error : ε) : Reads (Reader.fail error : Reader ε α) (fun _ _ => False) where
  returns _ := some_ne_none _
  ok_iff buf a rest := by
    constructor
    · intro h
      cases h
    · rintro ⟨_, hfalse, -⟩
      exact hfalse.elim

theorem bind (h : Reads r form) (hnext : ∀ a, Reads (k a) (next a)) :
    Reads (r >>= k) (fun b bytes => ∃ a first second, form a first ∧ next a b second ∧ bytes = first ++ second) where
  returns buf := by
    rw [Reader.on_bind]
    cases hr : r.on buf with
    | none => exact absurd hr (h.returns buf)
    | some outcome =>
      cases outcome with
      | error => exact some_ne_none _
      | ok read => exact (hnext read.1).returns read.2
  ok_iff buf b rest := by
    rw [Reader.on_bind]
    constructor
    · intro hok
      obtain ⟨outcome, hr, hk⟩ := bind_eq_some_iff.mp hok
      cases outcome with
      | error => cases hk
      | ok read =>
        obtain ⟨first, hfirst, rfl⟩ := (h.ok_iff buf read.1 read.2).mp hr
        obtain ⟨second, hsecond, hrest⟩ := ((hnext read.1).ok_iff read.2 b rest).mp hk
        refine ⟨first ++ second, ⟨read.1, first, second, hfirst, hsecond, rfl⟩, ?_⟩
        rw [hrest, append_assoc]
    · rintro ⟨_, ⟨a, first, second, hfirst, hsecond, rfl⟩, rfl⟩
      have hr := (h.ok_iff (first ++ second ++ rest) a (second ++ rest)).mpr ⟨first, hfirst, append_assoc _ _ _⟩
      rw [hr]
      exact ((hnext a).ok_iff _ _ _).mpr ⟨second, hsecond, rfl⟩

/-- A refusal before the reader. -/
theorem guard (c : Prop) [Decidable c] (error : ε) (h : ¬c → Reads r form) :
    Reads (if c then Reader.fail error else r) (fun a bytes => ¬c ∧ form a bytes) := by
  split
  next hc => exact (fail error).congr fun _ _ => ⟨False.elim, fun h => h.1 hc⟩
  next hc => exact (h hc).congr fun _ _ => ⟨fun h => ⟨hc, h⟩, fun h => h.2⟩

end Reads

/-- So many bytes, or `error`. -/
def Reader.take (error : ε) (n : Nat) : Reader ε (List UInt8) := fun buf =>
  (if buf.length < n then some (.error error) else some (.ok (buf.take n, buf.drop n)) : Option (Except ε (List UInt8 × List UInt8)))

theorem Reads.take (error : ε) (n : Nat) : Reads (Reader.take error n) (fun head bytes => bytes = head ∧ head.length = n) where
  returns buf := by
    unfold Reader.on Reader.take
    split <;> exact some_ne_none _
  ok_iff buf head rest := by
    unfold Reader.on Reader.take
    constructor
    · intro h
      split at h
      · cases h
      rename_i hlen
      cases h
      exact ⟨_, ⟨rfl, length_take_of_le (not_lt.mp hlen)⟩, (take_append_drop n buf).symm⟩
    · rintro ⟨_, ⟨rfl, rfl⟩, rfl⟩
      rw [if_neg (by rw [length_append]; omega), take_left, drop_left]

def Reader.le (error : ε) (n : Nat) : Reader ε Nat := do
  let b ← Reader.take error n
  pure (leValue b)

theorem Reads.le (error : ε) (n : Nat) : Reads (Reader.le error n) (fun v bytes => v < 256 ^ n ∧ bytes = leBytes n v) := by
  refine ((Reads.take error n).bind fun b => Reads.pure (leValue b)).congr fun v bytes => ?_
  constructor
  · rintro ⟨b, first, second, ⟨rfl, hlen⟩, ⟨rfl, rfl⟩, rfl⟩
    subst hlen
    rw [append_nil, leBytes_leValue]
    exact ⟨leValue_lt _, rfl⟩
  · rintro ⟨hlt, rfl⟩
    exact ⟨_, _, [], ⟨rfl, leBytes_length n v⟩, ⟨(leValue_leBytes hlt).symm, rfl⟩, (append_nil _).symm⟩

/-- A varint; the slice behind it panics where it is out of range. -/
def Reader.varint (error : ε) : Reader ε UInt64 := fun buf =>
  (match decodeVarint buf with
    | none => some (.error error)
    | some (value, used) => if buf.length < used then none else some (.ok (value, buf.drop used)) :
      Option (Except ε (UInt64 × List UInt8)))

theorem Reads.varint (error : ε) : Reads (Reader.varint error) (fun v bytes => bytes = encodeVarint v) where
  returns buf := by
    unfold Reader.on Reader.varint
    cases h : decodeVarint buf with
    | none => exact some_ne_none _
    | some read =>
      obtain ⟨rest, hbuf, hused⟩ := encodeVarint_of_decodeVarint h
      dsimp only
      rw [if_neg]
      · exact some_ne_none _
      · rw [hbuf, hused, length_append]
        omega
  ok_iff buf v rest := by
    unfold Reader.on Reader.varint
    constructor
    · intro hok
      cases h : decodeVarint buf with
      | none =>
        rw [h] at hok
        cases hok
      | some read =>
        obtain ⟨rest', hbuf, hused⟩ := encodeVarint_of_decodeVarint h
        rw [h] at hok
        dsimp only at hok
        split at hok
        · cases hok
        cases hok
        refine ⟨_, rfl, ?_⟩
        rw [hused, hbuf, drop_left]
    · rintro ⟨_, rfl, rfl⟩
      rw [decodeVarint_encodeVarint]
      dsimp only
      rw [if_neg (by rw [length_append]; omega), drop_left]

end Lib

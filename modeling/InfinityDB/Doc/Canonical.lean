import InfinityDB.Doc.Builder

/-!
# The canonical tape

The validator, the builder and the readers agree: what passes is what the builder writes for some
document, the readers get that document back, and no two bodies hold the same one.
-/

namespace InfinityDB

open Lib List Option

/-- A place where a reader of a document stands: at a value, or an iterator over the items or the
entries of a container. -/
inductive Reader where
  | value (body : Bytes) (off : Nat)
  | items (body : Bytes) (off : Nat)
  | entries (body : Bytes) (off : Nat)

/-- The places that reading a body reaches, from its root. -/
inductive Reaches (doc : Bytes) : Reader → Prop where
  | root : Reaches doc (.value doc 0)
  | arr {body inner : Bytes} {off next : Nat} : Reaches doc (.value body off) →
      readValue body off = some (.arr inner, next) → Reaches doc (.items inner 0)
  | obj {body inner : Bytes} {off next : Nat} : Reaches doc (.value body off) →
      readValue body off = some (.obj inner, next) → Reaches doc (.entries inner 0)
  | item {body : Bytes} {off : Nat} : Reaches doc (.items body off) → off ≠ body.length →
      Reaches doc (.value body off)
  | nextItem {body : Bytes} {off next : Nat} : Reaches doc (.items body off) → off ≠ body.length →
      skipValue body off = some next → Reaches doc (.items body next)
  | entry {body key : Bytes} {off valAt : Nat} : Reaches doc (.entries body off) → off ≠ body.length →
      readKey body off = some (key, valAt) → Reaches doc (.value body valAt)
  | nextEntry {body key : Bytes} {off valAt next : Nat} : Reaches doc (.entries body off) → off ≠ body.length →
      readKey body off = some (key, valAt) → skipValue body valAt = some next → Reaches doc (.entries body next)

/-- A reader does its step: a value is read and skipped to the same place, a key is read. -/
def Reader.Steps : Reader → Prop
  | .value body off => ∃ value next, readValue body off = some (value, next) ∧ skipValue body off = some next
  | .items body off => off = body.length ∨ ∃ next, skipValue body off = some next
  | .entries body off => off = body.length ∨
      ∃ key valAt next, readKey body off = some (key, valAt) ∧ skipValue body valAt = some next

/-- A reader stands in front of encodings. -/
def Reader.Ready : Reader → Prop
  | .value body off => ∃ room d t, Encodable room d ∧ body.drop off = d.bytes ++ t
  | .items body off => off ≤ body.length ∧ ∃ room items, (∀ d ∈ items, Encodable room d) ∧
      body.drop off = itemsBytes items
  | .entries body off => off ≤ body.length ∧ ∃ room members, (∀ x ∈ members, StrFits x.1) ∧
      (∀ x ∈ members, Encodable room x.2) ∧ body.drop off = membersBytes members

/-- What is read where an encoding stands. -/
theorem Encodable.readValue {room : Nat} {d : Doc} {body t : Bytes} {off : Nat} (h : Encodable room d)
    (hdrop : body.drop off = d.bytes ++ t) : ∃ value, readValue body off = some (value, off + d.bytes.length) ∧
      (∀ inner, value = .arr inner → (Reader.items inner 0).Ready) ∧
      (∀ inner, value = .obj inner → (Reader.entries inner 0).Ready) := by
  cases h with
  | @scalar _ s hs =>
    rw [Doc.bytes] at hdrop ⊢
    refine ⟨s.ref, readValue_scalar hs hdrop, ?_, ?_⟩
    · intro inner heq
      cases s <;> simp [Scalar.ref] at heq
    · intro inner heq
      cases s <;> simp [Scalar.ref] at heq
  | @arr room items hitems hlen =>
    rw [Doc.bytes] at hdrop ⊢
    refine ⟨_, readValue_arr hlen hdrop, ?_, ?_⟩
    · intro inner heq
      obtain rfl := ValueRef.arr.inj heq
      exact ⟨zero_le, room, items, hitems, rfl⟩
    · intro inner heq
      simp at heq
  | @obj room members hkeys hmembers hlen =>
    rw [Doc.bytes] at hdrop ⊢
    refine ⟨_, readValue_obj hlen hdrop, ?_, ?_⟩
    · intro inner heq
      simp at heq
    · intro inner heq
      obtain rfl := ValueRef.obj.inj heq
      exact ⟨zero_le, room, members, hkeys, hmembers, rfl⟩

/-- The items at an iterator that is not at its end: one item, then the rest. -/
theorem ready_items {body : Bytes} {off : Nat} (h : (Reader.items body off).Ready) (hoff : off ≠ body.length) :
    (Reader.value body off).Ready ∧ ∃ next, skipValue body off = some next ∧ (Reader.items body next).Ready := by
  obtain ⟨hle, room, items, hitems, hdrop⟩ := h
  cases items with
  | nil =>
    have hend := drop_eq_nil_iff.mp hdrop
    omega
  | cons d items =>
    rw [itemsBytes] at hdrop
    have hd := hitems d mem_cons_self
    obtain ⟨value, hread, -⟩ := hd.readValue hdrop
    refine ⟨⟨room, d, _, hd, hdrop⟩, _, skipValue_of_readValue hread, ?_⟩
    exact ⟨add_length_le_of_drop d.bytes_ne_nil hdrop, room, items, (forall_mem_cons.mp hitems).2,
      drop_add_of_drop hdrop⟩

theorem ready_entries {body : Bytes} {off : Nat} (h : (Reader.entries body off).Ready) (hoff : off ≠ body.length) :
    ∃ key valAt next, readKey body off = some (key, valAt) ∧ (Reader.value body valAt).Ready ∧
      skipValue body valAt = some next ∧ (Reader.entries body next).Ready := by
  obtain ⟨hle, room, members, hkeys, hmembers, hdrop⟩ := h
  cases members with
  | nil =>
    have hend := drop_eq_nil_iff.mp hdrop
    omega
  | cons x members =>
    obtain ⟨key, d⟩ := x
    rw [membersBytes] at hdrop
    have hd : Encodable room d := hmembers _ mem_cons_self
    have hvalue := drop_add_of_drop hdrop
    obtain ⟨value, hread, -⟩ := hd.readValue hvalue
    refine ⟨key, _, _, readKey_of_drop (hkeys _ mem_cons_self) hdrop, ⟨room, d, _, hd, hvalue⟩,
      skipValue_of_readValue hread, ?_⟩
    exact ⟨add_length_le_of_drop d.bytes_ne_nil hvalue, room, members,
      (forall_mem_cons.mp hkeys).2, (forall_mem_cons.mp hmembers).2, drop_add_of_drop hvalue⟩

/-- Every step of a reader from the root stands in front of encodings. -/
theorem Reaches.ready {doc : Bytes} {r : Reader} (hdoc : (Reader.value doc 0).Ready) (h : Reaches doc r) : r.Ready := by
  induction h with
  | root => exact hdoc
  | arr _ hread ih =>
    obtain ⟨room, d, t, hd, hdrop⟩ := ih
    obtain ⟨value, hread', hitems, -⟩ := hd.readValue hdrop
    rw [hread'] at hread
    exact hitems _ (Prod.mk.inj (some.inj hread)).1
  | obj _ hread ih =>
    obtain ⟨room, d, t, hd, hdrop⟩ := ih
    obtain ⟨value, hread', -, hentries⟩ := hd.readValue hdrop
    rw [hread'] at hread
    exact hentries _ (Prod.mk.inj (some.inj hread)).1
  | item _ hoff ih => exact (ready_items ih hoff).1
  | nextItem _ hoff hskip ih =>
    obtain ⟨-, next, hskip', hnext⟩ := ready_items ih hoff
    rw [hskip'] at hskip
    rw [← some.inj hskip]
    exact hnext
  | entry _ hoff hkey ih =>
    obtain ⟨key, valAt, next, hkey', hvalue, -, -⟩ := ready_entries ih hoff
    rw [hkey'] at hkey
    rw [← (Prod.mk.inj (some.inj hkey)).2]
    exact hvalue
  | nextEntry _ hoff hkey hskip ih =>
    obtain ⟨key, valAt, next, hkey', -, hskip', hnext⟩ := ready_entries ih hoff
    rw [hkey'] at hkey
    rw [← (Prod.mk.inj (some.inj hkey)).2, hskip'] at hskip
    rw [← some.inj hskip]
    exact hnext

theorem Reader.Ready.steps {r : Reader} (h : r.Ready) : r.Steps := by
  cases r with
  | value body off =>
    obtain ⟨room, d, t, hd, hdrop⟩ := h
    obtain ⟨value, hread, -⟩ := hd.readValue hdrop
    exact ⟨value, _, hread, skipValue_of_readValue hread⟩
  | items body off =>
    by_cases hoff : off = body.length
    · exact .inl hoff
    · obtain ⟨-, next, hskip, -⟩ := ready_items h hoff
      exact .inr ⟨next, hskip⟩
  | entries body off =>
    by_cases hoff : off = body.length
    · exact .inl hoff
    · obtain ⟨key, valAt, next, hkey, -, hskip, -⟩ := ready_entries h hoff
      exact .inr ⟨key, valAt, next, hkey, hskip⟩

/-- The validator accepts the encodings of documents and nothing else. The builder writes only such
bodies, and with room for the worst case of one integer it writes each of them again from what the
readers return. Two bodies hold two documents, and no reader fails on them. -/
theorem tape_canonical : (∀ body, validateBody body = .ok () ↔ ∃ d, Encodable depthMax d ∧ body = d.bytes) ∧
    (∀ maxBody calls bytes, buildFragment maxBody calls = .ok bytes → validateBody bytes = .ok ()) ∧
    (∀ maxBody calls bytes, buildDocument maxBody calls = .ok bytes → ∃ body, tapeDocFromBytes bytes = .ok body) ∧
    (∀ body, validateBody body = .ok () → ∀ maxBody,
      (rebuild maxBody body = some (.ok body) ∨ ∃ n, rebuild maxBody body = some (.error (.refused (.tooLarge n)))) ∧
      (body.length + 9 ≤ min maxBody docBytesMax → rebuild maxBody body = some (.ok body))) ∧
    (∀ a b, validateBody a = .ok () → validateBody b = .ok () → a ≠ b →
      ∃ d e, decodeBody a = some d ∧ decodeBody b = some e ∧ d ≠ e) ∧
    ∀ body, validateBody body = .ok () → ∀ r, Reaches body r → r.Steps := by
  refine ⟨fun _ => validateBody_eq_ok, ?_, ?_, ?_, ?_, ?_⟩
  · intro maxBody calls bytes h
    exact validateBody_eq_ok.mpr (buildFragment_ok h)
  · intro maxBody calls bytes h
    obtain ⟨d, -, hdoc⟩ := buildDocument_ok h
    exact ⟨d.bytes, hdoc⟩
  · intro body hbody maxBody
    obtain ⟨d, hd, rfl⟩ := validateBody_eq_ok.mp hbody
    obtain ⟨calls, hcalls, hbuild⟩ := hd.buildFragment
    have hrebuild : rebuild maxBody d.bytes = some (buildFragment maxBody calls) := by
      rw [rebuild, decodeBody_bytes hd]
      simp only [bind_eq_bind, bind_some, hcalls]
    rw [hrebuild]
    rcases hbuild maxBody with hok | ⟨⟨n, hrefused⟩, hslack⟩
    · rw [hok]
      exact ⟨.inl rfl, fun _ => rfl⟩
    · rw [hrefused]
      exact ⟨.inr ⟨n, rfl⟩, fun hroom => absurd hroom (by omega)⟩
  · intro a b ha hb hne
    obtain ⟨d, hd, rfl⟩ := validateBody_eq_ok.mp ha
    obtain ⟨e, he, rfl⟩ := validateBody_eq_ok.mp hb
    refine ⟨d, e, decodeBody_bytes hd, decodeBody_bytes he, ?_⟩
    intro heq
    rw [heq] at hne
    exact hne rfl
  · intro body hbody r hreach
    obtain ⟨d, hd, rfl⟩ := validateBody_eq_ok.mp hbody
    exact (hreach.ready ⟨depthMax, d, [], hd, by rw [append_nil]; rfl⟩).steps

/-- The object `{"a": [-33, true]}`: accepted, and written again under a cap of 22 bytes. -/
theorem tape_canonical_object : validateBody [0xA7, 9, 0, 0, 0x81, 0x61, 0xA8, 3, 0, 0, 0xA3, 0x41, 0xA2] = .ok () ∧
      rebuild 22 [0xA7, 9, 0, 0, 0x81, 0x61, 0xA8, 3, 0, 0, 0xA3, 0x41, 0xA2] =
        some (.ok [0xA7, 9, 0, 0, 0x81, 0x61, 0xA8, 3, 0, 0, 0xA3, 0x41, 0xA2]) := by
  have hbody : validateBody [0xA7, 9, 0, 0, 0x81, 0x61, 0xA8, 3, 0, 0, 0xA3, 0x41, 0xA2] = .ok () := by rfl
  exact ⟨hbody, (tape_canonical.2.2.2.1 _ hbody 22).2 (by decide)⟩

end InfinityDB

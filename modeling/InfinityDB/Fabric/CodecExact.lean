import InfinityDB.Fabric.Codec
import InfinityDB.Lib.FrameStream

/-!
# The decoder accepts what the encoder writes

Each field reader reads exactly the bytes its writer gives, so a frame is accepted exactly when an op
spells it. The encoder and the decoder part in one place only: a batch with a nested op that names a
default namespace is written and then refused.
-/

namespace InfinityDB.Fabric

open Lib List Option

private theorem reads_u8 : Reads readU8 (fun b bytes => bytes = [b]) := by
  constructor
  · intro buf
    cases buf with
    | nil | cons b rest => exact some_ne_none _
  · intro buf b rest
    cases buf with
    | nil =>
      constructor
      · intro h
        cases h
      · rintro ⟨_, rfl, h⟩
        cases h
    | cons c tail =>
      constructor
      · intro h
        cases h
        exact ⟨[b], rfl, rfl⟩
      · rintro ⟨_, rfl, h⟩
        cases h
        rfl

variable {α : Type} {payload : Bytes} {op : Op} {r : Decodes α} {form : α → Bytes → Prop}

theorem reads_map {β : Type} (f : α → β) (h : Reads r form) :
    Reads (r >>= fun a => pure (f a)) (fun b bytes => ∃ a, form a bytes ∧ f a = b) := by
  refine (h.bind fun a => Reads.pure (f a)).congr fun b bytes => ?_
  constructor
  · rintro ⟨a, first, _, hform, ⟨rfl, rfl⟩, rfl⟩
    rw [append_nil]
    exact ⟨a, hform, rfl⟩
  · rintro ⟨a, hform, rfl⟩
    exact ⟨a, bytes, [], hform, ⟨rfl, rfl⟩, (append_nil _).symm⟩

/-- A number in as many bytes as its word has. -/
theorem reads_word {n : Nat} {ofNat : Nat → α} {toNat : α → Nat} (hlt : ∀ w, toNat w < 256 ^ n)
    (hof : ∀ w, ofNat (toNat w) = w) (hto : ∀ v, v < 256 ^ n → toNat (ofNat v) = v) :
    Reads (Reader.le CodecError.truncated n >>= fun v => pure (ofNat v)) (fun w bytes => bytes = leBytes n (toNat w)) := by
  refine (reads_map ofNat (Reads.le CodecError.truncated n)).congr fun w bytes => ?_
  constructor
  · rintro ⟨v, ⟨hv, rfl⟩, rfl⟩
    rw [hto v hv]
  · rintro rfl
    exact ⟨toNat w, ⟨hlt w, rfl⟩, hof w⟩

theorem reads_u16 : Reads readU16 (fun v bytes => bytes = leBytes 2 v.toNat) :=
  reads_word UInt16.toNat_lt (fun _ => UInt16.ofNat_toNat) fun _ => UInt16.toNat_ofNat_of_lt'

theorem reads_u32 : Reads readU32 (fun v bytes => bytes = u32Bytes v) :=
  reads_word UInt32.toNat_lt (fun _ => UInt32.ofNat_toNat) fun _ => UInt32.toNat_ofNat_of_lt'

theorem reads_u64 : Reads readU64 (fun v bytes => bytes = u64Bytes v) :=
  reads_word UInt64.toNat_lt (fun _ => UInt64.ofNat_toNat) fun _ => UInt64.toNat_ofNat_of_lt'

private theorem reads_i64 : Reads readI64 (fun v bytes => bytes = u64Bytes v.toUInt64) := by
  refine (reads_map UInt64.toInt64 reads_u64).congr fun w bytes => ?_
  constructor
  · rintro ⟨v, rfl, rfl⟩
    rw [UInt64.toUInt64_toInt64]
  · rintro rfl
    exact ⟨w.toUInt64, rfl, Int64.toInt64_toUInt64 w⟩

/-- A slice whose length fits the count in front of it. -/
def Counted (value : Bytes) : Prop := value.length < 2 ^ 64

theorem reads_bytes : Reads readBytes (fun value bytes => Counted value ∧ bytes = encodeBytes value) := by
  refine ((Reads.varint CodecError.badVarint).bind fun len => Reads.take CodecError.truncated len.toNat).congr fun value bytes => ?_
  constructor
  · rintro ⟨len, _, _, rfl, ⟨rfl, hlen⟩, rfl⟩
    have hlt := len.toNat_lt
    refine ⟨hlen.trans_lt hlt, ?_⟩
    rw [encodeBytes, hlen, UInt64.ofNat_toNat]
  · rintro ⟨hlt, rfl⟩
    exact ⟨UInt64.ofNat value.length, _, _, rfl, ⟨rfl, (UInt64.toNat_ofNat_of_lt' hlt).symm⟩, rfl⟩

private theorem reads_many (n : Nat) : Reads (readMany n) (fun args bytes =>
    (∀ arg ∈ args.val, Counted arg) ∧ bytes = args.val.flatMap encodeBytes) := by
  induction n with
  | zero =>
    refine (Reads.pure _).congr fun args bytes => ?_
    constructor
    · rintro ⟨rfl, rfl⟩
      exact ⟨nofun, rfl⟩
    · rintro ⟨-, rfl⟩
      obtain ⟨args, hargs⟩ := args
      obtain rfl := length_eq_zero_iff.mp hargs
      exact ⟨rfl, rfl⟩
  | succ n ih =>
    refine (reads_bytes.bind fun arg => ih.bind fun args => Reads.pure _).congr fun args bytes => ?_
    constructor
    · rintro ⟨arg, _, _, ⟨harg, rfl⟩, ⟨rest, _, _, ⟨hrest, rfl⟩, ⟨rfl, rfl⟩, rfl⟩, rfl⟩
      refine ⟨forall_mem_cons.mpr ⟨harg, hrest⟩, ?_⟩
      rw [append_nil, flatMap_cons]
    · rintro ⟨hall, rfl⟩
      obtain ⟨args, hargs⟩ := args
      cases args with
      | nil => cases hargs
      | cons arg args =>
        obtain ⟨harg, hrest⟩ := forall_mem_cons.mp hall
        refine ⟨arg, _, _, ⟨harg, rfl⟩, ⟨⟨args, Nat.succ.inj hargs⟩, _, [], ⟨hrest, rfl⟩, ⟨rfl, rfl⟩, rfl⟩, ?_⟩
        rw [append_nil, flatMap_cons]

/-- The check against the bytes left refuses nothing that fits. -/
private theorem reads_left (n : Nat) (h : Reads r form) (hlen : ∀ a bytes, form a bytes → n ≤ bytes.length) :
    Reads (readLeft >>= fun left => if left < n then Reader.fail .truncated else r) form := by
  have hon (buf : Bytes) : (readLeft >>= fun left => if left < n then Reader.fail .truncated else r).on buf =
      if buf.length < n then some (.error .truncated) else r.on buf := by
    rw [Reader.on_bind]
    change (if buf.length < n then Reader.fail .truncated else r).on buf = _
    split <;> rfl
  constructor
  · intro buf
    rw [hon]
    split
    · exact some_ne_none _
    · exact h.returns buf
  · intro buf a rest
    rw [hon]
    constructor
    · intro hok
      split at hok
      · cases hok
      · exact (h.ok_iff buf a rest).mp hok
    · rintro ⟨bytes, hform, rfl⟩
      rw [if_neg]
      · exact (h.ok_iff _ a rest).mpr ⟨bytes, hform, rfl⟩
      · have := hlen a bytes hform
        rw [length_append]
        omega

namespace ApplyArgs

private theorem asSlice_ofArgs (args : List Bytes) (h : args.length ≤ maxApplyArgs) : (ofArgs args h).asSlice = args := by
  change (if spillTable args = [] then (inlineTable args).take args.length else spillTable args) = args
  unfold spillTable inlineTable
  by_cases hinline : args.length ≤ maxInlineApplyArgs
  · rw [if_pos hinline, if_pos rfl, if_pos hinline, take_left]
  · have hne : args ≠ [] := by
      rintro rfl
      exact hinline zero_le
    rw [if_neg hinline, if_neg hne]

theorem exists_ofArgs (args : ApplyArgs) : ∃ (slices : List Bytes) (h : slices.length ≤ maxApplyArgs), args = ofArgs slices h := by
  obtain ⟨inline, len, spill, slices, h, rfl, rfl, rfl⟩ := args
  exact ⟨slices, h, rfl⟩

end ApplyArgs

theorem flatMap_encodeBytes_length (args : List Bytes) : args.length ≤ (args.flatMap encodeBytes).length := by
  induction args with
  | nil => exact zero_le
  | cons arg args ih =>
    have := (encodeVarint_length (UInt64.ofNat arg.length)).1
    rw [flatMap_cons, length_append, length_cons, encodeBytes, length_append]
    omega

def ApplyArgs.Counted (args : ApplyArgs) : Prop := ∀ arg ∈ args.asSlice, Fabric.Counted arg

theorem reads_args : Reads readArgs (fun args bytes => args.Counted ∧ bytes = encodeArgs args) := by
  have hbody (argc : UInt64) (h : argc.toNat ≤ maxApplyArgs) :
      Reads (readLeft >>= fun left => if left < argc.toNat then Reader.fail .truncated else do
        let args ← readMany argc.toNat
        pure (ApplyArgs.ofArgs args.val (args.property.trans_le h)))
        (fun args bytes => args.len = argc.toNat ∧ args.Counted ∧ bytes = args.asSlice.flatMap encodeBytes) := by
    apply reads_left
    · refine ((reads_many argc.toNat).bind fun args => Reads.pure _).congr fun args bytes => ?_
      constructor
      · rintro ⟨slices, _, _, ⟨hall, rfl⟩, ⟨rfl, rfl⟩, rfl⟩
        refine ⟨slices.property, ?_, ?_⟩
        · intro arg harg
          rw [ApplyArgs.asSlice_ofArgs] at harg
          exact hall arg harg
        · rw [ApplyArgs.asSlice_ofArgs, append_nil]
      · rintro ⟨hlen, hall, rfl⟩
        obtain ⟨slices, hslices, rfl⟩ := args.exists_ofArgs
        unfold ApplyArgs.Counted at hall
        rw [ApplyArgs.asSlice_ofArgs] at hall ⊢
        exact ⟨⟨slices, hlen⟩, _, [], ⟨hall, rfl⟩, ⟨rfl, rfl⟩, (append_nil _).symm⟩
    · rintro args bytes ⟨hlen, -, rfl⟩
      obtain ⟨slices, hslices, rfl⟩ := args.exists_ofArgs
      rw [ApplyArgs.asSlice_ofArgs, ← hlen]
      exact flatMap_encodeBytes_length slices
  have hcond (argc : UInt64) :
      Reads (if h : argc.toNat ≤ maxApplyArgs then (readLeft >>= fun left => if left < argc.toNat then Reader.fail .truncated else do
        let args ← readMany argc.toNat
        pure (ApplyArgs.ofArgs args.val (args.property.trans_le h))) else Reader.fail (.tooManyArgs argc))
        (fun args bytes => args.len = argc.toNat ∧ args.Counted ∧ bytes = args.asSlice.flatMap encodeBytes) := by
    by_cases h : argc.toNat ≤ maxApplyArgs
    · rw [dif_pos h]
      exact hbody argc h
    · rw [dif_neg h]
      refine (Reads.fail _).congr fun args bytes => ⟨False.elim, ?_⟩
      rintro ⟨hlen, -⟩
      obtain ⟨slices, hslices, rfl⟩ := args.exists_ofArgs
      exact h (hlen ▸ hslices)
  refine ((Reads.varint CodecError.badVarint).bind hcond).congr fun args bytes => ?_
  constructor
  · rintro ⟨argc, _, _, rfl, ⟨hlen, hall, rfl⟩, rfl⟩
    refine ⟨hall, ?_⟩
    rw [encodeArgs, hlen, UInt64.ofNat_toNat]
  · rintro ⟨hall, rfl⟩
    obtain ⟨slices, hslices, rfl⟩ := args.exists_ofArgs
    refine ⟨UInt64.ofNat slices.length, _, _, rfl, ⟨?_, hall, rfl⟩, rfl⟩
    exact (UInt64.toNat_ofNat_of_lt' (hslices.trans_lt (by decide))).symm

theorem reads_slot : Reads readSlot (fun slot bytes => bytes = encodeSlot slot) := by
  have hcond (raw : UInt16) : Reads (if h : raw.toNat < 16384 then pure ⟨raw, h⟩
      else (Reader.fail (.invalidSlot raw) : Decodes KeySlot))
      (fun slot bytes => slot.raw = raw ∧ bytes = []) := by
    by_cases h : raw.toNat < 16384
    · rw [dif_pos h]
      refine (Reads.pure _).congr fun slot bytes => and_congr_left' ?_
      constructor
      · rintro rfl
        rfl
      · rintro rfl
        rfl
    · rw [dif_neg h]
      refine (Reads.fail _).congr fun slot bytes => ⟨False.elim, ?_⟩
      rintro ⟨rfl, -⟩
      exact h slot.lt
  refine (reads_u16.bind hcond).congr fun slot bytes => ?_
  constructor
  · rintro ⟨_, _, _, rfl, ⟨rfl, rfl⟩, rfl⟩
    exact append_nil _
  · rintro rfl
    exact ⟨_, _, [], rfl, ⟨rfl, rfl⟩, (append_nil _).symm⟩

theorem reads_tag {k : UInt8 → Decodes α} {form : UInt8 → α → Bytes → Prop} (h : ∀ tag, Reads (k tag) (form tag)) :
    Reads (readU8 >>= k) (fun a bytes => ∃ tag rest, form tag a rest ∧ bytes = tag :: rest) := by
  refine (reads_u8.bind h).congr fun a bytes => ?_
  constructor
  · rintro ⟨tag, _, rest, rfl, hform, rfl⟩
    exact ⟨tag, rest, hform, rfl⟩
  · rintro ⟨tag, rest, hform, rfl⟩
    exact ⟨tag, [tag], rest, rfl, hform, rfl⟩

theorem reads_ite {tag expected : UInt8} {s : Decodes α} {form' : α → Bytes → Prop} (hr : Reads r form) (hs : Reads s form') :
    Reads (if tag = expected then r else s) (fun a bytes => if tag = expected then form a bytes else form' a bytes) := by
  by_cases h : tag = expected
  · simp only [if_pos h]
    exact hr
  · simp only [if_neg h]
    exact hs

private theorem reads_bool : Reads readBool (fun value bytes => bytes = [if value then 1 else 0]) := by
  refine (reads_tag fun tag => reads_ite (Reads.pure false) (reads_ite (Reads.pure true) (Reads.fail _))).congr fun value bytes => ?_
  constructor
  · rintro ⟨tag, rest, hform, rfl⟩
    split at hform
    · obtain ⟨rfl, rfl⟩ := hform
      subst tag
      rfl
    · split at hform
      · obtain ⟨rfl, rfl⟩ := hform
        subst tag
        rfl
      · exact hform.elim
  · rintro rfl
    cases value with
    | false => exact ⟨0, [], ⟨rfl, rfl⟩, rfl⟩
    | true => exact ⟨1, [], ⟨rfl, rfl⟩, rfl⟩

theorem ErrCode.toU16_fromU16 (raw : UInt16) : (ErrCode.fromU16 raw).toU16 = raw := by
  unfold fromU16
  split
  next h => exact h.symm
  split
  next h => exact h.symm
  split
  next h => exact h.symm
  split
  next h => exact h.symm
  rfl

/-- A known code in its own variant. -/
def ErrCode.Canonical (code : ErrCode) : Prop := ErrCode.fromU16 code.toU16 = code

/-- What an outcome decodes as. -/
def Outcome.Canonical : Outcome → Prop
  | .bytes value => Counted value
  | .err code => code.Canonical
  | _ => True

private theorem reads_errCode : Reads (readU16 >>= fun raw => pure (Outcome.err (.fromU16 raw)))
    (fun outcome bytes => ∃ code, outcome = .err code ∧ code.Canonical ∧ bytes = leBytes 2 code.toU16.toNat) := by
  refine (reads_map _ reads_u16).congr fun outcome bytes => ?_
  constructor
  · rintro ⟨raw, rfl, rfl⟩
    refine ⟨_, rfl, ?_, ?_⟩
    · rw [ErrCode.Canonical, ErrCode.toU16_fromU16]
    · rw [ErrCode.toU16_fromU16]
  · rintro ⟨code, rfl, hcode, rfl⟩
    exact ⟨code.toU16, rfl, congrArg Outcome.err hcode⟩

private theorem reads_outcome : Reads readOutcome (fun outcome bytes => outcome.Canonical ∧ bytes = encodeOutcome outcome) := by
  refine (reads_tag fun tag => reads_ite (Reads.pure .ok) (reads_ite (reads_map Outcome.bytes reads_bytes)
    (reads_ite (reads_map Outcome.int reads_i64)
    (reads_ite (Reads.pure .nil) (reads_ite (reads_map Outcome.bool reads_bool) (reads_ite reads_errCode (Reads.fail _))))))).congr
    fun outcome bytes => ?_
  constructor
  · rintro ⟨tag, rest, hform, rfl⟩
    split at hform
    · obtain ⟨rfl, rfl⟩ := hform
      subst tag
      exact ⟨trivial, rfl⟩
    split at hform
    · obtain ⟨value, ⟨hcounted, rfl⟩, rfl⟩ := hform
      subst tag
      exact ⟨hcounted, rfl⟩
    split at hform
    · obtain ⟨value, rfl, rfl⟩ := hform
      subst tag
      exact ⟨trivial, rfl⟩
    split at hform
    · obtain ⟨rfl, rfl⟩ := hform
      subst tag
      exact ⟨trivial, rfl⟩
    split at hform
    · obtain ⟨value, rfl, rfl⟩ := hform
      subst tag
      exact ⟨trivial, rfl⟩
    split at hform
    · obtain ⟨code, rfl, hcode, rfl⟩ := hform
      subst tag
      exact ⟨hcode, rfl⟩
    · exact hform.elim
  · rintro ⟨hcanonical, rfl⟩
    cases outcome with
    | ok => exact ⟨0, [], ⟨rfl, rfl⟩, rfl⟩
    | bytes value => exact ⟨1, _, ⟨value, ⟨hcanonical, rfl⟩, rfl⟩, rfl⟩
    | int value => exact ⟨2, _, ⟨value, rfl, rfl⟩, rfl⟩
    | nil => exact ⟨3, [], ⟨rfl, rfl⟩, rfl⟩
    | bool value => exact ⟨4, _, ⟨value, rfl, rfl⟩, rfl⟩
    | err code => exact ⟨5, _, ⟨code, rfl, hcanonical, rfl⟩, rfl⟩

private theorem reads_expire : Reads readExpire (fun expireAt bytes => bytes = encodeExpire expireAt) := by
  refine (reads_tag fun tag => reads_ite (Reads.pure none)
    (reads_ite (reads_map some reads_u64) (Reads.fail _))).congr fun expireAt bytes => ?_
  constructor
  · rintro ⟨tag, rest, hform, rfl⟩
    split at hform
    · obtain ⟨rfl, rfl⟩ := hform
      subst tag
      rfl
    split at hform
    · obtain ⟨value, rfl, rfl⟩ := hform
      subst tag
      rfl
    · exact hform.elim
  · rintro rfl
    cases expireAt with
    | none => exact ⟨0, [], ⟨rfl, rfl⟩, rfl⟩
    | some value => exact ⟨1, _, ⟨value, rfl, rfl⟩, rfl⟩

/-- What a decoded op has: counted slices, a namespace of its own and a canonical outcome. -/
def Op.Sound : Op → Prop
  | .read _ _ key => Counted key
  | .write _ _ key value _ _ => Counted key ∧ Counted value
  | .apply _ _ _ args _ => args.Counted
  | .applyNs _ _ _ ns args _ => applyNsMin ≤ ns.toNat ∧ args.Counted
  | .batch _ => True
  | .reply _ outcome => outcome.Canonical
  | .adoptConn _ _ => True

/-- The header's program flag is the op's, where it has one. -/
def Op.ProgramIs (program : Bool) : Op → Prop
  | .apply _ _ _ _ p => p = program
  | .applyNs _ _ _ _ _ p => p = program
  | _ => True

def LeafForm (opcode : UInt8) (program : Bool) (op : Op) (payload : Bytes) : Prop :=
  op.opcode = opcode ∧ op.ProgramIs program ∧ op.Sound ∧ encodeLeafPayload op = some payload

private theorem reads_read (program : Bool) : Reads readRead (LeafForm opRead program) := by
  refine (reads_u64.bind fun token => reads_slot.bind fun slot => reads_map (Op.read token slot) reads_bytes).congr fun op bytes => ?_
  constructor
  · rintro ⟨token, _, _, rfl, ⟨slot, _, _, rfl, ⟨key, ⟨hkey, rfl⟩, rfl⟩, rfl⟩, rfl⟩
    refine ⟨rfl, trivial, hkey, ?_⟩
    rw [encodeLeafPayload, append_assoc]
  · rintro ⟨hop, -, hsound, hpayload⟩
    cases op with
    | read token slot key =>
      cases hpayload
      exact ⟨token, _, _, rfl, ⟨slot, _, _, rfl, ⟨key, ⟨hsound, rfl⟩, rfl⟩, rfl⟩, append_assoc _ _ _⟩
    | _ => exact absurd hop (by simp only [Op.opcode]; decide)

private theorem reads_apply (program : Bool) : Reads (readApply program) (LeafForm opApply program) := by
  refine (reads_u64.bind fun token => reads_slot.bind fun slot => reads_tag fun cmd =>
    reads_map (fun args => Op.apply token slot cmd args program) reads_args).congr fun op bytes => ?_
  constructor
  · rintro ⟨token, _, _, rfl, ⟨slot, _, _, rfl, ⟨cmd, _, ⟨args, ⟨hargs, rfl⟩, rfl⟩, rfl⟩, rfl⟩, rfl⟩
    refine ⟨rfl, rfl, hargs, ?_⟩
    simp only [encodeLeafPayload, append_assoc, cons_append, nil_append]
  · rintro ⟨hop, hprogram, hsound, hpayload⟩
    cases op with
    | apply token slot cmd args p =>
      cases hpayload
      obtain rfl : p = program := hprogram
      refine ⟨token, _, _, rfl, ⟨slot, _, _, rfl, ⟨cmd, _, ⟨args, ⟨hsound, rfl⟩, rfl⟩, rfl⟩, rfl⟩, ?_⟩
      simp only [append_assoc, cons_append, nil_append]
    | _ => exact absurd hop (by simp only [Op.opcode]; decide)

private theorem reads_ns : Reads readNs (fun ns bytes => applyNsMin ≤ ns.toNat ∧ bytes = u32Bytes ns) := by
  refine (reads_u32.bind fun ns => Reads.guard (ns.toNat < applyNsMin) (.applyNsDefault ns) fun _ => Reads.pure ns).congr fun ns bytes => ?_
  constructor
  · rintro ⟨_, _, _, rfl, ⟨hns, rfl, rfl⟩, rfl⟩
    exact ⟨not_lt.mp hns, append_nil _⟩
  · rintro ⟨hns, rfl⟩
    exact ⟨ns, _, [], rfl, ⟨not_lt.mpr hns, rfl, rfl⟩, (append_nil _).symm⟩

private theorem reads_applyNs (program : Bool) : Reads (readApplyNs program) (LeafForm opApplyNs program) := by
  refine (reads_u64.bind fun token => reads_slot.bind fun slot => reads_tag fun cmd => reads_ns.bind fun ns =>
    reads_map (fun args => Op.applyNs token slot cmd ns args program) reads_args).congr fun op bytes => ?_
  constructor
  · rintro ⟨token, _, _, rfl,
      ⟨slot, _, _, rfl, ⟨cmd, _, ⟨ns, _, _, ⟨hns, rfl⟩, ⟨args, ⟨hargs, rfl⟩, rfl⟩, rfl⟩, rfl⟩, rfl⟩, rfl⟩
    refine ⟨rfl, rfl, ⟨hns, hargs⟩, ?_⟩
    simp only [encodeLeafPayload, append_assoc, cons_append, nil_append]
  · rintro ⟨hop, hprogram, hsound, hpayload⟩
    cases op with
    | applyNs token slot cmd ns args p =>
      cases hpayload
      obtain rfl : p = program := hprogram
      refine ⟨token, _, _, rfl,
        ⟨slot, _, _, rfl, ⟨cmd, _, ⟨ns, _, _, ⟨hsound.1, rfl⟩, ⟨args, ⟨hsound.2, rfl⟩, rfl⟩,
        rfl⟩, rfl⟩, rfl⟩, ?_⟩
      simp only [append_assoc, cons_append, nil_append]
    | _ => exact absurd hop (by simp only [Op.opcode]; decide)

private theorem reads_reply (program : Bool) : Reads readReply (LeafForm opReply program) := by
  refine (reads_u64.bind fun token => reads_map (Op.reply token) reads_outcome).congr fun op bytes => ?_
  constructor
  · rintro ⟨token, _, _, rfl, ⟨outcome, ⟨houtcome, rfl⟩, rfl⟩, rfl⟩
    exact ⟨rfl, trivial, houtcome, rfl⟩
  · rintro ⟨hop, -, hsound, hpayload⟩
    cases op with
    | reply token outcome =>
      cases hpayload
      exact ⟨token, _, _, rfl, ⟨outcome, ⟨hsound, rfl⟩, rfl⟩, rfl⟩
    | _ => exact absurd hop (by simp only [Op.opcode]; decide)

private theorem reads_adoptConn (program : Bool) : Reads readAdoptConn (LeafForm opAdoptConn program) := by
  refine (reads_u64.bind fun token => reads_map (Op.adoptConn token) reads_u32).congr fun op bytes => ?_
  constructor
  · rintro ⟨token, _, _, rfl, ⟨fd, rfl, rfl⟩, rfl⟩
    exact ⟨rfl, trivial, trivial, rfl⟩
  · rintro ⟨hop, -, -, hpayload⟩
    cases op with
    | adoptConn token fd =>
      cases hpayload
      exact ⟨token, _, _, rfl, ⟨fd, rfl, rfl⟩, rfl⟩
    | _ => exact absurd hop (by simp only [Op.opcode]; decide)

/-- The refusal can name its byte where the payload has it. -/
private theorem reads_writeFlags {byte : UInt8} (h : payload[10]? = some byte) :
    Reads (readWriteFlags payload) (fun flags bytes => bytes = [flags.bits]) := by
  unfold readWriteFlags
  refine (reads_tag (?_ : ∀ bits, Reads _ (fun flags bytes => flags.bits = bits ∧ bytes = []))).congr fun flags bytes => ?_
  · intro bits
    unfold WriteFlags.fromBits
    by_cases hbits : bits &&& ~~~7 = 0
    · rw [dif_pos hbits]
      refine (Reads.pure _).congr fun flags bytes => and_congr_left' ?_
      constructor
      · rintro rfl
        rfl
      · rintro rfl
        rfl
    · rw [dif_neg hbits, h]
      refine (Reads.fail _).congr fun flags bytes => ⟨False.elim, ?_⟩
      rintro ⟨rfl, -⟩
      exact hbits flags.known
  constructor
  · rintro ⟨_, _, ⟨rfl, rfl⟩, rfl⟩
    rfl
  · rintro rfl
    exact ⟨_, [], ⟨rfl, rfl⟩, rfl⟩

private theorem reads_write {byte : UInt8} (program : Bool) (h : payload[10]? = some byte) :
    Reads (readWrite payload) (LeafForm opWrite program) := by
  refine (reads_u64.bind fun token => reads_slot.bind fun slot => (reads_writeFlags h).bind fun flags => reads_expire.bind fun expireAt =>
    reads_bytes.bind fun key => reads_map (fun value => Op.write token slot key value expireAt flags) reads_bytes).congr fun op bytes => ?_
  constructor
  · rintro ⟨token, _, _, rfl, ⟨slot, _, _, rfl, ⟨flags, _, _, rfl, ⟨expireAt, _, _, rfl, ⟨key, _, _, ⟨hkey, rfl⟩,
      ⟨value, ⟨hvalue, rfl⟩, rfl⟩, rfl⟩, rfl⟩, rfl⟩, rfl⟩, rfl⟩
    refine ⟨rfl, trivial, ⟨hkey, hvalue⟩, ?_⟩
    simp only [encodeLeafPayload, append_assoc]
  · rintro ⟨hop, -, hsound, hpayload⟩
    cases op with
    | write token slot key value expireAt flags =>
      cases hpayload
      refine ⟨token, _, _, rfl, ⟨slot, _, _, rfl, ⟨flags, _, _, rfl, ⟨expireAt, _, _, rfl, ⟨key, _, _, ⟨hsound.1, rfl⟩,
        ⟨value, ⟨hsound.2, rfl⟩, rfl⟩, rfl⟩, rfl⟩, rfl⟩, rfl⟩, ?_⟩
      simp only [append_assoc]
    | _ => exact absurd hop (by simp only [Op.opcode]; decide)

/-- Exactly these values, and never a panic. -/
structure DecodesTo {α : Type} (outcome : Decoded α) (form : α → Prop) : Prop where
  returns : outcome ≠ none
  ok_iff : ∀ a, outcome = some (.ok a) ↔ form a

theorem whole_decodesTo (h : Reads r form) (payload : Bytes) :
    DecodesTo (whole (r.on payload)) (fun a => form a payload) := by
  have hnone := h.returns payload
  have hform (a : α) : form a payload ↔ r.on payload = some (.ok (a, [])) := by
    rw [h.ok_iff]
    simp
  simp only [hform]
  cases hr : r.on payload with
  | none => exact absurd hr hnone
  | some outcome =>
    cases outcome with
    | error error => exact ⟨some_ne_none _, fun a => by simp [whole]⟩
    | ok read =>
      obtain ⟨value, rest⟩ := read
      constructor
      · unfold whole
        dsimp only
        split <;> exact some_ne_none _
      · intro a
        unfold whole
        dsimp only
        by_cases hrest : rest = []
        · rw [if_pos hrest, hrest]
          simp
        · rw [if_neg hrest]
          simp [hrest]

/-- The bytes before the write flags' refusal. -/
private theorem decodeLeaf_shortWrite (program : Bool) (h : payload[10]? = none) :
    DecodesTo (whole ((readWrite payload).on payload)) (fun op => LeafForm opWrite program op payload) := by
  have hlen : payload.length ≤ 10 := List.getElem?_eq_none_iff.mp h
  obtain ⟨error, herror⟩ : ∃ error, (readWrite payload).on payload = some (.error error) := by
    unfold readWrite
    rw [Reader.on_bind]
    cases htoken : readU64.on payload with
    | none => exact absurd htoken (reads_u64.returns payload)
    | some outcome =>
      cases outcome with
      | error error => exact ⟨error, rfl⟩
      | ok token =>
        obtain ⟨_, rfl, hpayload⟩ := (reads_u64.ok_iff payload token.1 token.2).mp htoken
        rw [bind_some]
        dsimp only
        rw [Reader.on_bind]
        cases hslot : readSlot.on token.2 with
        | none => exact absurd hslot (reads_slot.returns token.2)
        | some outcome =>
          cases outcome with
          | error error => exact ⟨error, rfl⟩
          | ok slot =>
            obtain ⟨_, rfl, hrest⟩ := (reads_slot.ok_iff token.2 slot.1 slot.2).mp hslot
            -- the ten bytes are used up
            have hnil : slot.2 = [] := by
              apply length_eq_zero_iff.mp
              have := congrArg List.length hpayload
              rw [hrest, length_append, length_append, u64Bytes_length, encodeSlot, leBytes_length] at this
              omega
            rw [bind_some]
            dsimp only
            rw [hnil]
            exact ⟨.truncated, rfl⟩
  rw [herror]
  refine ⟨some_ne_none _, fun op => ⟨(fun h => nomatch h), ?_⟩⟩
  rintro ⟨hop, -, -, hpayload⟩
  exfalso
  cases op with
  | write token slot key value expireAt flags =>
    cases hpayload
    simp only [length_append, u64Bytes_length, encodeSlot, leBytes_length, length_singleton] at hlen
    omega
  | _ => exact absurd hop (by simp only [Op.opcode]; decide)

/-- No leaf has this opcode. -/
theorem leafForm_false {opcode : UInt8} {program : Bool} (hleaf : ∀ op : Op, encodeLeafPayload op ≠ none → op.opcode ≠ opcode) :
    ¬LeafForm opcode program op payload := by
  rintro ⟨hop, -, -, hpayload⟩
  exact hleaf op (by rw [hpayload]; exact some_ne_none _) hop

theorem decodeLeaf_spec (header : FrameHeader) :
    DecodesTo (decodeLeaf header) (fun op => LeafForm header.opcode header.program op header.payload) := by
  obtain ⟨opcode, program, payload, stop⟩ := header
  unfold decodeLeaf readLeaf
  dsimp only
  split
  next h => exact h ▸ whole_decodesTo (reads_read program) payload
  split
  next h =>
    cases hbyte : payload[10]? with
    | none => exact h ▸ decodeLeaf_shortWrite program hbyte
    | some byte => exact h ▸ whole_decodesTo (reads_write program hbyte) payload
  split
  next h => exact h ▸ whole_decodesTo (reads_apply program) payload
  split
  next h => exact h ▸ whole_decodesTo (reads_applyNs program) payload
  split
  next h =>
    refine whole_decodesTo ((Reads.fail _).congr fun op bytes => ⟨False.elim, fun hform => ?_⟩) payload
    refine leafForm_false (fun op hpayload => ?_) hform
    rw [h]
    cases op with
    | batch => exact absurd rfl hpayload
    | _ => simp only [Op.opcode]; decide
  split
  next h => exact h ▸ whole_decodesTo (reads_reply program) payload
  split
  next h => exact h ▸ whole_decodesTo (reads_adoptConn program) payload
  rename_i h1 h2 h3 h4 h5 h6 h7
  refine whole_decodesTo ((Reads.fail _).congr fun op bytes => ⟨False.elim, fun hform => ?_⟩) payload
  refine leafForm_false (fun op hpayload hop => ?_) hform
  cases op with
  | read => exact h1 hop.symm
  | write => exact h2 hop.symm
  | apply => exact h3 hop.symm
  | applyNs => exact h4 hop.symm
  | batch => exact h5 hop.symm
  | reply => exact h6 hop.symm
  | adoptConn => exact h7 hop.symm

def headerBytes (opcode : UInt8) (program : Bool) (len : Nat) : Bytes :=
  [codecVersion, opcode] ++ leBytes 2 (if program then flagProgram else 0) ++ leBytes 4 len

theorem headerBytes_length (opcode : UInt8) (program : Bool) (len : Nat) : (headerBytes opcode program len).length = headerLen := by
  simp only [headerBytes, length_append, leBytes_length, length_cons, length_nil]
  rfl

/-- A header that the decoder accepts, with its payload. -/
structure HeaderForm (header : FrameHeader) : Prop where
  fits : header.payload.length < 2 ^ 32
  stop_eq : header.stop = headerLen + header.payload.length
  flag : header.program = true → header.opcode = opApply ∨ header.opcode = opApplyNs

theorem decodeHeader_ok_iff (buf : Bytes) (header : FrameHeader) : decodeHeader buf = .ok header ↔ HeaderForm header ∧
      ∃ rest, buf = headerBytes header.opcode header.program header.payload.length ++ header.payload ++ rest := by
  constructor
  · intro h
    unfold decodeHeader at h
    split at h
    next version opcode f0 f1 l0 l1 l2 l3 tail =>
      obtain ⟨hversion, h⟩ := guard_ok h
      dsimp only at h
      obtain ⟨hflags, h⟩ := guard_ok h
      obtain ⟨hprogram, h⟩ := guard_ok h
      obtain ⟨hlen, h⟩ := guard_ok h
      cases h
      have hversion : version = codecVersion := not_not.mp hversion
      have hlow : leValue [l0, l1, l2, l3] < 2 ^ 32 := by
        have hpow : (2 : Nat) ^ 32 = 256 ^ 4 := by norm_num
        rw [hpow]
        exact leValue_lt [l0, l1, l2, l3]
      have hpayload : (tail.take (leValue [l0, l1, l2, l3])).length = leValue [l0, l1, l2, l3] := by
        apply length_take_of_le
        simp only [length_cons, headerLen] at hlen
        omega
      have hstop : headerLen + leValue [l0, l1, l2, l3] - headerLen = leValue [l0, l1, l2, l3] := Nat.add_sub_cancel_left _ _
      have hdrop : (version :: opcode :: f0 :: f1 :: l0 :: l1 :: l2 :: l3 :: tail).drop headerLen = tail := rfl
      rw [hdrop, hstop]
      refine ⟨⟨?_, ?_, ?_⟩, tail.drop (leValue [l0, l1, l2, l3]), ?_⟩
      · dsimp only
        rwa [hpayload]
      · dsimp only
        rw [hpayload]
      · intro hset
        by_contra hop
        exact hprogram ⟨of_decide_eq_true hset, hop⟩
      · have hflagBytes : leBytes 2 (if decide (leValue [f0, f1] = flagProgram) then flagProgram else 0) = [f0, f1] := by
          have hflag : (if decide (leValue [f0, f1] = flagProgram) then flagProgram else 0) = leValue [f0, f1] := by
            by_cases hone : leValue [f0, f1] = flagProgram
            · rw [decide_eq_true hone, if_pos rfl, hone]
            · rw [decide_eq_false hone, if_neg Bool.false_ne_true]
              by_contra hzero
              exact hflags ⟨fun h => hzero h.symm, hone⟩
          rw [hflag]
          exact leBytes_leValue [f0, f1]
        have hlenBytes : leBytes 4 (leValue [l0, l1, l2, l3]) = [l0, l1, l2, l3] := leBytes_leValue [l0, l1, l2, l3]
        dsimp only
        rw [headerBytes, hpayload, hflagBytes, hlenBytes, hversion, append_assoc, take_append_drop]
        rfl
    · cases h
  · rintro ⟨⟨hfits, hstop, hflag⟩, rest, rfl⟩
    obtain ⟨opcode, program, payload, stop⟩ := header
    dsimp only at hfits hstop hflag ⊢
    obtain ⟨l0, l1, l2, l3, hlen⟩ : ∃ l0 l1 l2 l3, leBytes 4 payload.length = [l0, l1, l2, l3] := ⟨_, _, _, _, rfl⟩
    have hvalue : leValue [l0, l1, l2, l3] = payload.length := by
      have hpow : (2 : Nat) ^ 32 = 256 ^ 4 := by norm_num
      rw [← hlen]
      exact leValue_leBytes (hpow ▸ hfits)
    obtain ⟨f0, f1, hflagBytes, hflagValue⟩ : ∃ f0 f1, leBytes 2 (if program then flagProgram else 0) = [f0, f1] ∧
        leValue [f0, f1] = if program then flagProgram else 0 := by
      cases program with
      | true => exact ⟨1, 0, rfl, rfl⟩
      | false => exact ⟨0, 0, rfl, rfl⟩
    have hbuf : headerBytes opcode program payload.length ++ payload ++ rest =
        codecVersion :: opcode :: f0 :: f1 :: l0 :: l1 :: l2 :: l3 :: (payload ++ rest) := by
      rw [headerBytes, hlen, hflagBytes, append_assoc]
      rfl
    rw [hbuf]
    unfold decodeHeader
    dsimp only
    rw [if_neg (by simp), hflagValue, hvalue]
    have hknown : ¬((if program then flagProgram else 0) ≠ 0 ∧ (if program then flagProgram else 0) ≠ flagProgram) := by
      cases program <;> decide
    have hset : ((if program then flagProgram else 0) = flagProgram) ↔ program = true := by
      cases program <;> decide
    rw [if_neg hknown, if_neg (fun h => h.2 (hflag (hset.mp h.1))), if_neg]
    · have hprogram : decide ((if program then flagProgram else 0) = flagProgram) = program := by
        cases program <;> rfl
      have hpayload : (payload ++ rest).take (headerLen + payload.length - headerLen) = payload := by
        rw [Nat.add_sub_cancel_left, take_left]
      change Except.ok
        (⟨opcode, _, (payload ++ rest).take (headerLen + payload.length - headerLen), headerLen + payload.length⟩ : FrameHeader) = _
      rw [hprogram, hpayload, hstop]
    · simp only [length_cons, length_append, headerLen]
      omega

def Op.program : Op → Bool
  | .apply _ _ _ _ program => program
  | .applyNs _ _ _ _ _ program => program
  | _ => false

def frameBytes (op : Op) (payload : Bytes) : Bytes := headerBytes op.opcode op.program payload.length ++ payload

theorem headerFlags_eq (op : Op) : op.headerFlags = if op.program then flagProgram else 0 := by
  cases op with
  | apply _ _ _ _ program | applyNs _ _ _ _ _ program => cases program <;> rfl
  | _ => rfl

theorem program_opcode (h : op.program = true) : op.opcode = opApply ∨ op.opcode = opApplyNs := by
  cases op with
  | apply => exact .inl rfl
  | applyNs => exact .inr rfl
  | _ => cases h

/-- The flag agrees, since no other leaf admits it. -/
theorem programIs_iff {header : FrameHeader} (hform : HeaderForm header) (hop : op.opcode = header.opcode) :
    op.ProgramIs header.program ↔ op.program = header.program := by
  have hfalse (h : ¬(op.opcode = opApply ∨ op.opcode = opApplyNs)) : header.program = false := by
    by_contra hset
    exact h (hop ▸ hform.flag (Bool.not_eq_false _ ▸ hset))
  cases op with
  | apply | applyNs => exact Iff.rfl
  | _ => exact ⟨fun _ => (hfalse (by simp only [Op.opcode]; decide)).symm, fun _ => trivial⟩

theorem decodeLeafFrame_iff (buf : Bytes) (op : Op) (stop : Nat) :
    (∃ header, decodeHeader buf = .ok header ∧ decodeLeaf header = some (.ok op) ∧ header.stop = stop) ↔
      ∃ payload rest, buf = frameBytes op payload ++ rest ∧ stop = (frameBytes op payload).length ∧
        payload.length < 2 ^ 32 ∧ op.Sound ∧ encodeLeafPayload op = some payload := by
  constructor
  · rintro ⟨header, hheader, hleaf, rfl⟩
    obtain ⟨hform, rest, rfl⟩ := (decodeHeader_ok_iff buf header).mp hheader
    obtain ⟨hop, hprogram, hsound, hpayload⟩ := ((decodeLeaf_spec header).ok_iff op).mp hleaf
    have hflag := (programIs_iff hform hop).mp hprogram
    refine ⟨header.payload, rest, ?_, ?_, hform.fits, hsound, hpayload⟩
    · rw [frameBytes, hop, hflag]
    · rw [frameBytes, length_append, headerBytes_length, hform.stop_eq]
  · rintro ⟨payload, rest, rfl, rfl, hfits, hsound, hpayload⟩
    have hform : HeaderForm ⟨op.opcode, op.program, payload, headerLen + payload.length⟩ := ⟨hfits, rfl, program_opcode⟩
    refine ⟨_, (decodeHeader_ok_iff _ _).mpr ⟨hform, rest, rfl⟩, ?_, ?_⟩
    · exact ((decodeLeaf_spec _).ok_iff op).mpr ⟨rfl, (programIs_iff hform rfl).mpr rfl, hsound, hpayload⟩
    · rw [frameBytes, length_append, headerBytes_length]

/-- A frame that a batch nests. -/
def NestedForm (op : Op) (bytes : Bytes) : Prop :=
  mayNest op = true ∧ op.Sound ∧ ∃ payload, bytes = frameBytes op payload ∧ payload.length < 2 ^ 32 ∧
    encodeLeafPayload op = some payload

theorem opcode_eq_batch (h : op.opcode = opBatch) : encodeLeafPayload op = none := by
  cases op with
  | batch => rfl
  | _ => exact absurd h (by simp only [Op.opcode]; decide)

/-- What a batch makes of a leaf. -/
def nestedOutcome (op : Op) (buf : Bytes) (stop : Nat) : Decoded (Op × Bytes) :=
  match op with
  | .reply _ _ => some (.error .replyInBatch)
  | .adoptConn _ _ => some (.error .adoptConnInBatch)
  | op => if buf.length < stop then none else some (.ok (op, buf.drop stop))

theorem readNested_of_leaf {buf : Bytes} {header : FrameHeader} (hheader : decodeHeader buf = .ok header) (hop : header.opcode ≠ opBatch)
    (hleaf : decodeLeaf header = some (.ok op)) : readNested.on buf = nestedOutcome op buf header.stop := by
  unfold Reader.on readNested
  rw [hheader]
  dsimp only
  rw [if_neg hop, hleaf]
  cases op <;> rfl

theorem nestedOutcome_eq {buf : Bytes} {stop : Nat} (hle : stop ≤ buf.length) (hleaf : encodeLeafPayload op ≠ none) :
    nestedOutcome op buf stop ≠ none ∧
      ∀ read, nestedOutcome op buf stop = some (.ok read) ↔ mayNest op = true ∧ read = (op, buf.drop stop) := by
  unfold nestedOutcome
  cases op with
  | batch => exact absurd rfl hleaf
  | reply | adoptConn => simp [mayNest]
  | _ =>
    dsimp only
    rw [if_neg (not_lt.mpr hle)]
    simp [mayNest, eq_comm]

private theorem reads_nested : Reads readNested NestedForm := by
  have hcases (buf : Bytes) : (∃ error, readNested.on buf = some (.error error)) ∧
      (∀ op bytes rest, NestedForm op bytes → buf ≠ bytes ++ rest) ∨
      ∃ op payload rest, buf = frameBytes op payload ++ rest ∧ payload.length < 2 ^ 32 ∧ op.Sound ∧
      encodeLeafPayload op = some payload ∧
        readNested.on buf = nestedOutcome op buf (frameBytes op payload).length := by
    -- a nested frame at the front would have been decoded as a leaf
    have hnone (hno : ∀ op stop, ¬∃ header, decodeHeader buf = .ok header ∧
        decodeLeaf header = some (.ok op) ∧ header.stop = stop) :
        ∀ op bytes rest, NestedForm op bytes → buf ≠ bytes ++ rest := by
      rintro op _ rest ⟨-, hsound, payload, rfl, hfits, hpayload⟩ hbuf
      exact hno op _ ((decodeLeafFrame_iff buf op _).mpr ⟨payload, rest, hbuf, rfl, hfits, hsound, hpayload⟩)
    cases hheader : decodeHeader buf with
    | error error =>
      refine .inl ⟨⟨error, ?_⟩, hnone ?_⟩
      · unfold Reader.on readNested
        rw [hheader]
      · rintro op stop ⟨header, hok, -⟩
        rw [hheader] at hok
        cases hok
    | ok header =>
      by_cases hbatch : header.opcode = opBatch
      · refine .inl ⟨⟨.nestedBatch, ?_⟩, hnone ?_⟩
        · unfold Reader.on readNested
          rw [hheader]
          exact if_pos hbatch
        · rintro op stop ⟨header', hok, hleaf, -⟩
          rw [hheader] at hok
          cases hok
          obtain ⟨hop, -, -, hpayload⟩ := ((decodeLeaf_spec header).ok_iff op).mp hleaf
          rw [opcode_eq_batch (hop.trans hbatch)] at hpayload
          cases hpayload
      · cases hleaf : decodeLeaf header with
        | none => exact absurd hleaf (decodeLeaf_spec header).returns
        | some outcome =>
          cases outcome with
          | error error =>
            refine .inl ⟨⟨error, ?_⟩, hnone ?_⟩
            · unfold Reader.on readNested
              rw [hheader]
              dsimp only
              rw [if_neg hbatch, hleaf]
            · rintro op stop ⟨header', hok, hleaf', -⟩
              rw [hheader] at hok
              cases hok
              rw [hleaf] at hleaf'
              cases hleaf'
          | ok op =>
            obtain ⟨payload, rest, hbuf, hstop, hfits, hsound, hpayload⟩ :=
              (decodeLeafFrame_iff buf op header.stop).mp ⟨header, hheader, hleaf, rfl⟩
            refine .inr ⟨op, payload, rest, hbuf, hfits, hsound, hpayload, ?_⟩
            rw [readNested_of_leaf hheader hbatch hleaf, hstop]
  constructor
  · intro buf
    rcases hcases buf with ⟨⟨error, herror⟩, -⟩ | ⟨op, payload, rest, rfl, -, -, hpayload, hread⟩
    · rw [herror]
      exact some_ne_none _
    · rw [hread]
      exact (nestedOutcome_eq (by rw [length_append]; omega) (by rw [hpayload]; exact some_ne_none _)).1
  · intro buf op' rest'
    rcases hcases buf with ⟨⟨error, herror⟩, hno⟩ | ⟨op, payload, rest, rfl, hfits, hsound, hpayload, hread⟩
    · rw [herror]
      refine ⟨(fun h => nomatch h), ?_⟩
      rintro ⟨bytes, hform, hbuf⟩
      exact absurd hbuf (hno op' bytes rest' hform)
    · rw [hread, (nestedOutcome_eq (by rw [length_append]; omega) (by rw [hpayload]; exact some_ne_none _)).2]
      rw [drop_left]
      constructor
      · rintro ⟨hnest, heq⟩
        cases heq
        exact ⟨_, ⟨hnest, hsound, payload, rfl, hfits, hpayload⟩, rfl⟩
      · rintro ⟨_, ⟨hnest, hsound', payload', rfl, hfits', hpayload'⟩, hbuf⟩
        -- the same bytes are the same frame
        have hsame := (decodeLeafFrame_iff (frameBytes op payload ++ rest) op _).mpr ⟨payload, rest, rfl, rfl, hfits, hsound, hpayload⟩
        have hsame' := (decodeLeafFrame_iff (frameBytes op payload ++ rest) op' _).mpr
          ⟨payload', rest', hbuf, rfl, hfits', hsound', hpayload'⟩
        obtain ⟨header, hheader, hleaf, hstop⟩ := hsame
        obtain ⟨header', hheader', hleaf', hstop'⟩ := hsame'
        rw [hheader] at hheader'
        cases hheader'
        rw [hleaf] at hleaf'
        cases hleaf'
        refine ⟨hnest, ?_⟩
        have hrest := congrArg (List.drop header.stop) hbuf
        rw [hstop, drop_left, ← hstop, hstop', drop_left] at hrest
        rw [hrest]

private theorem reads_allNested (n : Nat) : Reads (readAllNested n) (fun ops bytes => ops.length = n ∧ ∃ frames,
    List.Forall₂ NestedForm ops frames ∧ bytes = frames.flatten) := by
  induction n with
  | zero =>
    refine (Reads.pure _).congr fun ops bytes => ?_
    constructor
    · rintro ⟨rfl, rfl⟩
      exact ⟨rfl, [], .nil, rfl⟩
    · rintro ⟨hlen, frames, hforms, rfl⟩
      obtain rfl := length_eq_zero_iff.mp hlen
      cases hforms
      exact ⟨rfl, rfl⟩
  | succ n ih =>
    refine (reads_nested.bind fun op => reads_map (op :: ·) ih).congr fun ops bytes => ?_
    constructor
    · rintro ⟨op, frame, _, hform, ⟨ops', ⟨hlen, frames, hforms, rfl⟩, rfl⟩, rfl⟩
      exact ⟨congrArg Nat.succ hlen, frame :: frames, .cons hform hforms, rfl⟩
    · rintro ⟨hlen, frames, hforms, rfl⟩
      cases hforms with
      | nil => cases hlen
      | cons hform hforms => exact ⟨_, _, _, hform, ⟨_, ⟨Nat.succ.inj hlen, _, hforms, rfl⟩, rfl⟩, rfl⟩

def BatchForm (op : Op) (payload : Bytes) : Prop :=
  ∃ ops frames, op = .batch ops ∧ ops.length ≤ maxBatchOps ∧ List.Forall₂ NestedForm ops frames ∧
    payload = encodeVarint (UInt64.ofNat ops.length) ++ frames.flatten

theorem reads_batch : Reads readBatch BatchForm := by
  refine ((Reads.varint CodecError.badVarint).bind fun count => Reads.guard (maxBatchOps < count.toNat) (.tooManyBatchOps count) fun _ =>
    reads_map Op.batch (reads_allNested count.toNat)).congr fun op payload => ?_
  constructor
  · rintro ⟨count, _, _, rfl, ⟨hcount, ops, ⟨hlen, frames, hforms, rfl⟩, rfl⟩, rfl⟩
    refine ⟨ops, frames, rfl, hlen ▸ not_lt.mp hcount, hforms, ?_⟩
    rw [hlen, UInt64.ofNat_toNat]
  · rintro ⟨ops, frames, rfl, hmax, hforms, rfl⟩
    have hcount : (UInt64.ofNat ops.length).toNat = ops.length := UInt64.toNat_ofNat_of_lt' (hmax.trans_lt (by decide))
    refine ⟨UInt64.ofNat ops.length, _, _, rfl, ⟨?_, ops, ⟨hcount.symm, frames, hforms, rfl⟩, rfl⟩, rfl⟩
    rw [hcount]
    exact not_lt.mpr hmax

end InfinityDB.Fabric

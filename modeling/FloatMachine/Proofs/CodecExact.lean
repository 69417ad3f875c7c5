import FloatMachine.Program.Schema
import FloatMachine.Proofs.Outcome

/-! Codecs read exactly what they write. What a decoder accepts is the image of a value within
the length limits, followed by any rest, and the rest is what it leaves. -/
namespace FloatMachine

namespace Codec

/-- The decoder takes off an input the image of a value that fits, and nothing else. -/
def Exact {α : Type} (c : Codec α) (Fits : α → Prop) : Prop :=
  ∀ input v rest, c.decode input = (.ok v, rest) ↔ Fits v ∧ input = c.encode v ++ rest

theorem Exact.first {α β : Type} {c : Codec α} {Fits : α → Prop} (exact : c.Exact Fits)
    {next : α → Decoder β} {input rest : Bytes} {b : β} :
    (c.decode >>= next) input = (.ok b, rest) ↔
      ∃ a m, Fits a ∧ input = c.encode a ++ m ∧ next a m = (.ok b, rest) := by
  simp only [bind_ok, exact _ _ _, and_assoc]

theorem Exact.under {α β : Type} {c : Codec α} {Fits : α → Prop} (exact : c.Exact Fits)
    {wrap : α → β} {input rest : Bytes} {b : β} :
    (c.decode >>= fun a => pure (wrap a)) input = (.ok b, rest) ↔
      ∃ a, Fits a ∧ input = c.encode a ++ rest ∧ wrap a = b := by
  simp only [exact.first, pure_ok]
  constructor
  · rintro ⟨a, _, fits, split, same, rfl⟩
    exact ⟨a, fits, split, same⟩
  · rintro ⟨a, fits, split, same⟩
    exact ⟨a, rest, fits, split, same, rfl⟩

theorem take_ok {n : Nat} {input head rest : Bytes} :
    Decoder.take n input = (.ok head, rest) ↔ head.length = n ∧ input = head ++ rest := by
  constructor
  · intro h
    dsimp only [Decoder.take] at h
    split at h
    · rename_i full
      cases h
      exact ⟨full, (List.take_append_drop n input).symm⟩
    · cases h
  · rintro ⟨rfl, rfl⟩
    exact Decoder.take_append head rest

theorem littleEndianValue_lt (b : Bytes) : littleEndianValue b < Nat.pow 256 b.length := by
  induction b with
  | nil => decide
  | cons d b ih =>
    have digit := d.toNat_lt
    have power : Nat.pow 256 (d :: b).length = 256 * Nat.pow 256 b.length := Nat.pow_succ'
    have value : littleEndianValue (d :: b) = d.toNat + 256 * littleEndianValue b := rfl
    omega

theorem word_exact {α : Type} {width : Nat} {toNat : α → Nat} {ofNat : Nat → α}
    (left : ∀ v, ofNat (toNat v) = v) (bound : ∀ v, toNat v < Nat.pow 256 width)
    (right : ∀ n < Nat.pow 256 width, toNat (ofNat n) = n) :
    (word width toNat ofNat).Exact fun _ => True := by
  intro input v rest
  have image : (word width toNat ofNat).encode v = littleEndian width (toNat v) := by
    simp [word, encode]
  simp only [image, true_and]
  simp only [word, bind_ok, take_ok, pure_ok]
  constructor
  · rintro ⟨head, _, ⟨rfl, rfl⟩, rfl, rfl⟩
    rw [right _ (littleEndianValue_lt head), littleEndian_littleEndianValue]
  · rintro rfl
    refine ⟨_, rest, ⟨length_littleEndian width _, rfl⟩, ?_, rfl⟩
    rw [littleEndianValue_littleEndian, Nat.mod_eq_of_lt (bound v), left]

theorem u8_exact : u8.Exact fun _ => True :=
  word_exact (fun _ => UInt8.ofNat_toNat) UInt8.toNat_lt fun _ => UInt8.toNat_ofNat_of_lt'

theorem u16_exact : u16.Exact fun _ => True :=
  word_exact (fun _ => UInt16.ofNat_toNat) UInt16.toNat_lt fun _ => UInt16.toNat_ofNat_of_lt'

theorem u32_exact : u32.Exact fun _ => True :=
  word_exact (fun _ => UInt32.ofNat_toNat) UInt32.toNat_lt fun _ => UInt32.toNat_ofNat_of_lt'

theorem u64_exact : u64.Exact fun _ => True :=
  word_exact (fun _ => UInt64.ofNat_toNat) UInt64.toNat_lt fun _ => UInt64.toNat_ofNat_of_lt'

theorem binary32_exact : binary32.Exact fun _ => True :=
  word_exact (fun x => by simp) (fun x => x.bits.toNat_lt) fun _ => UInt32.toNat_ofNat_of_lt'

@[simp] theorem u8_writes (v : UInt8) : u8.writes v = [[v]] := by
  simp [u8, word, littleEndian]

@[simp] theorem u8_encode (v : UInt8) : u8.encode v = [v] := by
  simp [encode]

theorem length_exact : length.Exact fun n => n ≤ maxLength := by
  intro input n rest
  simp only [length, u64_exact.first, unless_ok, pure_ok, Nat.not_lt]
  constructor
  · rintro ⟨w, m, -, rfl, small, rfl, rfl⟩
    refine ⟨small, ?_⟩
    simp only [encode, UInt64.ofNat_toNat]
  · rintro ⟨small, rfl⟩
    have kept : (UInt64.ofNat n).toNat = n :=
      UInt64.toNat_ofNat_of_lt' (Nat.lt_of_le_of_lt small (by decide))
    exact ⟨UInt64.ofNat n, rest, trivial, rfl, by rwa [kept], kept, rfl⟩

theorem times_ok {α : Type} {item : Codec α} {Fits : α → Prop} (exact : item.Exact Fits)
    {n : Nat} {found all : Array α} {input rest : Bytes} :
    Decoder.times item.decode n found input = (.ok all, rest) ↔
      ∃ vs : List α, vs.length = n ∧ (∀ v ∈ vs, Fits v) ∧ input = vs.flatMap item.encode ++ rest ∧
        found ++ vs.toArray = all := by
  -- what was found so far grows with each item, and the input shrinks
  induction n generalizing found input with
  | zero =>
    simp only [Decoder.times, pure_ok]
    constructor
    · rintro ⟨rfl, rfl⟩
      exact ⟨[], rfl, by simp, rfl, by simp⟩
    · rintro ⟨vs, none, -, rfl, rfl⟩
      cases List.eq_nil_of_length_eq_zero none
      exact ⟨by simp, rfl⟩
  | succ n ih =>
    simp only [Decoder.times, exact.first, ih]
    constructor
    · rintro ⟨v, _, fits, rfl, vs, rfl, all_fit, rfl, rfl⟩
      exact ⟨v :: vs, rfl, List.forall_mem_cons.2 ⟨fits, all_fit⟩, by simp, by simp⟩
    · rintro ⟨vs, count, fit, rfl, rfl⟩
      cases vs with
      | nil => cases count
      | cons v vs =>
        obtain ⟨fits, all_fit⟩ := List.forall_mem_cons.1 fit
        exact ⟨v, _, fits, by simp, vs, Nat.succ.inj count, all_fit, rfl, by simp⟩

theorem list_encode {α : Type} (item : Codec α) (vs : List α) :
    (list item).encode vs = length.encode vs.length ++ vs.flatMap item.encode := by
  have images : (vs.flatMap item.writes).flatten = vs.flatMap item.encode := by
    induction vs with
    | nil => rfl
    | cons v vs ih => simp [encode, ih]
  rw [← images]
  simp [list, encode]

theorem list_exact {α : Type} {item : Codec α} {Fits : α → Prop} (exact : item.Exact Fits) :
    (list item).Exact fun vs => vs.length ≤ maxLength ∧ ∀ v ∈ vs, Fits v := by
  intro input vs rest
  rw [list_encode]
  simp only [list, length_exact.first, bind_ok, times_ok exact, pure_ok]
  constructor
  · rintro ⟨_, _, small, rfl, _, _, ⟨us, rfl, fit, rfl, rfl⟩, rfl, rfl⟩
    simpa using ⟨small, fit⟩
  · rintro ⟨⟨small, fit⟩, rfl⟩
    exact ⟨_, _, small, List.append_assoc .., _, rest, ⟨vs, rfl, fit, rfl, rfl⟩, by simp, rfl⟩

theorem text_encode (s : String) :
    text.encode s = length.encode s.utf8ByteSize ++ s.toUTF8.data.toList := by
  simp [text, encode]

theorem length_utf8 (s : String) : s.toUTF8.data.toList.length = s.utf8ByteSize := by simp

theorem fromUTF8?_bytes (s : String) :
    String.fromUTF8? ⟨s.toUTF8.data.toList.toArray⟩ = some s := by
  simp [String.fromUTF8?, s.isValidUTF8]
  rfl

theorem bytes_of_fromUTF8? {b : Bytes} {s : String}
    (valid : String.fromUTF8? ⟨b.toArray⟩ = some s) : s.toUTF8.data.toList = b := by
  unfold String.fromUTF8? at valid
  split at valid
  · cases valid
    rfl
  · cases valid

theorem text_exact : text.Exact fun s => s.utf8ByteSize ≤ maxLength := by
  intro input s rest
  rw [text_encode]
  simp only [text, length_exact.first, bind_ok, take_ok]
  constructor
  · rintro ⟨_, _, small, rfl, head, m, ⟨rfl, rfl⟩, read⟩
    cases valid : String.fromUTF8? ⟨head.toArray⟩ with
    | none =>
      rw [valid] at read
      exact (throw_ok.1 read).elim
    | some t =>
      rw [valid] at read
      obtain ⟨rfl, rfl⟩ := pure_ok.1 read
      obtain rfl := bytes_of_fromUTF8? valid
      rw [length_utf8] at small ⊢
      exact ⟨small, (List.append_assoc ..).symm⟩
  · rintro ⟨small, rfl⟩
    refine ⟨_, _, small, List.append_assoc .., _, rest, ⟨length_utf8 s, rfl⟩, ?_⟩
    rw [fromUTF8?_bytes]
    exact pure_ok.2 ⟨rfl, rfl⟩

theorem option_exact {α : Type} {item : Codec α} {Fits : α → Prop} (exact : item.Exact Fits) :
    (option item).Exact fun o => ∀ v ∈ o, Fits v := by
  intro input o rest
  simp only [option, u8_exact.first, u8_encode]
  constructor
  · rintro ⟨tag, m, -, rfl, read⟩
    split at read
    · obtain ⟨rfl, rfl⟩ := pure_ok.1 read
      simp [encode]
    · obtain ⟨v, fits, rfl, rfl⟩ := exact.under.1 read
      simp [encode, fits]
    · exact (throw_ok.1 read).elim
  · rintro ⟨fits, rfl⟩
    cases o with
    | none => exact ⟨0, rest, trivial, by simp [encode], pure_ok.2 ⟨rfl, rfl⟩⟩
    | some v =>
      refine ⟨1, item.encode v ++ rest, trivial, by simp [encode], ?_⟩
      exact exact.under.2 ⟨v, fits v rfl, rfl, rfl⟩

theorem vector_encode {n : Nat} (v : Vector UInt8 n) : (vector n).encode v = v.toList := by
  simp [vector, encode, ← List.flatMap_def]

theorem vector_exact (n : Nat) : (vector n).Exact fun _ => True := by
  intro input v rest
  rw [vector_encode]
  constructor
  · intro h
    dsimp only [vector, Decoder.takeVector] at h
    split at h
    · cases h
      simp
    · cases h
  · rintro ⟨-, rfl⟩
    have full : ((v.toList ++ rest).take n).length = n := by simp
    have head : (⟨((v.toList ++ rest).take n).toArray, by simp⟩ : Vector UInt8 n) = v := by
      apply Vector.toArray_inj.1
      simp only [List.take_left' v.length_toList]
      rfl
    simp only [vector, Decoder.takeVector, dif_pos full, head]
    simp

end Codec

namespace Operation

theorem codec_exact : codec.Exact fun _ => True := by
  intro input op rest
  simp only [codec, Codec.u8_exact.first, Codec.u8_encode]
  constructor
  · rintro ⟨code, m, -, rfl, read⟩
    cases found : ofOpcode? code with
    | none =>
      rw [found] at read
      exact (throw_ok.1 read).elim
    | some op =>
      rw [found] at read
      obtain ⟨rfl, rfl⟩ := pure_ok.1 read
      simp [Codec.encode, opcode_of_ofOpcode? found]
  · rintro ⟨-, rfl⟩
    refine ⟨op.opcode, rest, trivial, by simp [Codec.encode], ?_⟩
    rw [ofOpcode?_opcode]
    exact pure_ok.2 ⟨rfl, rfl⟩

end Operation

theorem DeviceAddress.codec_exact : codec.Exact fun _ => True := by
  intro input a rest
  have image : codec.encode a = Codec.u16.encode a.slot ++ Codec.u16.encode a.register := by
    simp [codec, Codec.encode]
  rw [image]
  simp only [codec, Codec.u16_exact.first, pure_ok, List.append_assoc]
  constructor
  · rintro ⟨slot, _, -, rfl, register, _, -, rfl, rfl, rfl⟩
    exact ⟨trivial, rfl⟩
  · rintro ⟨-, rfl⟩
    exact ⟨_, _, trivial, rfl, _, _, trivial, rfl, rfl, rfl⟩

theorem Destination.codec_exact : codec.Exact fun _ => True := by
  intro input d rest
  simp only [codec, Codec.u8_exact.first, Codec.u8_encode]
  constructor
  · rintro ⟨tag, m, -, rfl, read⟩
    split at read
    · obtain ⟨i, -, rfl, rfl⟩ := Codec.u32_exact.under.1 read
      simp [Codec.encode]
    · obtain ⟨rfl, rfl⟩ := pure_ok.1 read
      simp [Codec.encode]
    · obtain ⟨rfl, rfl⟩ := pure_ok.1 read
      simp [Codec.encode]
    · obtain ⟨a, -, rfl, rfl⟩ := DeviceAddress.codec_exact.under.1 read
      simp [Codec.encode]
    · exact (throw_ok.1 read).elim
  · rintro ⟨-, rfl⟩
    cases d with
    | register i =>
      refine ⟨0, Codec.u32.encode i ++ rest, trivial, by simp [Codec.encode], ?_⟩
      exact Codec.u32_exact.under.2 ⟨i, trivial, rfl, rfl⟩
    | stackPointer => exact ⟨1, rest, trivial, by simp [Codec.encode], pure_ok.2 ⟨rfl, rfl⟩⟩
    | returnAddress => exact ⟨2, rest, trivial, by simp [Codec.encode], pure_ok.2 ⟨rfl, rfl⟩⟩
    | device a =>
      refine ⟨3, DeviceAddress.codec.encode a ++ rest, trivial, by simp [Codec.encode], ?_⟩
      exact DeviceAddress.codec_exact.under.2 ⟨a, trivial, rfl, rfl⟩

theorem Operand.codec_exact : codec.Exact fun _ => True := by
  intro input o rest
  simp only [codec, Codec.u8_exact.first, Codec.u8_encode]
  constructor
  · rintro ⟨tag, m, -, rfl, read⟩
    split at read
    · obtain ⟨v, -, rfl, rfl⟩ := Codec.binary32_exact.under.1 read
      simp [Codec.encode]
    · obtain ⟨i, -, rfl, rfl⟩ := Codec.u32_exact.under.1 read
      simp [Codec.encode]
    · obtain ⟨rfl, rfl⟩ := pure_ok.1 read
      simp [Codec.encode]
    · obtain ⟨rfl, rfl⟩ := pure_ok.1 read
      simp [Codec.encode]
    · obtain ⟨a, -, rfl, rfl⟩ := DeviceAddress.codec_exact.under.1 read
      simp [Codec.encode]
    · exact (throw_ok.1 read).elim
  · rintro ⟨-, rfl⟩
    cases o with
    | literal v =>
      refine ⟨0, Codec.binary32.encode v ++ rest, trivial, by simp [Codec.encode], ?_⟩
      exact Codec.binary32_exact.under.2 ⟨v, trivial, rfl, rfl⟩
    | register i =>
      refine ⟨1, Codec.u32.encode i ++ rest, trivial, by simp [Codec.encode], ?_⟩
      exact Codec.u32_exact.under.2 ⟨i, trivial, rfl, rfl⟩
    | stackPointer => exact ⟨2, rest, trivial, by simp [Codec.encode], pure_ok.2 ⟨rfl, rfl⟩⟩
    | returnAddress => exact ⟨3, rest, trivial, by simp [Codec.encode], pure_ok.2 ⟨rfl, rfl⟩⟩
    | device a =>
      refine ⟨4, DeviceAddress.codec.encode a ++ rest, trivial, by simp [Codec.encode], ?_⟩
      exact DeviceAddress.codec_exact.under.2 ⟨a, trivial, rfl, rfl⟩

/-- The one part of an instruction without a fixed bound is its text. -/
def Instruction.Limited (i : Instruction) : Prop := i.text.utf8ByteSize ≤ 0x100000

theorem Instruction.codec_encode (i : Instruction) : codec.encode i =
    Operation.codec.encode i.operation ++ ((Codec.option Destination.codec).encode i.destination ++
      (Operand.codec.encode i.left ++ (Operand.codec.encode i.right ++
        (Codec.u64.encode i.line ++ Codec.text.encode i.text)))) := by
  simp [codec, Codec.encode]

theorem Instruction.codec_exact : codec.Exact Instruction.Limited := by
  intro input i rest
  rw [codec_encode]
  simp only [codec, Operation.codec_exact.first,
    (Codec.option_exact Destination.codec_exact).first, Operand.codec_exact.first,
    Codec.u64_exact.first, Codec.text_exact.under, List.append_assoc]
  constructor
  · rintro ⟨op, _, -, rfl, d, _, -, rfl, l, _, -, rfl, r, _, -, rfl, n, _, -, rfl, s, fits, rfl, rfl⟩
    exact ⟨fits, rfl⟩
  · rintro ⟨fits, rfl⟩
    exact ⟨_, _, trivial, rfl, _, _, fun _ _ => trivial, rfl, _, _, trivial, rfl, _, _, trivial, rfl,
      _, _, trivial, rfl, _, fits, rfl, rfl⟩

theorem Requirements.codec_exact : codec.Exact fun _ => True := by
  intro input r rest
  have image : codec.encode r = Codec.u64.encode r.registers ++
      (Codec.u64.encode r.stack ++ Codec.u64.encode r.devices) := by
    simp [codec, Codec.encode]
  rw [image]
  simp only [codec, Codec.u64_exact.first, pure_ok, List.append_assoc]
  constructor
  · rintro ⟨n, _, -, rfl, s, _, -, rfl, d, _, -, rfl, rfl, rfl⟩
    exact ⟨trivial, rfl⟩
  · rintro ⟨-, rfl⟩
    exact ⟨_, _, trivial, rfl, _, _, trivial, rfl, _, _, trivial, rfl, rfl, rfl⟩

namespace Program

/-- The lengths that a program may have in its image. -/
structure Limited (p : Program) : Prop where
  count : p.instructions.length ≤ 0x100000
  texts : ∀ i ∈ p.instructions, i.Limited

theorem body_encode (p : Program) : body.encode p =
    (Codec.list Instruction.codec).encode p.instructions ++
      Requirements.codec.encode p.requirements := by
  simp [body, Codec.encode]

theorem body_exact : body.Exact Limited := by
  intro input p rest
  rw [body_encode]
  simp only [body, (Codec.list_exact Instruction.codec_exact).first,
    Requirements.codec_exact.under, List.append_assoc]
  constructor
  · rintro ⟨is, _, ⟨count, texts⟩, rfl, r, -, rfl, rfl⟩
    exact ⟨⟨count, texts⟩, rfl⟩
  · rintro ⟨⟨count, texts⟩, rfl⟩
    exact ⟨_, _, ⟨count, texts⟩, rfl, _, trivial, rfl, rfl⟩

end Program

namespace Schema

/-- Every list and every text inside a value is short enough to be read again. -/
def Limited : (s : Schema) → s.Value → Prop
  | .text, (v : String) => v.utf8ByteSize ≤ 0x100000
  | .list s, (v : List s.Value) => v.length ≤ 0x100000 ∧ ∀ w ∈ v, s.Limited w
  | .option s, (v : Option s.Value) => ∀ w ∈ v, s.Limited w
  | .instruction, v => v.Limited
  | .body, v => v.Limited
  | _, _ => True

theorem codec_exact (s : Schema) : s.codec.Exact s.Limited := by
  induction s with
  | u8 => exact Codec.u8_exact
  | u16 => exact Codec.u16_exact
  | u32 => exact Codec.u32_exact
  | u64 => exact Codec.u64_exact
  | size => exact Codec.u64_exact
  | binary32 => exact Codec.binary32_exact
  | text => exact Codec.text_exact
  | vector n => exact Codec.vector_exact n
  | list s ih => exact Codec.list_exact ih
  | option s ih => exact Codec.option_exact ih
  | operation => exact Operation.codec_exact
  | operand => exact Operand.codec_exact
  | destination => exact Destination.codec_exact
  | address => exact DeviceAddress.codec_exact
  | instruction => exact Instruction.codec_exact
  | requirements => exact Requirements.codec_exact
  | body => exact Program.body_exact

/-- Any type with a codec reads back what it writes, whatever follows, and reads nothing that
it does not write. -/
theorem decodes_exactly (s : Schema) :
    (∀ v, s.Limited v → ∀ rest, s.codec.decode (s.codec.encode v ++ rest) = (.ok v, rest)) ∧
    ∀ input v rest, s.codec.decode input = (.ok v, rest) → input = s.codec.encode v ++ rest := by
  constructor
  · intro v fits rest
    exact (codec_exact s _ v rest).2 ⟨fits, rfl⟩
  · intro input v rest read
    exact ((codec_exact s input v rest).1 read).2

theorem decodes_exactly_destinations :
    let s := Schema.list (.option .destination)
    let v : List (Option Destination) := [some (.device ⟨1, 0x102⟩), none]
    let input : Bytes := [2, 0, 0, 0, 0, 0, 0, 0, 1, 3, 1, 0, 2, 1, 0, 9]
    (s.Limited v ∧ s.codec.decode (s.codec.encode v ++ [9]) = (.ok v, [9])) ∧
      s.codec.decode input = (.ok v, [9]) ∧ input = s.codec.encode v ++ [9] := by
  intro s v input
  have fits : s.Limited v := ⟨by decide, by simp [v, Limited]⟩
  have read : s.codec.decode input = (.ok v, [9]) := rfl
  exact ⟨⟨fits, (decodes_exactly s).1 v fits [9]⟩, read, (decodes_exactly s).2 input v [9] read⟩

end Schema
end FloatMachine

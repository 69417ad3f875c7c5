import FloatMachine.Proofs.CodecExact

/-! Decoders do not look ahead. What a decoder does is settled by the bytes that it takes off the
front of its input, be its end a value or an error; only an input that is too short for it may get
another answer when more bytes follow. -/
namespace FloatMachine

section Consuming

variable {ε α β : Type} {Short : ε → Prop}

/-- An end that more input does not change: a value, or an error other than a short input. -/
def Settled (Short : ε → Prop) : Except ε α → Prop
  | .ok _ => True
  | .error e => ¬ Short e

/-- The action takes a front part off its input and looks at nothing behind it. -/
structure Consumes (Short : ε → Prop) (act : ExceptT ε (StateM Bytes) α) : Prop where
  further : ∀ {input rest : Bytes} {out : Except ε α}, act input = (out, rest) →
    Settled Short out → ∀ more, act (input ++ more) = (out, rest ++ more)
  remains : ∀ input, (act input).2 <:+ input

theorem Consumes.pure {a : α} :
    Consumes Short (Pure.pure a : ExceptT ε (StateM Bytes) α) where
  further := by
    intro input rest out ended _ more
    cases ended
    rfl
  remains input := List.suffix_refl input

theorem Consumes.throw {e : ε} :
    Consumes Short (MonadExcept.throw e : ExceptT ε (StateM Bytes) α) where
  further := by
    intro input rest out ended _ more
    cases ended
    rfl
  remains input := List.suffix_refl input

theorem Consumes.bind {act : ExceptT ε (StateM Bytes) α} {next : α → ExceptT ε (StateM Bytes) β}
    (first : Consumes Short act) (rest : ∀ a, Consumes Short (next a)) :
    Consumes Short (act >>= next) where
  further := by
    intro input left out ended settled more
    rw [bind_eq] at ended ⊢
    rcases result : act input with ⟨e | a, m⟩
    · rw [result] at ended
      cases ended
      rw [first.further result settled more]
    · rw [result] at ended
      rw [first.further result trivial more]
      exact (rest a).further ended settled more
  remains := by
    intro input
    have front := first.remains input
    rw [bind_eq]
    generalize act input = result at front ⊢
    rcases result with ⟨e | a, m⟩
    · exact front
    · exact ((rest a).remains m).trans front

theorem Consumes.unless {c : Prop} [Decidable c] {e : ε}
    {skipped : PUnit → ExceptT ε (StateM Bytes) α} {next : ExceptT ε (StateM Bytes) α}
    (rest : Consumes Short next) :
    Consumes Short (if c then MonadExcept.throw e >>= skipped else next) := by
  split
  · -- nothing comes after what was thrown, whatever is written there
    have stopped : (MonadExcept.throw e >>= skipped : ExceptT ε (StateM Bytes) α) =
        MonadExcept.throw e := rfl
    rw [stopped]
    exact Consumes.throw
  · exact rest

end Consuming

/-- More bytes may help only where the input ended too early. -/
def DecodeError.Short (e : DecodeError) : Prop := e = .unexpectedEnd

namespace Decoder

open DecodeError (Short)

theorem take_consumes (n : Nat) : Consumes Short (take n) where
  further := by
    intro input rest out ended settled more
    unfold take at ended ⊢
    dsimp only at ended ⊢
    split at ended
    · rename_i full
      have enough : n ≤ input.length := full ▸ List.length_take_le' n input
      cases ended
      rw [List.take_append_of_le_length enough, List.drop_append_of_le_length enough, if_pos full]
    · cases ended
      exact (settled rfl).elim
  remains := by
    intro input
    unfold take
    dsimp only
    split
    · exact List.drop_suffix n input
    · exact List.suffix_refl input

theorem takeVector_consumes (n : Nat) : Consumes Short (takeVector n) where
  further := by
    intro input rest out ended settled more
    rcases out with e | v
    · unfold takeVector at ended
      dsimp only at ended
      split at ended <;> cases ended
      exact (settled rfl).elim
    · obtain ⟨-, rfl⟩ := (Codec.vector_exact n _ _ _).1 ended
      apply (Codec.vector_exact n _ _ _).2
      exact ⟨trivial, List.append_assoc ..⟩
  remains := by
    intro input
    unfold takeVector
    dsimp only
    split
    · exact List.drop_suffix n input
    · exact List.suffix_refl input

theorem times_consumes {α : Type} {item : Decoder α} (each : Consumes Short item) (n : Nat)
    (found : Array α) : Consumes Short (times item n found) := by
  induction n generalizing found with
  | zero => exact .pure
  | succ n ih => exact each.bind fun v => ih (found.push v)

end Decoder

namespace Codec

/-- What a codec reads it reads without looking ahead. -/
def Consuming {α : Type} (c : Codec α) : Prop := Consumes DecodeError.Short c.decode

theorem word_consuming {α : Type} (width : Nat) (toNat : α → Nat) (ofNat : Nat → α) :
    (word width toNat ofNat).Consuming :=
  (Decoder.take_consumes width).bind fun _ => .pure

theorem u8_consuming : u8.Consuming := word_consuming ..

theorem u16_consuming : u16.Consuming := word_consuming ..

theorem u32_consuming : u32.Consuming := word_consuming ..

theorem u64_consuming : u64.Consuming := word_consuming ..

theorem binary32_consuming : binary32.Consuming := word_consuming ..

theorem length_consuming : length.Consuming :=
  u64_consuming.bind fun _ => .unless .pure

theorem list_consuming {α : Type} {item : Codec α} (each : item.Consuming) :
    (list item).Consuming :=
  length_consuming.bind fun n => (Decoder.times_consumes each n #[]).bind fun _ => .pure

theorem text_consuming : text.Consuming := by
  refine length_consuming.bind fun n => (Decoder.take_consumes n).bind fun b => ?_
  split
  · exact .pure
  · exact .throw

theorem option_consuming {α : Type} {item : Codec α} (inner : item.Consuming) :
    (option item).Consuming := by
  refine u8_consuming.bind fun tag => ?_
  split
  · exact .pure
  · exact inner.bind fun _ => .pure
  · exact .throw

theorem vector_consuming (n : Nat) : (vector n).Consuming := Decoder.takeVector_consumes n

end Codec

theorem Operation.codec_consuming : codec.Consuming := by
  refine Codec.u8_consuming.bind fun code => ?_
  split
  · exact .pure
  · exact .throw

theorem DeviceAddress.codec_consuming : codec.Consuming :=
  Codec.u16_consuming.bind fun _ => Codec.u16_consuming.bind fun _ => .pure

theorem Destination.codec_consuming : codec.Consuming := by
  refine Codec.u8_consuming.bind fun tag => ?_
  split
  · exact Codec.u32_consuming.bind fun _ => .pure
  · exact .pure
  · exact .pure
  · exact DeviceAddress.codec_consuming.bind fun _ => .pure
  · exact .throw

theorem Operand.codec_consuming : codec.Consuming := by
  refine Codec.u8_consuming.bind fun tag => ?_
  split
  · exact Codec.binary32_consuming.bind fun _ => .pure
  · exact Codec.u32_consuming.bind fun _ => .pure
  · exact .pure
  · exact .pure
  · exact DeviceAddress.codec_consuming.bind fun _ => .pure
  · exact .throw

theorem Instruction.codec_consuming : codec.Consuming := by
  refine Operation.codec_consuming.bind fun _ => ?_
  refine (Codec.option_consuming Destination.codec_consuming).bind fun _ => ?_
  refine Operand.codec_consuming.bind fun _ => Operand.codec_consuming.bind fun _ => ?_
  exact Codec.u64_consuming.bind fun _ => Codec.text_consuming.bind fun _ => .pure

theorem Requirements.codec_consuming : codec.Consuming :=
  Codec.u64_consuming.bind fun _ => Codec.u64_consuming.bind fun _ =>
    Codec.u64_consuming.bind fun _ => .pure

theorem Program.body_consuming : body.Consuming :=
  (Codec.list_consuming Instruction.codec_consuming).bind fun _ =>
    Requirements.codec_consuming.bind fun _ => .pure

namespace Schema

theorem codec_consuming (s : Schema) : s.codec.Consuming := by
  induction s with
  | u8 => exact Codec.u8_consuming
  | u16 => exact Codec.u16_consuming
  | u32 => exact Codec.u32_consuming
  | u64 => exact Codec.u64_consuming
  | size => exact Codec.u64_consuming
  | binary32 => exact Codec.binary32_consuming
  | text => exact Codec.text_consuming
  | vector n => exact Codec.vector_consuming n
  | list s ih => exact Codec.list_consuming ih
  | option s ih => exact Codec.option_consuming ih
  | operation => exact Operation.codec_consuming
  | operand => exact Operand.codec_consuming
  | destination => exact Destination.codec_consuming
  | address => exact DeviceAddress.codec_consuming
  | instruction => exact Instruction.codec_consuming
  | requirements => exact Requirements.codec_consuming
  | body => exact Program.body_consuming

/-- A value, a bad value and a length too large are found in the bytes taken off: with anything
behind them the answer is the same, and what was behind is left. What is left of an input is always
the end of it. -/
theorem decode_consumes (s : Schema) :
    (∀ input out rest, s.codec.decode input = (out, rest) → out ≠ .error .unexpectedEnd →
      ∀ more, s.codec.decode (input ++ more) = (out, rest ++ more)) ∧
    ∀ input, (s.codec.decode input).2 <:+ input := by
  refine ⟨?_, (codec_consuming s).remains⟩
  intro input out rest ended other more
  apply (codec_consuming s).further ended
  cases out with
  | ok v => trivial
  | error e => exact fun short => other (congrArg _ short)

/-- The second item of the list has a tag that is not one of an option. -/
theorem decode_consumes_tag :
    let s := Schema.list (.option .u16)
    let input : Bytes := [2, 0, 0, 0, 0, 0, 0, 0, 1, 5, 6, 7]
    s.codec.decode input = (.error .invalidValue, []) ∧
      s.codec.decode (input ++ [8, 9]) = (.error .invalidValue, [8, 9]) := by
  intro s input
  have ended : s.codec.decode input = (.error .invalidValue, []) := rfl
  exact ⟨ended, (decode_consumes s).1 input _ _ ended (by simp) [8, 9]⟩

end Schema
end FloatMachine

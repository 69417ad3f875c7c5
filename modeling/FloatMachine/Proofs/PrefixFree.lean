import FloatMachine.Proofs.ProgramImage

/-! An image is the same for all who see it written, and it is the image of one value. A sink that
joins its writes does not notice how many there are; and what is written for a value tells where it
ends, so no image begins another, be it longer than what is ever read again. -/
namespace FloatMachine

section Sinks

variable {α σ : Type} {consume : σ → Bytes → σ}

/-- Two writes one after the other are to the sink as one, and nothing written is nothing. -/
structure Seamless (consume : σ → Bytes → σ) : Prop where
  empty : ∀ s, consume s [] = s
  append : ∀ s a b, consume s (a ++ b) = consume (consume s a) b

theorem Seamless.foldl (seamless : Seamless consume) (pieces : List Bytes) (s : σ) :
    pieces.foldl consume s = consume s pieces.flatten := by
  induction pieces generalizing s with
  | nil => exact (seamless.empty s).symm
  | cons piece pieces ih => rw [List.foldl_cons, ih, List.flatten_cons, seamless.append]

theorem Seamless.feed (seamless : Seamless consume) (c : Codec α) (s : σ) (v : α) :
    c.feed consume s v = consume s (c.encode v) := seamless.foldl (c.writes v) s

theorem seamless_count : Seamless fun (n : Nat) (b : Bytes) => n + b.length where
  empty _ := rfl
  append n a b := by rw [List.length_append, Nat.add_assoc]

theorem seamless_buffer : Seamless fun (out b : Bytes) => out ++ b where
  empty := List.append_nil
  append out a b := (List.append_assoc out a b).symm

theorem Sha3.seamless_update : Seamless Sha3.update where
  empty _ := rfl
  append := Sha3.update_append

end Sinks

namespace Codec

/-- What is written for a value can be taken off the front of a byte string in one way only. -/
def PrefixFree {α : Type} (c : Codec α) (Sized : α → Prop) : Prop :=
  ∀ v w a b, Sized v → Sized w → c.encode v ++ a = c.encode w ++ b → v = w ∧ a = b

variable {α : Type} {Sized : α → Prop}

theorem Exact.prefixFree {c : Codec α} (exact : c.Exact Sized) : c.PrefixFree Sized := by
  intro v w a b left right same
  have one := (exact _ v a).2 ⟨left, rfl⟩
  have other := (exact _ w b).2 ⟨right, same⟩
  cases one.symm.trans other
  exact ⟨rfl, rfl⟩

theorem PrefixFree.of_prefix {c : Codec α} (free : c.PrefixFree Sized) {v w : α} (left : Sized v)
    (right : Sized w) (begins : c.encode v <+: c.encode w) : v = w := by
  obtain ⟨rest, same⟩ := begins
  have ended : c.encode v ++ rest = c.encode w ++ [] := by rw [same, List.append_nil]
  exact (free v w rest [] left right ended).1

/- Here the decoder is of no help: it reads no length beyond its limit. -/
theorem length_prefixFree : length.PrefixFree fun n => n < UInt64.size := by
  intro m n a b left right same
  obtain ⟨word, rest⟩ := u64_exact.prefixFree _ _ _ _ trivial trivial same
  refine ⟨?_, rest⟩
  rw [← UInt64.toNat_ofNat_of_lt' left, word, UInt64.toNat_ofNat_of_lt' right]

theorem flatMap_prefixFree {item : Codec α} (free : item.PrefixFree Sized) {vs ws : List α}
    (count : vs.length = ws.length) (left : ∀ v ∈ vs, Sized v) (right : ∀ w ∈ ws, Sized w)
    {a b : Bytes} (same : vs.flatMap item.encode ++ a = ws.flatMap item.encode ++ b) :
    vs = ws ∧ a = b := by
  induction vs generalizing ws with
  | nil =>
    cases List.eq_nil_of_length_eq_zero count.symm
    exact ⟨rfl, same⟩
  | cons v vs ih =>
    cases ws with
    | nil => cases count
    | cons w ws =>
      obtain ⟨first, further⟩ := List.forall_mem_cons.1 left
      obtain ⟨second, others⟩ := List.forall_mem_cons.1 right
      rw [List.flatMap_cons, List.flatMap_cons, List.append_assoc, List.append_assoc] at same
      obtain ⟨rfl, tails⟩ := free v w _ _ first second same
      obtain ⟨rfl, rest⟩ := ih (Nat.succ.inj count) further others tails
      exact ⟨rfl, rest⟩

theorem list_prefixFree {item : Codec α} (free : item.PrefixFree Sized) :
    (list item).PrefixFree fun vs => vs.length < UInt64.size ∧ ∀ v ∈ vs, Sized v := by
  rintro vs ws a b ⟨long, left⟩ ⟨wide, right⟩ same
  rw [list_encode, list_encode, List.append_assoc, List.append_assoc] at same
  obtain ⟨count, items⟩ := length_prefixFree _ _ _ _ long wide same
  exact flatMap_prefixFree free count left right items

theorem text_prefixFree : text.PrefixFree fun s => s.utf8ByteSize < UInt64.size := by
  intro s t a b long wide same
  rw [text_encode, text_encode, List.append_assoc, List.append_assoc] at same
  obtain ⟨count, same⟩ := length_prefixFree _ _ _ _ long wide same
  rw [← length_utf8, ← length_utf8] at count
  obtain ⟨bytes, rest⟩ := List.append_inj same count
  have texts := fromUTF8?_bytes s
  rw [bytes, fromUTF8?_bytes] at texts
  exact ⟨(Option.some.inj texts).symm, rest⟩

theorem option_encode (item : Codec α) (o : Option α) :
    (option item).encode o = match o with
      | none => [0]
      | some v => 1 :: item.encode v := by
  cases o <;> simp [option, encode]

theorem option_prefixFree {item : Codec α} (free : item.PrefixFree Sized) :
    (option item).PrefixFree fun o => ∀ v ∈ o, Sized v := by
  intro o p a b left right same
  rw [option_encode, option_encode] at same
  cases o with
  | none =>
    cases p with
    | none => exact ⟨rfl, (List.cons.inj same).2⟩
    | some w => cases (List.cons.inj same).1
  | some v =>
    cases p with
    | none => cases (List.cons.inj same).1
    | some w =>
      obtain ⟨rfl, rest⟩ := free v w a b (left v rfl) (right w rfl) (List.cons.inj same).2
      exact ⟨rfl, rest⟩

end Codec

/-- The text has a length that one word holds, as any text in memory. -/
def Instruction.Addressable (i : Instruction) : Prop := i.text.utf8ByteSize < UInt64.size

theorem Instruction.codec_prefixFree : codec.PrefixFree Addressable := by
  intro i j a b left right same
  simp only [codec_encode, List.append_assoc] at same
  obtain ⟨operation, same⟩ := Operation.codec_exact.prefixFree _ _ _ _ trivial trivial same
  obtain ⟨destination, same⟩ := (Codec.option_exact Destination.codec_exact).prefixFree
    _ _ _ _ (fun _ _ => trivial) (fun _ _ => trivial) same
  obtain ⟨first, same⟩ := Operand.codec_exact.prefixFree _ _ _ _ trivial trivial same
  obtain ⟨second, same⟩ := Operand.codec_exact.prefixFree _ _ _ _ trivial trivial same
  obtain ⟨line, same⟩ := Codec.u64_exact.prefixFree _ _ _ _ trivial trivial same
  obtain ⟨text, rest⟩ := Codec.text_prefixFree _ _ _ _ left right same
  cases i
  cases j
  cases operation
  cases destination
  cases first
  cases second
  cases line
  cases text
  exact ⟨rfl, rest⟩

namespace Program

/-- The instructions and their texts are as many and as long as one word can count. -/
structure Addressable (p : Program) : Prop where
  count : p.instructions.length < UInt64.size
  texts : ∀ i ∈ p.instructions, i.Addressable

theorem body_prefixFree : body.PrefixFree Addressable := by
  intro p q a b left right same
  simp only [body_encode, List.append_assoc] at same
  obtain ⟨instructions, same⟩ := Codec.list_prefixFree Instruction.codec_prefixFree
    _ _ _ _ ⟨left.count, left.texts⟩ ⟨right.count, right.texts⟩ same
  obtain ⟨requirements, rest⟩ := Requirements.codec_exact.prefixFree _ _ _ _ trivial trivial same
  cases p
  cases q
  cases instructions
  cases requirements
  exact ⟨rfl, rest⟩

theorem eq_of_image_prefix {p q : Program} (left : p.Addressable) (right : q.Addressable)
    (begins : p.toBytes <+: q.toBytes) : p = q := by
  simp only [toBytes_eq, List.prefix_append_right_inj] at begins
  exact body_prefixFree.of_prefix left right begins

end Program

namespace Schema

/-- Every list and every text inside a value is no longer than one word can count, as all that
memory holds. -/
def Addressable : (s : Schema) → s.Value → Prop
  | .text, (v : String) => v.utf8ByteSize < UInt64.size
  | .list s, (v : List s.Value) => v.length < UInt64.size ∧ ∀ w ∈ v, s.Addressable w
  | .option s, (v : Option s.Value) => ∀ w ∈ v, s.Addressable w
  | .instruction, v => v.Addressable
  | .body, v => v.Addressable
  | _, _ => True

theorem codec_prefixFree (s : Schema) : s.codec.PrefixFree s.Addressable := by
  induction s with
  | u8 => exact Codec.u8_exact.prefixFree
  | u16 => exact Codec.u16_exact.prefixFree
  | u32 => exact Codec.u32_exact.prefixFree
  | u64 => exact Codec.u64_exact.prefixFree
  | size => exact Codec.u64_exact.prefixFree
  | binary32 => exact Codec.binary32_exact.prefixFree
  | text => exact Codec.text_prefixFree
  | vector n => exact (Codec.vector_exact n).prefixFree
  | list s ih => exact Codec.list_prefixFree ih
  | option s ih => exact Codec.option_prefixFree ih
  | operation => exact Operation.codec_exact.prefixFree
  | operand => exact Operand.codec_exact.prefixFree
  | destination => exact Destination.codec_exact.prefixFree
  | address => exact DeviceAddress.codec_exact.prefixFree
  | instruction => exact Instruction.codec_prefixFree
  | requirements => exact Requirements.codec_exact.prefixFree
  | body => exact Program.body_prefixFree

end Schema

/-- A buffer, a counter and a digest see one image of a value, in however many pieces it is written.
With lengths that one word counts, no image begins another: the image of a program is that of no
other program, also where it is too long to be read again. -/
theorem images_unambiguous :
    (∀ (s : Schema) (v : s.Value),
      s.codec.feed (fun out b => out ++ b) [] v = s.codec.encode v ∧
      s.codec.size v = (s.codec.encode v).length ∧
      (s.codec.feed Sha3.update Sha3.start v).finish = Sha3.digest (s.codec.encode v)) ∧
    (∀ pieces : List Bytes,
      (pieces.foldl Sha3.update Sha3.start).finish = Sha3.digest pieces.flatten) ∧
    (∀ p : Program, p.digest = Sha3.digest p.toBytes) ∧
    (∀ (s : Schema) (v w : s.Value), s.Addressable v → s.Addressable w →
      s.codec.encode v <+: s.codec.encode w → v = w) ∧
    ∀ p q : Program, p.Addressable → q.Addressable →
      (p.toBytes = q.toBytes → p = q) ∧ (p.toBytes <+: q.toBytes → p.toBytes = q.toBytes) := by
  refine ⟨?_, ?_, ?_, ?_, ?_⟩
  · intro s v
    refine ⟨seamless_buffer.feed s.codec [] v, ?_, ?_⟩
    · rw [Codec.size, seamless_count.feed, Nat.zero_add]
    · rw [Sha3.seamless_update.feed, Sha3.digest]
  · intro pieces
    rw [Sha3.seamless_update.foldl, Sha3.digest]
  · intro p
    rw [Program.digest, Sha3.seamless_update.foldl, Sha3.digest, Program.toBytes]
  · intro s v w left right begins
    exact s.codec_prefixFree.of_prefix left right begins
  · intro p q left right
    refine ⟨fun same => ?_, fun begins => ?_⟩
    · exact Program.eq_of_image_prefix left right (same ▸ List.prefix_rfl)
    · rw [Program.eq_of_image_prefix left right begins]

/-- Two programs of one instruction over and over, both too long to be read again. -/
theorem images_unambiguous_beyond :
    let i : Instruction := ⟨.nop, none, .unused, .unused, 1, "nop"⟩
    let p := Program.ofInstructions (List.replicate 0x100001 i)
    let q := Program.ofInstructions (List.replicate 0x100002 i)
    let s := Schema.list (.option .u8)
    let v : List (Option UInt8) := [some 7]
    let w : List (Option UInt8) := [some 7, none]
    (p.Addressable ∧ q.Addressable ∧ ¬ p.toBytes <+: q.toBytes) ∧
      s.Addressable v ∧ s.Addressable w ∧ ¬ s.codec.encode v <+: s.codec.encode w := by
  intro i p q s v w
  obtain ⟨-, -, -, values, programs⟩ := images_unambiguous
  have sized : ∀ n < UInt64.size, (Program.ofInstructions (List.replicate n i)).Addressable := by
    intro n small
    constructor
    · change (List.replicate n i).length < UInt64.size
      rwa [List.length_replicate]
    · intro j member
      rw [List.eq_of_mem_replicate member]
      exact (by decide : "nop".utf8ByteSize < UInt64.size)
  have left : p.Addressable := sized _ (by decide)
  have right : q.Addressable := sized _ (by decide)
  have one : s.Addressable v := ⟨by decide, fun _ _ _ _ => trivial⟩
  have two : s.Addressable w := ⟨by decide, fun _ _ _ _ => trivial⟩
  refine ⟨⟨left, right, fun begins => ?_⟩, one, two, fun begins => ?_⟩
  · obtain ⟨same, begun⟩ := programs p q left right
    have lengths : (List.replicate 0x100001 i).length = (List.replicate 0x100002 i).length :=
      congrArg (fun r => r.instructions.length) (same (begun begins))
    rw [List.length_replicate, List.length_replicate] at lengths
    omega
  · have same : v = w := values s v w one two begins
    exact absurd same (by decide)

end FloatMachine

import FloatMachine.Assembly.Parser
import FloatMachine.Proofs.Nearest
import FloatMachine.Proofs.Outcome

/-! The language of source lines, said apart from its reader: what the words of a line are and what
they denote. The reader takes exactly these words and finds what they denote. -/
namespace FloatMachine.Assembly

structure Digits (s : List Char) : Prop where
  nonempty : s ≠ []
  digits : ∀ c ∈ s, c.isDigit = true

/-- The number that digits stand for in base ten. -/
def Digits.value (s : List Char) : Nat := Nat.ofDigitChars 10 s 0

inductive Place : List Char → Destination → Prop
  | stackPointer : Place ['s', 'p'] .stackPointer
  | returnAddress : Place ['r', 'a'] .returnAddress
  | register {digits : List Char} : Digits digits → Digits.value digits < 0x100000000 →
      Place ('r' :: digits) (.register (.ofNat (Digits.value digits)))
  | device {slot register : List Char} : Digits slot → Digits.value slot < 0x10000 →
      Digits register → Digits.value register < 0x10000 →
      Place ('d' :: (slot ++ ':' :: register))
        (.device ⟨.ofNat (Digits.value slot), .ofNat (Digits.value register)⟩)

/-- A sign that may be left out, and whether it makes the number negative. -/
inductive Sign : List Char → Bool → Prop
  | none : Sign [] false
  | plus : Sign ['+'] false
  | minus : Sign ['-'] true

/-- A decimal number, and the finite single-precision number that it is rounded to. -/
inductive Literal : List Char → Binary32 → Prop
  | whole {sign digits : List Char} {negative : Bool} {v : Binary32} : Sign sign negative →
      Digits digits → Binary32.Decimal negative (Digits.value digits) 0 v →
      Literal (sign ++ digits) v
  | fraction {sign digits places : List Char} {negative : Bool} {v : Binary32} :
      Sign sign negative → Digits digits → Digits places →
      Binary32.Decimal negative (Digits.value (digits ++ places)) places.length v →
      Literal (sign ++ (digits ++ '.' :: places)) v

/-- A word for a value that can be read: a number, or what a place holds. -/
inductive Source : List Char → Operand → Prop
  | literal {word : List Char} {v : Binary32} : Literal word v → Source word (.literal v)
  | place {word : List Char} {d : Destination} : Place word d → Source word d.toOperand

/-- The two operand positions, filled from the left; what is left over holds the unused operand. -/
def positions : List Operand → Operand × Operand
  | [] => (.unused, .unused)
  | [left] => (left, .unused)
  | left :: right :: _ => (left, right)

/-- The words after a mnemonic and what they denote: a destination if the shape has one, then as
many operands as it counts. -/
inductive Arguments (shape : Shape) :
    List (List Char) → Option Destination → Operand × Operand → Prop
  | plain {sources : List (List Char)} {operands : List Operand} :
      shape.hasDestination = false → operands.length = shape.operandCount →
      List.Forall₂ Source sources operands → Arguments shape sources none (positions operands)
  | targeted {target : List Char} {d : Destination} {sources : List (List Char)}
      {operands : List Operand} :
      shape.hasDestination = true → Place target d → operands.length = shape.operandCount →
      List.Forall₂ Source sources operands →
      Arguments shape (target :: sources) (some d) (positions operands)

/-- The words of an instruction: its mnemonic and what its shape asks for. -/
def Denotes (words : List (List Char)) (op : Operation) (d : Option Destination)
    (operands : Operand × Operand) : Prop :=
  ∃ args, words = op.mnemonic.toList :: args ∧ Arguments op.shape args d operands

section Digits

theorem allDigits_iff {s : List Char} : Text.allDigits s = true ↔ Digits s := by
  simp only [Text.allDigits, Bool.and_eq_true, Bool.not_eq_true', List.isEmpty_eq_false_iff,
    List.all_eq_true]
  exact ⟨fun h => ⟨h.1, h.2⟩, fun h => ⟨h.nonempty, h.digits⟩⟩

theorem digitsValue_eq (s : List Char) : Text.digitsValue s = Digits.value s := by
  simp only [Text.digitsValue, Digits.value, Nat.ofDigitChars_eq_foldl]

theorem index?_eq_some {bound n : Nat} {s : List Char} :
    Text.index? bound s = some n ↔ Digits s ∧ Digits.value s < bound ∧ Digits.value s = n := by
  simp only [Text.index?, Option.ite_none_right_eq_some, Bool.and_eq_true, decide_eq_true_eq,
    allDigits_iff, digitsValue_eq, Option.some.injEq, and_assoc]

theorem Digits.not_mem {s : List Char} (digits : Digits s) {c : Char} (other : c.isDigit = false) :
    c ∉ s := by
  intro member
  rw [digits.digits c member] at other
  cases other

end Digits

section Places

theorem register?_eq_some {word : List Char} {i : UInt32} :
    register? word = some i ↔ ∃ digits, word = 'r' :: digits ∧ Digits digits ∧
      Digits.value digits < 0x100000000 ∧ .ofNat (Digits.value digits) = i := by
  unfold register?
  split
  · rename_i digits
    simp only [Option.map_eq_some_iff, index?_eq_some]
    constructor
    · rintro ⟨n, ⟨form, small, rfl⟩, same⟩
      exact ⟨digits, rfl, form, small, same⟩
    · rintro ⟨_, same, form, small, value⟩
      cases same
      exact ⟨_, ⟨form, small, rfl⟩, value⟩
  · rename_i other
    simp only [reduceCtorEq, false_iff, not_exists]
    rintro digits ⟨rfl, -⟩
    exact other digits rfl

theorem split_at {c : Char} {before : List Char} (without : c ∉ before) (after : List Char) :
    (before ++ c :: after).takeWhile (· != c) = before ∧
      (before ++ c :: after).dropWhile (· != c) = c :: after := by
  have all : ∀ d ∈ before, (d != c) = true := by
    intro d member
    simp only [bne_iff_ne]
    rintro rfl
    exact without member
  constructor
  · rw [List.takeWhile_append_of_pos all]
    simp
  · rw [List.dropWhile_append_of_pos all]
    simp

theorem split_found {c d : Char} {s rest : List Char}
    (found : s.dropWhile (· != c) = d :: rest) :
    d = c ∧ s = s.takeWhile (· != c) ++ c :: rest := by
  have stopped : (d != c) = false := by
    have head := List.head?_dropWhile_not (· != c) s
    rw [found] at head
    simpa using head
  have same : d = c := by simpa using stopped
  have whole := List.takeWhile_append_dropWhile (p := (· != c)) (l := s)
  rw [found, same] at whole
  exact ⟨same, whole.symm⟩

theorem device?_eq_some {word : List Char} {a : DeviceAddress} :
    device? word = some a ↔ ∃ slot register, word = 'd' :: (slot ++ ':' :: register) ∧
      Digits slot ∧ Digits.value slot < 0x10000 ∧ Digits register ∧
      Digits.value register < 0x10000 ∧
      ⟨.ofNat (Digits.value slot), .ofNat (Digits.value register)⟩ = a := by
  constructor
  · intro read
    unfold device? at read
    split at read
    · rename_i rest
      split at read
      · cases read
      · rename_i c register found
        obtain ⟨rfl, whole⟩ := split_found found
        simp only [Option.bind_eq_bind, Option.bind_eq_some_iff, index?_eq_some] at read
        obtain ⟨_, ⟨first, small, rfl⟩, _, ⟨second, little, rfl⟩, same⟩ := read
        exact ⟨_, register, congrArg _ whole, first, small, second, little, Option.some.inj same⟩
    · cases read
  · rintro ⟨slot, register, rfl, first, small, second, little, rfl⟩
    have colon : ':'.isDigit = false := by decide
    obtain ⟨before, from_colon⟩ := split_at (first.not_mem colon) register
    simp only [device?, before, from_colon, index?_eq_some.2 ⟨first, small, rfl⟩,
      index?_eq_some.2 ⟨second, little, rfl⟩]
    rfl

theorem Place.head {word : List Char} {d : Destination} (place : Place word d) :
    ∃ c rest, word = c :: rest ∧ (c = 's' ∨ c = 'r' ∨ c = 'd') := by
  cases place with
  | stackPointer => exact ⟨_, _, rfl, Or.inl rfl⟩
  | returnAddress | register => exact ⟨_, _, rfl, Or.inr (Or.inl rfl)⟩
  | device => exact ⟨_, _, rfl, Or.inr (Or.inr rfl)⟩

theorem destination?_eq_some {word : List Char} {d : Destination} :
    destination? word = some d ↔ Place word d := by
  constructor
  · intro read
    unfold destination? at read
    split at read
    · rename_i same
      cases read
      exact same ▸ .stackPointer
    · split at read
      · rename_i same
        cases read
        exact same ▸ .returnAddress
      · simp only [Option.orElse_eq_or, Option.or_eq_some_iff, Option.map_eq_some_iff,
          register?_eq_some, device?_eq_some] at read
        rcases read with ⟨_, ⟨digits, rfl, form, small, rfl⟩, rfl⟩ |
          ⟨-, _, ⟨slot, register, rfl, first, small, second, little, rfl⟩, rfl⟩
        · exact .register form small
        · exact .device first small second little
  · intro place
    cases place with
    | stackPointer => rfl
    | returnAddress => rfl
    | register form small =>
      rename_i digits
      have other : 'r' :: digits ≠ ['r', 'a'] := by
        intro same
        exact form.not_mem (c := 'a') (by decide) (by simp [(List.cons.inj same).2])
      have read := register?_eq_some.2 ⟨digits, rfl, form, small, rfl⟩
      simp [destination?, other, read]
    | device first small second little =>
      rename_i slot register
      have read := device?_eq_some.2 ⟨slot, register, rfl, first, small, second, little, rfl⟩
      simp [destination?, register?, read]

end Places

section Literals

theorem signed_cases (word : List Char) :
    ∃ sign, Sign sign (Binary32.signed word).1 ∧ word = sign ++ (Binary32.signed word).2 := by
  unfold Binary32.signed
  split
  · exact ⟨['-'], .minus, rfl⟩
  · exact ⟨['+'], .plus, rfl⟩
  · exact ⟨[], .none, rfl⟩

theorem signed_of_sign {sign rest : List Char} {negative : Bool} (form : Sign sign negative)
    (unsigned : ∀ c ∈ rest.head?, c ≠ '-' ∧ c ≠ '+') :
    Binary32.signed (sign ++ rest) = (negative, rest) := by
  cases form with
  | none =>
    cases rest with
    | nil => rfl
    | cons c rest =>
      obtain ⟨minus, plus⟩ := unsigned c rfl
      unfold Binary32.signed
      split
      · rename_i same
        exact (minus (List.cons.inj same).1).elim
      · rename_i same
        exact (plus (List.cons.inj same).1).elim
      · rfl
  | plus => rfl
  | minus => rfl

theorem Digits.starts {digits : List Char} (form : Digits digits) (rest : List Char) :
    ∃ c tail, digits ++ rest = c :: tail ∧ c.isDigit = true := by
  obtain ⟨c, tail, rfl⟩ := List.exists_cons_of_ne_nil form.nonempty
  exact ⟨c, tail ++ rest, rfl, form.digits c List.mem_cons_self⟩

theorem Digits.unsigned {digits : List Char} (form : Digits digits) (rest : List Char) :
    ∀ c ∈ (digits ++ rest).head?, c ≠ '-' ∧ c ≠ '+' := by
  obtain ⟨c, tail, same, digit⟩ := form.starts rest
  intro d head
  rw [same] at head
  cases head
  constructor <;> rintro rfl <;> revert digit <;> decide

theorem finite?_eq_some {x v : Binary32} :
    Binary32.finite? x = some v ↔ x = v ∧ v.isFinite = true := by
  simp only [Binary32.finite?, Option.ite_none_right_eq_some, Option.some.injEq]
  constructor
  · rintro ⟨finite, rfl⟩
    exact ⟨rfl, finite⟩
  · rintro ⟨rfl, finite⟩
    exact ⟨finite, rfl⟩

theorem parse?_eq_some {word : List Char} {v : Binary32} :
    Binary32.parse? word = some v ↔ Literal word v := by
  constructor
  · intro read
    obtain ⟨sign, form, whole⟩ := signed_cases word
    unfold Binary32.parse? at read
    generalize Binary32.signed word = parts at form whole read
    obtain ⟨negative, unsigned⟩ := parts
    dsimp only at form whole read
    subst whole
    split at read
    · rename_i nothing
      have all : unsigned.takeWhile (· != '.') = unsigned := by
        have parts := List.takeWhile_append_dropWhile (p := (· != '.')) (l := unsigned)
        rwa [nothing, List.append_nil] at parts
      simp only [Option.ite_none_right_eq_some, all, allDigits_iff, finite?_eq_some,
        Binary32.ofDecimal_eq_iff, digitsValue_eq] at read
      exact .whole form read.1 read.2
    · rename_i point places found
      obtain ⟨rfl, parts⟩ := split_found found
      simp only [Option.ite_none_right_eq_some, Bool.and_eq_true, allDigits_iff, finite?_eq_some,
        Binary32.ofDecimal_eq_iff, digitsValue_eq] at read
      rw [parts]
      exact .fraction form read.1.1 read.1.2 read.2
  · intro literal
    cases literal with
    | whole form digits decimal =>
      rename_i sign unsigned negative
      have all : ∀ c ∈ unsigned, (c != '.') = true := by
        intro c member
        simp only [bne_iff_ne]
        rintro rfl
        exact digits.not_mem (by decide) member
      have signed := signed_of_sign form (by simpa using digits.unsigned [])
      have before : unsigned.takeWhile (· != '.') = unsigned := by
        simpa using @List.takeWhile_append_of_pos _ _ _ [] all
      have after : unsigned.dropWhile (· != '.') = [] := by
        simpa using @List.dropWhile_append_of_pos _ _ _ [] all
      simp only [Binary32.parse?, signed, before, after, allDigits_iff.2 digits, if_true,
        digitsValue_eq, finite?_eq_some, Binary32.ofDecimal_eq_iff, decimal]
    | fraction form digits places decimal =>
      rename_i sign unsigned fraction negative
      obtain ⟨before, after⟩ := split_at (digits.not_mem (by decide : '.'.isDigit = false)) fraction
      have signed := signed_of_sign form (digits.unsigned ('.' :: fraction))
      simp only [Binary32.parse?, signed, before, after, allDigits_iff.2 digits,
        allDigits_iff.2 places, Bool.and_self, if_true, digitsValue_eq, finite?_eq_some,
        Binary32.ofDecimal_eq_iff, decimal]

theorem Sign.starts {sign rest : List Char} {negative : Bool} (form : Sign sign negative)
    (digits : ∃ c tail, rest = c :: tail ∧ c.isDigit = true) :
    ∃ c tail, sign ++ rest = c :: tail ∧ (c = '-' ∨ c = '+' ∨ c.isDigit = true) := by
  obtain ⟨c, tail, rfl, digit⟩ := digits
  cases form with
  | none => exact ⟨c, tail, rfl, Or.inr (Or.inr digit)⟩
  | plus => exact ⟨_, _, rfl, Or.inr (Or.inl rfl)⟩
  | minus => exact ⟨_, _, rfl, Or.inl rfl⟩

theorem Literal.head {word : List Char} {v : Binary32} (literal : Literal word v) :
    ∃ c rest, word = c :: rest ∧ (c = '-' ∨ c = '+' ∨ c.isDigit = true) := by
  cases literal with
  | whole form digits => exact form.starts (by simpa using digits.starts [])
  | fraction form digits => exact form.starts (digits.starts _)

theorem Place.not_literal {word : List Char} {d : Destination} (place : Place word d)
    (v : Binary32) : ¬ Literal word v := by
  intro literal
  obtain ⟨c, rest, rfl, letter⟩ := place.head
  obtain ⟨_, _, same, other⟩ := literal.head
  cases same
  rcases letter with rfl | rfl | rfl <;> revert other <;> decide

theorem operand?_eq_some {word : List Char} {o : Operand} :
    operand? word = some o ↔ Source word o := by
  simp only [operand?, Option.orElse_eq_or, Option.or_eq_some_iff, Option.map_eq_some_iff,
    parse?_eq_some, destination?_eq_some, Option.map_eq_none_iff]
  constructor
  · rintro (⟨v, literal, rfl⟩ | ⟨-, d, place, rfl⟩)
    · exact .literal literal
    · exact .place place
  · intro source
    cases source with
    | literal literal => exact Or.inl ⟨_, literal, rfl⟩
    | place place =>
      refine Or.inr ⟨?_, _, place, rfl⟩
      refine Option.eq_none_iff_forall_ne_some.2 fun v read => ?_
      exact place.not_literal v (parse?_eq_some.1 read)

end Literals

section Lines

theorem readDestination_ok {t : Token} {d : Destination} :
    readDestination t = .ok d ↔ Place t.text d := by
  rw [← destination?_eq_some, readDestination]
  rcases destination? t.text with _ | e <;> simp

theorem readOperand_ok {t : Token} {o : Operand} : readOperand t = .ok o ↔ Source t.text o := by
  rw [← operand?_eq_some, readOperand]
  rcases operand? t.text with _ | e <;> simp

theorem readMnemonic_ok {t : Token} {op : Operation} :
    readMnemonic t = .ok op ↔ t.text = op.mnemonic.toList := by
  have same : readMnemonic t = .ok op ↔
      Operation.ofMnemonic? (String.ofList t.text) = some op := by
    simp only [readMnemonic]
    rcases Operation.ofMnemonic? (String.ofList t.text) with _ | e <;> simp
  rw [same]
  constructor
  · intro found
    rw [Operation.mnemonic_of_ofMnemonic? found, String.toList_ofList]
  · intro text
    rw [text, String.ofList_toList, Operation.ofMnemonic?_mnemonic]

theorem readSources_ok {args : List Token} {operands : List Operand} :
    args.mapM readOperand = .ok operands ↔ List.Forall₂ Source (args.map Token.text) operands := by
  simp only [mapM_ok, readOperand_ok, List.forall₂_map_left_iff]

theorem positions_ok {operands : List Operand} {d : Option Destination}
    {found : Option Destination × Operand × Operand} :
    (match operands with
      | [] => pure (d, .unused, .unused)
      | [left] => pure (d, left, .unused)
      | left :: right :: _ => pure (d, left, right) : Reading _) = .ok found ↔
      (d, positions operands) = found := by
  unfold positions
  split <;> exact reading_pure

theorem readArguments_plain {op : Operation} (takes : op.shape.hasDestination = false)
    {args : List Token} {found : Option Destination × Operand × Operand} :
    readArguments op args = .ok found ↔ ∃ operands,
      List.Forall₂ Source (args.map Token.text) operands ∧ (none, positions operands) = found := by
  simp only [readArguments, takes, reading_bind, reading_pure, readSources_ok, exists_eq_left']
  constructor
  · rintro ⟨operands, sources, read⟩
    exact ⟨operands, sources, positions_ok.1 read⟩
  · rintro ⟨operands, sources, same⟩
    exact ⟨operands, sources, positions_ok.2 same⟩

theorem readArguments_targeted {op : Operation} (takes : op.shape.hasDestination = true)
    {t : Token} {args : List Token} {found : Option Destination × Operand × Operand} :
    readArguments op (t :: args) = .ok found ↔ ∃ d, Place t.text d ∧ ∃ operands,
      List.Forall₂ Source (args.map Token.text) operands ∧
        (some d, positions operands) = found := by
  simp only [readArguments, takes, reading_bind, reading_pure, readDestination_ok, readSources_ok]
  constructor
  · rintro ⟨d, place, _, rfl, operands, sources, read⟩
    exact ⟨d, place, operands, sources, positions_ok.1 read⟩
  · rintro ⟨d, place, operands, sources, same⟩
    exact ⟨d, place, _, rfl, operands, sources, positions_ok.2 same⟩

theorem sources_length {args : List Token} {operands : List Operand}
    (sources : List.Forall₂ Source (args.map Token.text) operands) :
    args.length = operands.length := by
  rw [← sources.length_eq, List.length_map]

theorem readArguments_ok {op : Operation} {args : List Token} {d : Option Destination}
    {operands : Operand × Operand} :
    args.length = op.shape.arity ∧ readArguments op args = .ok (d, operands) ↔
      Arguments op.shape (args.map Token.text) d operands := by
  cases takes : op.shape.hasDestination with
  | false =>
    have arity : op.shape.arity = op.shape.operandCount := by simp [Shape.arity, takes]
    rw [readArguments_plain takes, arity]
    constructor
    · rintro ⟨count, _, sources, same⟩
      cases same
      exact .plain takes ((sources_length sources).symm.trans count) sources
    · intro form
      generalize words : args.map Token.text = ws at form
      cases form with
      | plain _ count sources =>
        subst words
        exact ⟨(sources_length sources).trans count, _, sources, rfl⟩
      | targeted other => simp [takes] at other
  | true =>
    have arity : op.shape.arity = op.shape.operandCount + 1 := by simp [Shape.arity, takes]
    rw [arity]
    constructor
    · rintro ⟨count, read⟩
      obtain ⟨t, rest, rfl⟩ := List.exists_cons_of_length_eq_add_one count
      obtain ⟨_, place, _, sources, same⟩ := (readArguments_targeted takes).1 read
      cases same
      exact .targeted takes place ((sources_length sources).symm.trans (Nat.succ.inj count)) sources
    · intro form
      generalize words : args.map Token.text = ws at form
      cases form with
      | plain other => simp [takes] at other
      | targeted _ place count sources =>
        obtain ⟨t, rest, rfl, rfl, rfl⟩ := List.map_eq_cons_iff.1 words
        exact ⟨congrArg Nat.succ ((sources_length sources).trans count),
          (readArguments_targeted takes).2 ⟨_, place, _, sources, rfl⟩⟩

end Lines

end FloatMachine.Assembly

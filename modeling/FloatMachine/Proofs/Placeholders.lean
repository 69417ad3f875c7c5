import FloatMachine.Derive.MessageCode
import FloatMachine.Proofs.DerivedCodec

/-! Which fields a message is taken to mention. The search reads each brace as the start of a
placeholder whose argument goes up to the next colon or closing brace. So it finds the arguments of
all placeholders, but also a word after a brace that stands for itself, if what follows the word
could end an argument. -/
namespace FloatMachine.Derive.MessageCode

section Search

/-- The text up to the first character that could end an argument. -/
def argument? : List Char → Option (List Char)
  | [] => none
  | c :: s => if c = '\x7d' ∨ c = ':' then some [] else (argument? s).map (c :: ·)

/-- What follows each opening brace. -/
def opened : List Char → List (List Char)
  | [] => []
  | c :: s => if c = '\x7b' then s :: opened s else opened s

/-- Puts the letter of a name after each opening brace before text that is chosen. -/
def marked (chosen : List Char → Bool) : List Char → List Char
  | [] => []
  | c :: s =>
    if c = '\x7b' ∧ chosen s = true then c :: 'f' :: marked chosen s else c :: marked chosen s

/-- An argument has none of the characters that stand around arguments, or before a width. -/
def Plain (w : List Char) : Prop := ∀ c ∈ w, c ∉ ['\x7b', '\x7d', ':', '<', '^', '>']

instance (w : List Char) : Decidable (Plain w) := List.decidableBAll _ w

variable {w x s : List Char} {p q : List Char → Bool}

/-- Text that starts with a word, and then with what could end it as an argument. -/
def starts (w t : List Char) : Bool := (w ++ ['\x7d']).isPrefixOf t || (w ++ [':']).isPrefixOf t

theorem starts_iff (plain : Plain w) {t : List Char} :
    starts w t = true ↔ argument? t = some w := by
  simp only [starts, Bool.or_eq_true, List.isPrefixOf_iff_prefix]
  induction w generalizing t with
  | nil =>
    cases t with
    | nil => simp [argument?]
    | cons c t =>
      simp only [List.nil_append, List.cons_prefix_cons, List.nil_prefix, and_true, argument?,
        @eq_comm _ _ c]
      by_cases last : c = '\x7d' ∨ c = ':' <;> simp [last]
  | cons d w ih =>
    obtain ⟨here, others⟩ := List.forall_mem_cons.1 plain
    cases t with
    | nil => simp [argument?]
    | cons c t =>
      simp only [List.cons_append, List.cons_prefix_cons, argument?, ← and_or_left, ih others]
      by_cases last : c = '\x7d' ∨ c = ':'
      · have other : d ≠ c := by
          rintro rfl
          rcases last with rfl | rfl <;> simp at here
        simp [if_pos last, other]
      · simp only [if_neg last, Option.map_eq_some_iff, List.cons.injEq]
        constructor
        · rintro ⟨rfl, rest⟩
          exact ⟨w, rest, rfl, rfl⟩
        · rintro ⟨_, rest, rfl, rfl⟩
          exact ⟨rfl, rest⟩

theorem contains_iff : contains ('\x7b' :: x) s = true ↔ ∃ t ∈ opened s, x.isPrefixOf t = true := by
  induction s with
  | nil => simp [contains, opened]
  | cons c s ih =>
    rw [contains, Bool.or_eq_true, ih, opened]
    by_cases brace : c = '\x7b'
    · simp [brace]
    · have other : ('\x7b' == c) = false := beq_false_of_ne (Ne.symm brace)
      simp [brace, other, List.isPrefixOf]

theorem mentions_iff {message name : String} (plain : Plain name.toList) :
    mentions message name = true ↔
      ∃ t ∈ opened message.toList, argument? t = some name.toList := by
  simp only [mentions, alone, formatted, List.cons_append, Bool.or_eq_true, contains_iff,
    ← starts_iff plain, starts]
  constructor
  · rintro (⟨t, member, found⟩ | ⟨t, member, found⟩)
    · exact ⟨t, member, Or.inl found⟩
    · exact ⟨t, member, Or.inr found⟩
  · rintro ⟨t, member, found | found⟩
    · exact Or.inl ⟨t, member, found⟩
    · exact Or.inr ⟨t, member, found⟩

theorem marked_append (plain : '\x7b' ∉ x) : marked p (x ++ s) = x ++ marked p s := by
  induction x with
  | nil => rfl
  | cons c x ih =>
    have other : c ≠ '\x7b' := fun same => plain (same ▸ List.mem_cons_self)
    rw [List.cons_append, marked, if_neg fun both => other both.1,
      ih fun member => plain (List.mem_cons_of_mem _ member), List.cons_append]

theorem opened_append (plain : '\x7b' ∉ x) : opened (x ++ s) = opened s := by
  induction x with
  | nil => rfl
  | cons c x ih =>
    have other : c ≠ '\x7b' := fun same => plain (same ▸ List.mem_cons_self)
    rw [List.cons_append, opened, if_neg other, ih fun member => plain (List.mem_cons_of_mem _ member)]

theorem isPrefixOf_marked (plain : '\x7b' ∉ x) : x.isPrefixOf (marked p s) = x.isPrefixOf s := by
  induction x generalizing s with
  | nil => simp
  | cons d x ih =>
    have other : d ≠ '\x7b' := fun same => plain (same ▸ List.mem_cons_self)
    cases s with
    | nil => rfl
    | cons c s =>
      rw [marked]
      split
      · rename_i both
        have differ : (d == c) = false := beq_false_of_ne (both.1 ▸ other)
        simp [List.isPrefixOf, differ]
      · simp [List.isPrefixOf, ih fun member => plain (List.mem_cons_of_mem _ member)]

/-- A second choice that marks do not change adds its marks to those of the first. -/
theorem marked_marked (kept : ∀ t, q (marked p t) = q t) (named : ∀ t, q ('f' :: t) = false) :
    marked q (marked p s) = marked (fun t => p t || q t) s := by
  induction s with
  | nil => rfl
  | cons c s ih =>
    by_cases brace : c = '\x7b'
    · cases first : p s <;> cases second : q s <;>
        simp [marked, brace, first, second, kept, named, ih]
    · simp [marked, brace, ih]

theorem marked_never : marked (fun _ => false) s = s := by
  induction s with
  | nil => rfl
  | cons c s ih => rw [marked, if_neg (by simp), ih]

theorem replace_skip {needle value : List Char} :
    replace needle value x.length (x ++ s) = replace needle value 0 s := by
  induction x with
  | nil => rfl
  | cons c x ih => exact ih

theorem replace_eq (plain : '\x7b' ∉ x) :
    replace ('\x7b' :: x) ('\x7b' :: 'f' :: x) 0 s = marked x.isPrefixOf s := by
  induction size : s.length using Nat.strong_induction_on generalizing s with
  | _ n ih =>
    cases s with
    | nil => rfl
    | cons c s =>
      subst size
      rw [replace, marked]
      by_cases found : c = '\x7b' ∧ x.isPrefixOf s = true
      · obtain ⟨rfl, t, rfl⟩ := found.imp_right List.isPrefixOf_iff_prefix.1
        have shorter : t.length < ('\x7b' :: (x ++ t)).length := by
          rw [List.length_cons, List.length_append]
          omega
        rw [if_pos found, if_pos (by simp), List.length_cons, Nat.add_sub_cancel, replace_skip,
          ih _ shorter rfl, marked_append plain]
        rfl
      · have absent : ¬ ('\x7b' :: x).isPrefixOf (c :: s) = true := by
          rwa [List.isPrefixOf_cons_cons, Bool.and_eq_true, beq_iff_eq, @eq_comm _ _ c]
        rw [if_neg found, if_neg absent, ih s.length (Nat.lt_succ_self _) rfl]

theorem digit_of_mem {i : Nat} {c : Char} (member : c ∈ (toString i).toList) : c.isDigit = true := by
  rw [Nat.toString_eq_ofList_toDigits, String.toList_ofList] at member
  exact Nat.isDigit_of_mem_toDigits (by decide) (by decide) member

theorem plain_digits (i : Nat) : Plain (toString i).toList := by
  intro c member around
  have digit := digit_of_mem member
  simp only [List.mem_cons, List.not_mem_nil, or_false] at around
  rcases around with rfl | rfl | rfl | rfl | rfl | rfl <;> cases digit

theorem not_mem_ended {i : Nat} {c e : Char} (letter : c.isDigit = false) (other : c ≠ e) :
    c ∉ (toString i).toList ++ [e] := by
  intro member
  rcases List.mem_append.1 member with inside | last
  · rw [digit_of_mem inside] at letter
    cases letter
  · exact other (List.mem_singleton.1 last)

theorem ended_marked {i : Nat} {e : Char} (other : '\x7b' ≠ e) :
    ((toString i).toList ++ [e]).isPrefixOf (marked p s) =
      ((toString i).toList ++ [e]).isPrefixOf s :=
  isPrefixOf_marked (not_mem_ended (by decide) other)

theorem ended_named {i : Nat} {e : Char} (other : 'f' ≠ e) :
    ((toString i).toList ++ [e]).isPrefixOf ('f' :: s) = false := by
  have free := not_mem_ended (i := i) (by decide) other
  cases digits : (toString i).toList ++ [e] with
  | nil => simp at digits
  | cons d x =>
    rw [digits] at free
    have differ : (d == 'f') = false := beq_false_of_ne fun same => free (same ▸ List.mem_cons_self)
    rw [List.isPrefixOf_cons_cons, differ, Bool.false_and]

theorem nameAt_eq (i : Nat) : nameAt s i = marked (starts (toString i).toList) s := by
  rw [nameAt, alone, alone, formatted, formatted, CodecCode.place_text]
  simp only [List.cons_append]
  rw [replace_eq (not_mem_ended (by decide) (by decide)),
    replace_eq (not_mem_ended (by decide) (by decide)),
    marked_marked (fun t => ended_marked (by decide)) fun t => ended_named (by decide)]
  rfl

/-- Places are marked one after the other, and no mark hides or makes another. -/
theorem foldl_nameAt (places : List Nat) : places.foldl nameAt (marked p s) =
    marked (fun t => p t || places.any fun i => starts (toString i).toList t) s := by
  induction places generalizing p with
  | nil => simp
  | cons i places ih =>
    have kept : ∀ t, starts (toString i).toList (marked p t) = starts (toString i).toList t := by
      intro t
      rw [starts, starts, ended_marked (by decide), ended_marked (by decide)]
    have named : ∀ t, starts (toString i).toList ('f' :: t) = false := by
      intro t
      rw [starts, ended_named (by decide), ended_named (by decide), Bool.or_self]
    rw [List.foldl_cons, nameAt_eq, marked_marked kept named, ih]
    simp only [List.any_cons, Bool.or_assoc]

/-- A place among the first so many, in decimal. -/
def isPlace (count : Nat) (w : List Char) : Bool :=
  (List.range count).any fun i => (toString i).toList == w

theorem isPlace_iff {count : Nat} : isPlace count w = true ↔ ∃ i < count, (toString i).toList = w := by
  simp [isPlace]

theorem namedMessage_tuple (message : String) (count : Nat) :
    namedMessage message (.tuple count) =
      String.ofList (marked (fun t => (argument? t).any (isPlace count)) message.toList) := by
  have chosen : (fun t => false || (List.range count).reverse.any fun i =>
      starts (toString i).toList t) = fun t => (argument? t).any (isPlace count) := by
    funext t
    rw [Bool.eq_iff_iff, Bool.false_or, List.any_reverse, List.any_eq_true, Option.any_eq_true]
    simp only [List.mem_range, isPlace_iff]
    constructor
    · rintro ⟨i, small, found⟩
      exact ⟨_, (starts_iff (plain_digits i)).1 found, i, small, rfl⟩
    · rintro ⟨_, argument, i, small, rfl⟩
      exact ⟨i, small, (starts_iff (plain_digits i)).2 argument⟩
  rw [namedMessage, ← marked_never (s := message.toList), foldl_nameAt, chosen]
  simp only [marked_never]

end Search

/-- A piece of a message: a character, a brace that stands for itself, which is written twice, or a
placeholder for an argument with a format. -/
inductive Piece
  | text (c : Char)
  | opening
  | closing
  | hole (argument : List Char) (format : Option (List Char))
deriving DecidableEq, Repr

/-- A format without the character that fills, which stands in front of an alignment. -/
def unfilled : List Char → List Char
  | fill :: align :: s => if align ∈ ['<', '^', '>'] then align :: s else fill :: align :: s
  | s => s

/-- Braces in a format only fill. -/
def Format (s : List Char) : Prop := ∀ c ∈ unfilled s, c ≠ '\x7b' ∧ c ≠ '\x7d'

instance (s : List Char) : Decidable (Format s) := List.decidableBAll _ (unfilled s)

namespace Piece

def Formed : Piece → Prop
  | .text c => c ≠ '\x7b' ∧ c ≠ '\x7d'
  | .opening | .closing => True
  | .hole argument format => Plain argument ∧ ∀ s ∈ format, Format s

instance : DecidablePred Formed
  | .text c => inferInstanceAs (Decidable (c ≠ '\x7b' ∧ c ≠ '\x7d'))
  | .opening | .closing => inferInstanceAs (Decidable True)
  | .hole argument format => inferInstanceAs (Decidable (Plain argument ∧ ∀ s ∈ format, Format s))

def tail : Option (List Char) → List Char
  | none => ['\x7d']
  | some format => ':' :: format ++ ['\x7d']

def render : Piece → List Char
  | .text c => [c]
  | .opening => ['\x7b', '\x7b']
  | .closing => ['\x7d', '\x7d']
  | .hole argument format => '\x7b' :: argument ++ tail format

/-- A placeholder for a place becomes one for the name of the place. -/
def renamed (count : Nat) : Piece → Piece
  | .hole argument format =>
    .hole (if isPlace count argument then 'f' :: argument else argument) format
  | p => p

end Piece

def render (ps : List Piece) : List Char := ps.flatMap Piece.render

/-- The text at the front up to what could end an argument, if no brace opens before. -/
def lead : List Piece → Option (List Char)
  | .text c :: ps => if c = ':' then some [] else (lead ps).map (c :: ·)
  | .closing :: _ => some []
  | _ => none

def interpolated (ps : List Piece) : List (List Char) :=
  ps.filterMap fun
    | .hole argument _ => some argument
    | _ => none

/-- The words after a brace that stands for itself that have behind them what could end an
argument. -/
def lookalikes : List Piece → List (List Char)
  | [] => []
  | .opening :: ps => (lead ps).toList ++ lookalikes ps
  | _ :: ps => lookalikes ps

/-- The message with names for places: in the placeholders, but also in words that look alike. -/
def renamed (count : Nat) : List Piece → List Piece
  | [] => []
  | .opening :: ps =>
    if (lead ps).any (isPlace count) then .opening :: .text 'f' :: renamed count ps
    else .opening :: renamed count ps
  | p :: ps => p.renamed count :: renamed count ps

section Pieces

variable {ps : List Piece} {p : Piece} {w : List Char} {count : Nat}

theorem argument?_ne {c : Char} {t : List Char} (plain : Plain w)
    (around : c ∈ ['\x7b', '<', '^', '>']) : argument? (c :: t) ≠ some w := by
  intro found
  have inside : ¬ (c = '\x7d' ∨ c = ':') := by
    rintro (rfl | rfl) <;> simp at around
  rw [argument?, if_neg inside, Option.map_eq_some_iff] at found
  obtain ⟨_, -, rfl⟩ := found
  refine plain c List.mem_cons_self ?_
  simp only [List.mem_cons, List.not_mem_nil, or_false] at around ⊢
  tauto

theorem argument?_append {c : Char} {t : List Char} (plain : Plain w) (last : c = '\x7d' ∨ c = ':') :
    argument? (w ++ c :: t) = some w := by
  rw [← starts_iff plain, starts, Bool.or_eq_true]
  rcases last with rfl | rfl
  · exact Or.inl (List.isPrefixOf_iff_prefix.2 ⟨t, by simp⟩)
  · exact Or.inr (List.isPrefixOf_iff_prefix.2 ⟨t, by simp⟩)

theorem argument?_render (formed : ∀ p ∈ ps, p.Formed) (plain : Plain w) :
    argument? (render ps) = some w ↔ lead ps = some w := by
  induction ps generalizing w with
  | nil => exact Iff.rfl
  | cons p ps ih =>
    obtain ⟨here, others⟩ := List.forall_mem_cons.1 formed
    cases p with
    | text c =>
      show argument? (c :: render ps) = some w ↔ _
      rw [lead, argument?]
      by_cases colon : c = ':'
      · rw [if_pos (Or.inr colon), if_pos colon]
      · have inside : ¬ (c = '\x7d' ∨ c = ':') := by
          rintro (brace | same)
          · exact here.2 brace
          · exact colon same
        rw [if_neg inside, if_neg colon, Option.map_eq_some_iff, Option.map_eq_some_iff]
        constructor
        · rintro ⟨v, found, rfl⟩
          exact ⟨v, (ih others (List.forall_mem_cons.1 plain).2).1 found, rfl⟩
        · rintro ⟨v, found, rfl⟩
          exact ⟨v, (ih others (List.forall_mem_cons.1 plain).2).2 found, rfl⟩
    | opening => exact iff_of_false (argument?_ne plain (by simp)) nofun
    | closing => exact Iff.rfl
    | hole argument format => exact iff_of_false (argument?_ne plain (by simp)) nofun

def Found (s w : List Char) : Prop := ∃ t ∈ opened s, argument? t = some w

theorem found_brace {s : List Char} : Found ('\x7b' :: s) w ↔ argument? s = some w ∨ Found s w := by
  simp [Found, opened]

theorem found_append {x s : List Char} (free : '\x7b' ∉ x) : Found (x ++ s) w ↔ Found s w := by
  rw [Found, opened_append free, Found]

/-- After an argument there is at most one brace before the end of the placeholder: one that fills. -/
theorem tail_cases {format : Option (List Char)} (formed : ∀ s ∈ format, Format s) :
    '\x7b' ∉ Piece.tail format ∨ ∃ align x, align ∈ ['<', '^', '>'] ∧ '\x7b' ∉ align :: x ∧
      Piece.tail format = ':' :: '\x7b' :: align :: x := by
  cases format with
  | none => exact Or.inl (by decide)
  | some s =>
    have free : '\x7b' ∉ unfilled s := fun member => (formed s rfl _ member).1 rfl
    have whole : '\x7b' ∉ s → '\x7b' ∉ Piece.tail (some s) := by simp [Piece.tail]
    match s with
    | [] => exact Or.inl (whole free)
    | [_] => exact Or.inl (whole free)
    | fill :: align :: x =>
      by_cases aligned : align ∈ ['<', '^', '>']
      · rw [unfilled, if_pos aligned] at free
        by_cases brace : fill = '\x7b'
        · subst brace
          refine Or.inr ⟨align, x ++ ['\x7d'], aligned, ?_, rfl⟩
          rw [← List.cons_append, List.mem_append, not_or]
          exact ⟨free, by decide⟩
        · exact Or.inl (whole fun member => (List.mem_cons.1 member).elim (brace ∘ Eq.symm) free)
      · rw [unfilled, if_neg aligned] at free
        exact Or.inl (whole free)

theorem found_tail {format : Option (List Char)} {s : List Char} (formed : ∀ s ∈ format, Format s)
    (plain : Plain w) : Found (Piece.tail format ++ s) w ↔ Found s w := by
  obtain free | ⟨align, x, aligned, free, same⟩ := tail_cases formed
  · exact found_append free
  · have around : align ∈ ['\x7b', '<', '^', '>'] := List.mem_cons_of_mem _ aligned
    rw [same]
    have colon : Found ([':'] ++ '\x7b' :: (align :: x ++ s)) w ↔ _ := found_append (by decide)
    exact colon.trans (found_brace.trans ((or_iff_right (argument?_ne plain around)).trans
      (found_append free)))

theorem marked_tail {format : Option (List Char)} {s : List Char} {chosen : List Char → Bool}
    (formed : ∀ s ∈ format, Format s)
    (never : ∀ c ∈ ['\x7b', '<', '^', '>'], ∀ t, chosen (c :: t) = false) :
    marked chosen (Piece.tail format ++ s) = Piece.tail format ++ marked chosen s := by
  obtain free | ⟨align, x, aligned, free, same⟩ := tail_cases formed
  · exact marked_append free
  · have skip : ¬ ('\x7b' = '\x7b' ∧ chosen (align :: x ++ s) = true) := by
      rw [List.cons_append, never align (List.mem_cons_of_mem _ aligned)]
      simp
    have colon : marked chosen ([':'] ++ '\x7b' :: (align :: x ++ s)) = _ :=
      marked_append (by decide)
    rw [marked, if_neg skip, marked_append free] at colon
    rw [same]
    exact colon

theorem argument?_tail {argument s : List Char} {format : Option (List Char)}
    (plain : Plain argument) : argument? (argument ++ (Piece.tail format ++ s)) = some argument := by
  cases format with
  | none => exact argument?_append plain (Or.inl rfl)
  | some f => exact argument?_append plain (Or.inr rfl)

/-- The search finds the arguments of the placeholders, and what looks like one after a brace. -/
theorem found_render (formed : ∀ p ∈ ps, p.Formed) (plain : Plain w) :
    Found (render ps) w ↔ w ∈ interpolated ps ∨ w ∈ lookalikes ps := by
  induction ps with
  | nil => simp [Found, render, opened, interpolated, lookalikes]
  | cons p ps ih =>
    obtain ⟨here, others⟩ := List.forall_mem_cons.1 formed
    have unfolded : render (p :: ps) = p.render ++ render ps := rfl
    rw [unfolded]
    cases p with
    | text c =>
      have free : '\x7b' ∉ [c] := fun member => here.1 (List.mem_singleton.1 member).symm
      rw [Piece.render, found_append free]
      exact ih others
    | closing =>
      rw [Piece.render, found_append (by decide)]
      exact ih others
    | opening =>
      have second : Found ('\x7b' :: render ps) w ↔ _ := found_brace
      have first : Found ('\x7b' :: '\x7b' :: render ps) w ↔ _ := found_brace
      refine first.trans ((or_iff_right (argument?_ne plain (by simp))).trans ?_)
      rw [second, argument?_render others plain, ih others, lookalikes, List.mem_append,
        Option.mem_toList]
      exact or_left_comm
    | hole argument format =>
      have whole : Found ('\x7b' :: (argument ++ (Piece.tail format ++ render ps))) w ↔ _ :=
        found_brace
      have free : '\x7b' ∉ argument := fun member => here.1 _ member (by simp)
      rw [argument?_tail here.1, found_append free, found_tail here.2 plain, ih others,
        Option.some.injEq, @eq_comm _ _ w] at whole
      rw [Piece.render, List.cons_append, List.cons_append, List.append_assoc, whole, ← or_assoc]
      exact or_congr_left List.mem_cons.symm

theorem isPlace_plain (place : isPlace count w = true) : Plain w := by
  obtain ⟨i, _, rfl⟩ := isPlace_iff.1 place
  exact plain_digits i

theorem lead_place (formed : ∀ p ∈ ps, p.Formed) :
    (argument? (render ps)).any (isPlace count) = (lead ps).any (isPlace count) := by
  rw [Bool.eq_iff_iff, Option.any_eq_true, Option.any_eq_true]
  exact exists_congr fun w => and_congr_left fun place => argument?_render formed (isPlace_plain place)

theorem marked_render (formed : ∀ p ∈ ps, p.Formed) :
    marked (fun t => (argument? t).any (isPlace count)) (render ps) = render (renamed count ps) := by
  -- no argument begins with one of the characters around arguments
  have never : ∀ c ∈ ['\x7b', '<', '^', '>'], ∀ t, (argument? (c :: t)).any (isPlace count) = false := by
    intro c around t
    rw [Bool.eq_false_iff, Ne, Option.any_eq_true]
    rintro ⟨w, found, place⟩
    exact argument?_ne (isPlace_plain place) around found
  induction ps with
  | nil => rfl
  | cons p ps ih =>
    obtain ⟨here, others⟩ := List.forall_mem_cons.1 formed
    have unfolded : render (p :: ps) = p.render ++ render ps := rfl
    rw [unfolded]
    cases p with
    | text c =>
      have free : '\x7b' ∉ [c] := fun member => here.1 (List.mem_singleton.1 member).symm
      rw [Piece.render, marked_append free, ih others]
      rfl
    | closing =>
      rw [Piece.render, marked_append (by decide), ih others]
      rfl
    | opening =>
      -- of the two braces only the second can have an argument after it
      show marked _ ('\x7b' :: '\x7b' :: render ps) = _
      rw [marked, if_neg (by rw [never _ (by simp)]; simp), marked, renamed]
      simp only [lead_place others, true_and, ih others]
      split <;> rfl
    | hole argument format =>
      have free : '\x7b' ∉ argument := fun member => here.1 _ member (by simp)
      have placed : ((argument? (argument ++ (Piece.tail format ++ render ps))).any (isPlace count)) =
          isPlace count argument := by
        rw [argument?_tail here.1]
        rfl
      rw [Piece.render, List.cons_append, List.cons_append, List.append_assoc, marked]
      simp only [placed, true_and]
      rw [marked_append free, marked_tail here.2 never, ih others]
      show _ = render (.hole (if isPlace count argument then _ else _) format :: renamed count ps)
      split <;> simp [render, Piece.render]

end Pieces

/-- No word after a brace is taken for a place, so only placeholders are renamed. -/
theorem renamed_plain {ps : List Piece} {count : Nat}
    (apart : ∀ i < count, (toString i).toList ∉ lookalikes ps) :
    renamed count ps = ps.map (Piece.renamed count) := by
  induction ps with
  | nil => rfl
  | cons p ps ih =>
    cases p with
    | opening =>
      rw [lookalikes] at apart
      have other : ¬ (lead ps).any (isPlace count) = true := by
        rw [Option.any_eq_true]
        rintro ⟨_, found, place⟩
        obtain ⟨i, small, rfl⟩ := isPlace_iff.1 place
        exact apart i small (List.mem_append_left _ (Option.mem_toList.2 found))
      have later := ih fun i small alike => apart i small (List.mem_append_right _ alike)
      rw [renamed, if_neg other, later]
      rfl
    | text c => exact congrArg _ (ih apart)
    | closing => exact congrArg _ (ih apart)
    | hole argument format => exact congrArg _ (ih apart)

theorem mentions_render {message name : String} {ps : List Piece}
    (written : message.toList = render ps) (formed : ∀ p ∈ ps, p.Formed) (plain : Plain name.toList) :
    mentions message name = true ↔
      name.toList ∈ interpolated ps ∨ name.toList ∈ lookalikes ps := by
  rw [mentions_iff plain, written]
  exact found_render formed plain

theorem pattern_tuple (message : String) (count : Nat) :
    (bind message (.tuple count)).pattern = round (commas ((List.range count).map fun i =>
      if s!"f{i}" ∈ (bind message (.tuple count)).arguments then s!"f{i}" else "_")) := by
  refine congrArg (round ∘ commas) (List.map_congr_left fun i member => if_congr ?_ rfl rfl)
  rw [bind, List.mem_map_of_injective CodecCode.place_injective, List.mem_filter]
  exact (and_iff_right member).symm

/-- A field is bound and passed to a message if a placeholder has its name or place as the argument,
or if a word after a brace that stands for itself looks like such a placeholder. The message of a
tuple has names for places in just these pieces, so where no word looks alike, in the placeholders
only. -/
theorem passes_placeholders (message : String) (ps : List Piece)
    (written : message.toList = render ps) (formed : ∀ p ∈ ps, p.Formed) :
    (∀ names : List String, (∀ n ∈ names, Plain n.toList) →
      (∀ n, n ∈ (bind message (.named names)).arguments ↔
        n ∈ names ∧ (n.toList ∈ interpolated ps ∨ n.toList ∈ lookalikes ps)) ∧
      (bind message (.named names)).pattern =
        curly (spaced ((bind message (.named names)).arguments.map (fun n => spaced [n, ","]) ++
          [".."])) ∧
      namedMessage message (.named names) = message) ∧
    ∀ count : Nat,
      (∀ n, n ∈ (bind message (.tuple count)).arguments ↔ ∃ i < count, s!"f{i}" = n ∧
        ((toString i).toList ∈ interpolated ps ∨ (toString i).toList ∈ lookalikes ps)) ∧
      (bind message (.tuple count)).pattern = round (commas ((List.range count).map fun i =>
        if s!"f{i}" ∈ (bind message (.tuple count)).arguments then s!"f{i}" else "_")) ∧
      namedMessage message (.tuple count) = String.ofList (render (renamed count ps)) ∧
      ((∀ i < count, (toString i).toList ∉ lookalikes ps) →
        renamed count ps = ps.map (Piece.renamed count)) := by
  refine ⟨fun names plain => ⟨fun n => ?_, rfl, rfl⟩,
    fun count => ⟨fun n => ?_, pattern_tuple message count, ?_, renamed_plain⟩⟩
  · rw [bind, List.mem_filter]
    exact and_congr_right fun member => mentions_render written formed (plain n member)
  · simp only [bind, List.mem_map, List.mem_filter, List.mem_range,
      mentions_render written formed (plain_digits _), and_assoc]
    exact exists_congr fun i => and_congr_right fun _ => and_comm
  · rw [namedMessage_tuple, written, marked_render formed]

/-- Place 1 is told apart from place 10, and braces that stand for themselves stay. -/
theorem passes_placeholders_prefix :
    "level" ∉ (bind "\x7b1:?\x7d\x7b\x7b\x7b10\x7d" (.named ["level"])).arguments ∧
    "f1" ∈ (bind "\x7b1:?\x7d\x7b\x7b\x7b10\x7d" (.tuple 11)).arguments ∧
    "f0" ∉ (bind "\x7b1:?\x7d\x7b\x7b\x7b10\x7d" (.tuple 11)).arguments ∧
    namedMessage "\x7b1:?\x7d\x7b\x7b\x7b10\x7d" (.tuple 11) =
      "\x7bf1:?\x7d\x7b\x7b\x7bf10\x7d" := by
  obtain ⟨named, placed⟩ := passes_placeholders "\x7b1:?\x7d\x7b\x7b\x7b10\x7d"
    [.hole ['1'] (some ['?']), .opening, .hole ['1', '0'] none] (by decide) (by decide)
  obtain ⟨passed, -, -⟩ := named ["level"] (by decide)
  obtain ⟨places, -, text, plain⟩ := placed 11
  have apart := plain (by decide)
  refine ⟨?_, ?_, ?_, ?_⟩
  · rw [passed]
    decide
  · exact (places "f1").2 ⟨1, by decide, by decide, by decide⟩
  · rw [places]
    rintro ⟨i, -, same, found⟩
    cases @CodecCode.place_injective i 0 same
    revert found
    decide
  · rw [text, apart]
    decide

/-- A number between braces that stand for themselves is taken for a place: the field is bound and
passed though no placeholder names it, and the text of the message changes. -/
theorem braced_place_passed : ∃ i ps,
    Item.read? "#[error(\"\x7b\x7b0\x7d\x7d\")] struct Braced(u8);" = some i ∧
      i.message = .text "\x7b\x7b0\x7d\x7d" ∧ i.body = .record (.tuple 1) ∧
      "\x7b\x7b0\x7d\x7d".toList = render ps ∧ (∀ p ∈ ps, p.Formed) ∧ interpolated ps = [] ∧
      bodyText i = .ok
        "let Self (f0) = self ; write ! (f , \"\x7b\x7bf0\x7d\x7d\" , f0 = f0)" := by
  exact ⟨⟨"Braced", [], "", .text "\x7b\x7b0\x7d\x7d", .record (.tuple 1)⟩,
    [.opening, .text '0', .closing], by decide +kernel, rfl, rfl, by decide, by decide, rfl,
    by decide +kernel⟩

end FloatMachine.Derive.MessageCode

import FloatMachine.Devices.LookupTable
import FloatMachine.Proofs.Joined
import FloatMachine.Proofs.Listing

/-! What the text of a lookup table denotes. Its words are the words of its lines, comments left
out, and the table holds the numbers that they are literals for; a word that is no literal is an
error, and of several the first one in reading order is reported. -/
namespace FloatMachine

namespace Text

/-- A text made of words and of characters that separate them, which belong to the class `p`. -/
inductive Separated (p : Char → Bool) : List Char → List (List Char) → Prop
  | done : Separated p [] []
  | separator {c : Char} {rest : List Char} {ws : List (List Char)} : p c = true →
      Separated p rest ws → Separated p (c :: rest) ws
  | word {word rest : List Char} {ws : List (List Char)} : word ≠ [] →
      (∀ c ∈ word, p c = false) → (∀ c ∈ rest.head?, p c = true) →
      Separated p rest ws → Separated p (word ++ rest) (word :: ws)

section Separated

variable {p : Char → Bool} {s : List Char} {ws : List (List Char)}

theorem Separated.runs_eq (separated : Separated p s ws) : runs p s = ws := by
  induction separated with
  | done => exact runs_nil p
  | separator separates _ ih => rw [runs_separator separates, ih]
  | word nonempty inside after _ ih => rw [runs_word nonempty inside after, ih]

theorem separated_runs (p : Char → Bool) (s : List Char) : Separated p s (runs p s) := by
  induction length : s.length using Nat.strongRecOn generalizing s with
  | _ n ih =>
    cases s with
    | nil => exact runs_nil p ▸ .done
    | cons c s =>
      by_cases separates : p c = true
      · rw [runs_separator separates]
        exact .separator separates (ih s.length (by simp [← length]) s rfl)
      · obtain ⟨whole, inside, after⟩ := first_word p (Bool.not_eq_true _ ▸ separates) s
        have shorter : (s.dropWhile fun d => !p d).length < n := by
          rw [← length]
          exact Nat.lt_succ_of_le (List.length_dropWhile_le _ s)
        rw [← whole, runs_word (List.cons_ne_nil _ _) inside after]
        exact .word (List.cons_ne_nil _ _) inside after (ih _ shorter _ rfl)

theorem separated_iff : Separated p s ws ↔ runs p s = ws := by
  constructor
  · exact Separated.runs_eq
  · rintro rfl
    exact separated_runs p s

theorem Separated.mem (separated : Separated p s ws) {c : Char} (member : c ∈ s) :
    p c = true ∨ ∃ w ∈ ws, c ∈ w := by
  induction separated with
  | done => cases member
  | separator separates _ ih =>
    rcases List.mem_cons.1 member with rfl | later
    · exact Or.inl separates
    · exact ih later
  | word _ _ _ _ ih =>
    rcases List.mem_append.1 member with here | later
    · exact Or.inr ⟨_, List.mem_cons_self, here⟩
    · rcases ih later with separates | ⟨w, inside, within⟩
      · exact Or.inl separates
      · exact Or.inr ⟨w, List.mem_cons_of_mem _ inside, within⟩

end Separated

end Text

namespace LookupTable

open Assembly (Literal)

/-- The data of a line is what stands before its first `#`. -/
inductive Data : List Char → List Char → Prop
  | whole {data : List Char} : '#' ∉ data → Data data data
  | commented {data comment : List Char} : '#' ∉ data → Data (data ++ '#' :: comment) data

/-- The words of some lines in reading order, each with the number of its line; the first line has
the number that is given. -/
inductive Words : Nat → List (List Char) → List (Nat × List Char) → Prop
  | done {number : Nat} : Words number [] []
  | line {number : Nat} {raw data : List Char} {ws : List (List Char)} {rest : List (List Char)}
      {places : List (Nat × List Char)} : Data raw data →
      Text.Separated Text.isBlank data ws → Words (number + 1) rest places →
      Words number (raw :: rest) (ws.map (Prod.mk number) ++ places)

def wordsOf (raw : List Char) : List (List Char) := Text.words (raw.takeWhile (· != '#'))

/-- The words of lines, each with the number of its line. -/
def numbered (number : Nat) (ls : List (List Char)) : List (Nat × List Char) :=
  (ls.zipIdx number).flatMap fun (raw, line) => (wordsOf raw).map (Prod.mk line)

section Words

theorem data_iff {raw data : List Char} : Data raw data ↔ raw.takeWhile (· != '#') = data := by
  constructor
  · intro form
    cases form with
    | whole plain =>
      have all : ∀ c ∈ raw, (c != '#') = true := by
        intro c member
        simp only [bne_iff_ne]
        rintro rfl
        exact plain member
      simpa using @List.takeWhile_append_of_pos _ _ _ [] all
    | commented plain => exact (Assembly.split_at plain _).1
  · rintro rfl
    have plain : '#' ∉ raw.takeWhile (· != '#') := by
      intro member
      simpa using List.all_eq_true.1 List.all_takeWhile _ member
    have parts := List.takeWhile_append_dropWhile (p := (· != '#')) (l := raw)
    cases found : raw.dropWhile (· != '#') with
    | nil =>
      rw [found, List.append_nil] at parts
      rw [parts] at plain ⊢
      exact .whole plain
    | cons c rest =>
      have whole := (Assembly.split_found found).2
      generalize raw.takeWhile (· != '#') = data at plain whole
      exact whole ▸ .commented plain

theorem numbered_cons (number : Nat) (raw : List Char) (rest : List (List Char)) :
    numbered number (raw :: rest) =
      (wordsOf raw).map (Prod.mk number) ++ numbered (number + 1) rest := by
  rw [numbered, List.zipIdx_cons, List.flatMap_cons, numbered]

theorem words_iff {number : Nat} {ls : List (List Char)} {places : List (Nat × List Char)} :
    Words number ls places ↔ numbered number ls = places := by
  constructor
  · intro form
    induction form with
    | done => rfl
    | line data separated _ ih =>
      rw [numbered_cons, ih, wordsOf, data_iff.1 data, Text.words, separated.runs_eq]
  · rintro rfl
    induction ls generalizing number with
    | nil => exact .done
    | cons raw rest ih =>
      rw [numbered_cons]
      exact .line (data_iff.2 rfl) (Text.separated_runs _ _) ih

theorem numbered_words (number : Nat) (ls : List (List Char)) :
    (numbered number ls).map Prod.snd = ls.flatMap wordsOf := by
  induction ls generalizing number with
  | nil => rfl
  | cons raw rest ih =>
    have first : ((wordsOf raw).map (Prod.mk number)).map Prod.snd = wordsOf raw := by
      rw [List.map_map]
      exact List.map_id _
    rw [numbered_cons, List.map_append, ih, first, List.flatMap_cons]

theorem wordsOf_return (raw : List Char) : wordsOf (raw ++ ['\r']) = wordsOf raw := by
  have cut : Data raw (raw.takeWhile (· != '#')) := data_iff.2 rfl
  unfold wordsOf
  generalize raw.takeWhile (· != '#') = data at cut
  cases cut with
  | whole plain =>
    have longer : Data (raw ++ ['\r']) (raw ++ ['\r']) := .whole (by simpa using plain)
    rw [data_iff.1 longer, Text.words, Text.runs_last_separator (by decide), Text.words]
  | commented plain =>
    rw [List.append_assoc, List.cons_append, data_iff.1 (.commented plain)]

theorem wordsOf_dropReturn (raw : List Char) : wordsOf (Text.dropReturn raw) = wordsOf raw := by
  rcases Text.dropReturn_cases raw with same | ends
  · rw [same]
  · conv_rhs => rw [ends, wordsOf_return]

theorem words_ended (s : List Char) :
    (Text.lines (s ++ ['\n'])).flatMap wordsOf = (Text.lines s).flatMap wordsOf := by
  induction s using Text.lines_induction with
  | last line one =>
    have none : wordsOf [] = [] := rfl
    rw [Text.lines_newline one, Text.lines_last one, List.flatMap_cons, wordsOf_dropReturn]
    split
    · rename_i empty
      rw [List.isEmpty_iff.1 empty]
      rfl
    · rfl
  | newline line rest one ih =>
    rw [List.append_assoc, List.cons_append, Text.lines_newline one, Text.lines_newline one,
      List.flatMap_cons, List.flatMap_cons, ih]

/-- In a text without comments the ends of lines separate words as other blanks do. -/
theorem words_uncommented {s : List Char} (plain : '#' ∉ s) :
    (Text.lines s).flatMap wordsOf = Text.words s := by
  have kept : ∀ {line : List Char}, '#' ∉ line → wordsOf line = Text.words line := by
    intro line plain
    rw [wordsOf, data_iff.1 (.whole plain)]
  induction s using Text.lines_induction with
  | last line one =>
    rw [Text.lines_last one]
    split
    · rename_i empty
      rw [List.isEmpty_iff.1 empty]
      rfl
    · rw [List.flatMap_singleton, kept plain]
  | newline line rest one ih =>
    obtain ⟨before, after⟩ := not_or.1 (List.mem_append.not.1 plain)
    have later : '#' ∉ rest := fun member => after (List.mem_cons_of_mem _ member)
    rw [Text.lines_newline one, List.flatMap_cons, wordsOf_dropReturn, kept before, ih later,
      Text.words, Text.words, Text.words, Text.runs_append_separator (by decide)]

end Words

section Reading

def readPlaced : Nat × List Char → Except Error Binary32 := fun (line, word) => readWord line word

theorem readWord_ok {line : Nat} {word : List Char} {v : Binary32} :
    readWord line word = .ok v ↔ Literal word v := by
  rw [← Assembly.parse?_eq_some, readWord]
  split <;> simp_all

theorem readWord_error {line : Nat} {word : List Char} {e : Error} :
    readWord line word = .error e ↔
      (∀ v, ¬ Literal word v) ∧ e = ⟨line, String.ofList word⟩ := by
  rw [← Assembly.parse?_eq_none, readWord, eq_comm (a := e)]
  split <;> simp_all

theorem readLines_eq (number : Nat) (ls : List (List Char)) :
    (do return (← (ls.zipIdx number).mapM fun (raw, line) => readLine line raw).flatten) =
      (numbered number ls).mapM readPlaced := by
  induction ls generalizing number with
  | nil => rfl
  | cons raw rest ih =>
    have first : readLine number raw =
        ((wordsOf raw).map (Prod.mk number)).mapM readPlaced := by
      rw [List.mapM_map]
      rfl
    rw [numbered_cons, List.mapM_append, ← ih, ← first, List.zipIdx_cons, List.mapM_cons]
    simp

theorem parse_eq (text : String) : parse text =
    (fun vs => ⟨vs.toArray⟩) <$> (numbered 1 (Text.lines text.toList)).mapM readPlaced := by
  rw [← readLines_eq, parse]
  simp

theorem parse_ok {text : String} {table : LookupTable} : parse text = .ok table ↔
    List.Forall₂ Literal ((Text.lines text.toList).flatMap wordsOf) table.entries.toList := by
  have each : ∀ {vs : List Binary32},
      List.Forall₂ (fun place v => readPlaced place = .ok v)
          (numbered 1 (Text.lines text.toList)) vs ↔
        List.Forall₂ Literal ((Text.lines text.toList).flatMap wordsOf) vs := by
    intro vs
    rw [← numbered_words 1, List.forall₂_map_left_iff]
    simp only [readPlaced, readWord_ok]
  rw [parse_eq, map_eq_pure_bind, reading_bind]
  simp only [mapM_ok, reading_pure, each]
  constructor
  · rintro ⟨vs, read, rfl⟩
    simpa using read
  · intro read
    exact ⟨_, read, by simp⟩

theorem parse_error {text : String} {e : Error} : parse text = .error e ↔
    ∃ before line word after,
      numbered 1 (Text.lines text.toList) = before ++ (line, word) :: after ∧
      (∀ place ∈ before, ∃ v, Literal place.2 v) ∧ (∀ v, ¬ Literal word v) ∧
      e = ⟨line, String.ofList word⟩ := by
  rw [parse_eq, map_eq_pure_bind, reading_bind_error]
  simp only [mapM_error, readPlaced, readWord_ok, readWord_error, reading_pure_error, and_false,
    exists_false, or_false]
  generalize numbered 1 (Text.lines text.toList) = places
  constructor
  · rintro ⟨n, ⟨line, word⟩, found, wrong, fine⟩
    obtain ⟨inside, here⟩ := List.getElem?_eq_some_iff.1 found
    refine ⟨places.take n, line, word, places.drop (n + 1), ?_, ?_, wrong⟩
    · rw [← here, ← List.drop_eq_getElem_cons inside, List.take_append_drop]
    · intro place member
      obtain ⟨j, less, same⟩ := List.mem_take_iff_getElem.1 member
      exact fine j place (by omega) (List.getElem?_eq_some_iff.2 ⟨by omega, same⟩)
  · rintro ⟨before, line, word, after, rfl, fine, wrong⟩
    refine ⟨before.length, (line, word), by simp, wrong, ?_⟩
    intro j place less found
    rw [List.getElem?_append_left less] at found
    exact fine place (List.mem_of_getElem? found)

end Reading

section Texts

theorem parse_joined {a b : String} {s t : LookupTable} (first : parse a = .ok s)
    (second : parse b = .ok t) : parse (a ++ "\n" ++ b) = .ok ⟨s.entries ++ t.entries⟩ := by
  have words := List.rel_append (parse_ok.1 first) (parse_ok.1 second)
  rw [parse_ok, Assembly.lines_joined, List.flatMap_append, words_ended]
  simpa using words

theorem parse_printed {vs : List Binary32} (finite : ∀ v ∈ vs, v.isFinite = true) {text : String}
    (printed : Text.Separated Text.isBlank text.toList (vs.map fun v => v.toDecimal.toList)) :
    parse text = .ok ⟨vs.toArray⟩ := by
  have literals : List.Forall₂ Literal (vs.map fun v => v.toDecimal.toList) vs := by
    rw [List.forall₂_map_left_iff, List.forall₂_same]
    exact fun v member => Assembly.literal_toDecimal (finite v member)
  have plain : '#' ∉ text.toList := by
    intro member
    rcases printed.mem member with blank | ⟨word, inside, within⟩
    · revert blank
      decide
    · obtain ⟨v, number, rfl⟩ := List.mem_map.1 inside
      exact ((Assembly.literal_toDecimal (finite v number)).wordChars _ within).2 rfl
  rw [parse_ok, words_uncommented plain, Text.words, printed.runs_eq]
  exact literals

end Texts

/-- The words of a text stand between blanks on its lines, each line up to its first `#`. The text
is read just when all of them are literals, as the table of their numbers, and else the first that
is none is reported with its line. Joined texts have both tables, and printed numbers are read back
whatever blanks stand between them. -/
theorem parses_exactly :
    (∀ text : String, ∃ places,
      (∀ others, Words 1 (Text.lines text.toList) others ↔ others = places) ∧
      ((∃ table, parse text = .ok table) ↔ ∀ place ∈ places, ∃ v, Literal place.2 v) ∧
      (∀ table, parse text = .ok table ↔
        List.Forall₂ Literal (places.map Prod.snd) table.entries.toList) ∧
      ∀ e, parse text = .error e ↔ ∃ before line word after,
        places = before ++ (line, word) :: after ∧ (∀ place ∈ before, ∃ v, Literal place.2 v) ∧
        (∀ v, ¬ Literal word v) ∧ e = ⟨line, String.ofList word⟩) ∧
    (∀ a b s t, parse a = .ok s → parse b = .ok t →
      parse (a ++ "\n" ++ b) = .ok ⟨s.entries ++ t.entries⟩) ∧
    ∀ (vs : List Binary32) (text : String), (∀ v ∈ vs, v.isFinite = true) →
      Text.Separated Text.isBlank text.toList (vs.map fun v => v.toDecimal.toList) →
      parse text = .ok ⟨vs.toArray⟩ := by
  refine ⟨fun text => ⟨numbered 1 (Text.lines text.toList), ?_, ?_, ?_, ?_⟩,
    fun a b s t => parse_joined, fun vs text finite => parse_printed finite⟩
  · intro others
    rw [words_iff, eq_comm]
  · have denoted : (∃ table, parse text = .ok table) ↔
        ∃ vs, List.Forall₂ Literal ((numbered 1 (Text.lines text.toList)).map Prod.snd) vs := by
      simp only [parse_ok, numbered_words]
      exact ⟨fun ⟨table, read⟩ => ⟨_, read⟩, fun ⟨vs, read⟩ => ⟨⟨vs.toArray⟩, by simpa using read⟩⟩
    rw [denoted, exists_forall₂, List.forall_mem_map]
  · intro table
    rw [parse_ok, numbered_words]
  · exact fun e => parse_error

/-- A comment with a carriage return after it, then a negative number; and two numbers, one of them
negative zero, between blanks of several kinds. -/
theorem parses_exactly_blanks :
    (parse "1 # one\r" = .ok ⟨#[.one]⟩ ∧ parse "-2.5\n" = .ok ⟨#[⟨0xc0200000⟩]⟩) ∧
    parse ("1 # one\r" ++ "\n" ++ "-2.5\n") = .ok ⟨#[.one, ⟨0xc0200000⟩]⟩ ∧
    (∀ v ∈ [Binary32.one, ⟨0x80000000⟩], v.isFinite = true) ∧
    parse "\t1\u00a0\n-0\x0c" = .ok ⟨#[.one, ⟨0x80000000⟩]⟩ := by
  obtain ⟨-, joins, prints⟩ := parses_exactly
  have first : parse "1 # one\r" = .ok ⟨#[.one]⟩ := by decide +kernel
  have second : parse "-2.5\n" = .ok ⟨#[⟨0xc0200000⟩]⟩ := by decide +kernel
  have finite : ∀ v ∈ [Binary32.one, ⟨0x80000000⟩], v.isFinite = true := by decide
  have separated : Text.Separated Text.isBlank "\t1\u00a0\n-0\x0c".toList
      ([Binary32.one, ⟨0x80000000⟩].map fun v => v.toDecimal.toList) :=
    Text.separated_iff.2 (by decide +kernel)
  exact ⟨⟨first, second⟩, joins _ _ _ _ first second, finite, prints _ _ finite separated⟩

end LookupTable
end FloatMachine

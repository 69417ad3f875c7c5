import FloatMachine.Text.Blank

/-! The words of a source line and where they stand. -/
namespace FloatMachine.Assembly

/-- Columns count characters from 1. -/
structure Token where
  text : List Char
  column : Nat
deriving DecidableEq, Repr

def isSeparator (c : Char) : Bool := c == ',' || Text.isBlank c

/-- The maximal runs without separators in a text that begins at `column`. -/
def tokensFrom (column : Nat) : List Char → List Token
  | [] => []
  | c :: rest =>
    if isSeparator c then tokensFrom (column + 1) rest
    else
      let word := c :: rest.takeWhile (fun d => !isSeparator d)
      ⟨word, column⟩ ::
        tokensFrom (column + word.length) (rest.dropWhile (fun d => !isSeparator d))
termination_by s => s.length
decreasing_by
  · simp
  · simpa using Nat.lt_succ_of_le (List.dropWhile_sublist _).length_le

theorem tokensFrom_separator (column : Nat) {c : Char} (rest : List Char)
    (h : isSeparator c = true) : tokensFrom column (c :: rest) = tokensFrom (column + 1) rest := by
  rw [tokensFrom]
  simp [h]

theorem tokensFrom_word (column : Nat) {word rest : List Char} (nonempty : word ≠ [])
    (inside : ∀ c ∈ word, isSeparator c = false) (after : ∀ c ∈ rest.head?, isSeparator c = true) :
    tokensFrom column (word ++ rest) =
      ⟨word, column⟩ :: tokensFrom (column + word.length) rest := by
  obtain ⟨c, word, rfl⟩ := List.exists_cons_of_ne_nil nonempty
  have run : (word ++ rest).takeWhile (fun d => !isSeparator d) = word ∧
      (word ++ rest).dropWhile (fun d => !isSeparator d) = rest := by
    have all : ∀ d ∈ word, (!isSeparator d) = true := by
      intro d hd
      simp [inside d (List.mem_cons_of_mem c hd)]
    rw [List.takeWhile_append_of_pos all, List.dropWhile_append_of_pos all]
    cases rest with
    | nil => simp
    | cons d rest => simp [after d rfl]
  rw [List.cons_append, tokensFrom]
  simp [inside c List.mem_cons_self, run.1, run.2]

def tokens (code : List Char) : List Token := tokensFrom 1 code

/-- What comes before the first `#`; one right after a backslash does not count, and
`escaped` says whether a backslash stands before the text. -/
def beforeComment (escaped : Bool) : List Char → List Char
  | [] => []
  | c :: rest =>
    if c == '#' && !escaped then [] else c :: beforeComment (c == '\\') rest

def stripComment (line : List Char) : List Char := beforeComment false line

end FloatMachine.Assembly

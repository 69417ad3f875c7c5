import FloatMachine.Command.Runner
import FloatMachine.Proofs.CodecExact

/-! What is kept in files. A path that names a file names a place in the tree, which holds what was
written there last; and the image of a cell store is read back as the same cells, up to the greatest
number of cells that is read at all. -/
namespace FloatMachine

namespace Path

theorem last_of_slash {path : String} (slash : path.toList.getLast? = some '/') :
    (parts path).getLast? = some [] := by
  obtain ⟨before, chars⟩ := List.getLast?_eq_some_iff.1 slash
  rw [parts, chars, List.splitOn_append_cons_self, List.splitOn_nil]
  exact List.getLast?_concat

end Path

namespace FileTree

variable {t : FileTree} {path : String} {place : List String} {n : Node}

/-- The path leads to this place, where a file is or may be created. -/
def Names (t : FileTree) (path : String) (place : List String) : Prop :=
  t.resolve path = .ok (place, false)

theorem names_iff : t.Names path place ↔
    path.toList.contains '\x00' = false ∧ path.isEmpty = false ∧ path.utf8ByteSize < 4096 ∧
    let parts := (Path.parts path).map String.ofList
    let start := if path.toList.head? = some '/' then [] else t.home
    let last := parts.getLast?.getD ""
    (last.isEmpty || last == ".") = false ∧ (last == "..") = false ∧ last.utf8ByteSize ≤ 255 ∧
    ∃ parent, t.descend start parts.dropLast = .ok parent ∧ parent ++ [last] = place := by
  unfold Names resolve
  constructor
  · intro named
    split at named
    · cases named
    split at named
    · cases named
    split at named
    · cases named
    simp only [reading_bind] at named
    obtain ⟨parent, descended, found⟩ := named
    split at found
    · cases found
    split at found
    · cases found
    split at found
    · cases found
    cases found
    simp_all
  · rintro ⟨proper, full, short, ends, below, named, parent, descended, rfl⟩
    simp only [proper, full, ends, below, Nat.not_le.2 short, Nat.not_lt.2 named, descended,
      Bool.false_eq_true, if_false, reading_bind]
    exact ⟨parent, rfl, rfl⟩

theorem Names.last (named : t.Names path place) :
    place ≠ [] ∧ path.toList.getLast? ≠ some '/' := by
  obtain ⟨-, -, -, proper, -, -, _, -, rfl⟩ := names_iff.1 named
  refine ⟨List.concat_ne_nil _ _, fun slash => ?_⟩
  have void := Path.last_of_slash slash
  simp [List.getLast?_map, void] at proper

theorem Names.exists? (named : t.Names path place) : t.exists? path = (t.node? place).isSome := by
  rw [FileTree.exists?, named]

theorem Names.read (named : t.Names path place) : t.read path =
    match t.node? place with
    | some (.file content) => .ok content
    | some .directory => .error .isADirectory
    | some .sink => .ok []
    | none => .error .notFound := by
  rw [FileTree.read, named]
  rfl

theorem Names.trimmed (named : t.Names path place) :
    String.ofList (path.toList.reverse.dropWhile (· == '/')).reverse = path := by
  have kept : path.toList.reverse.dropWhile (· == '/') = path.toList.reverse := by
    cases chars : path.toList.reverse with
    | nil => rfl
    | cons c rest =>
      have last : path.toList.getLast? = some c := by
        rw [← List.head?_reverse, chars]
        rfl
      have other : ¬ (c == '/') = true := by
        intro slash
        exact named.last.2 (last.trans (congrArg some (eq_of_beq slash)))
      exact List.dropWhile_cons_of_neg other
  rw [kept, List.reverse_reverse, String.ofList_toList]

theorem Names.write (named : t.Names path place) (content : Bytes)
    (ordinary : ∀ n, t.node? place = some n → ∃ old, n = .file old) :
    t.write path content = .ok (t.set place (.file content)) := by
  have resolved : t.resolve path = .ok (place, false) := named
  simp only [FileTree.write, named.trimmed, ite_self, resolved, bne_self_eq_false, Bool.or_false,
    Bool.false_eq_true, if_false, bind, Except.bind, pure, Except.pure]
  rcases held : t.node? place with _ | n
  · rfl
  · obtain ⟨old, rfl⟩ := ordinary n held
    rfl

theorem lookup_filter_ne {q : List String} (other : q ≠ place) (nodes : List (List String × Node)) :
    (nodes.filter fun entry => entry.1 != place).lookup q = nodes.lookup q := by
  induction nodes with
  | nil => rfl
  | cons entry nodes ih =>
    obtain ⟨key, held⟩ := entry
    by_cases same : key = place
    · subst same
      have apart : (q == key) = false := beq_false_of_ne other
      simp [List.lookup_cons, apart, ih]
    · simp [List.lookup_cons, same, ih]

theorem node?_set_ne {q : List String} (other : q ≠ place) :
    (t.set place n).node? q = t.node? q := by
  have apart : (q == place) = false := beq_false_of_ne other
  simp [node?, FileTree.set, List.lookup_cons, apart, lookup_filter_ne other]

/-- The way to a place leads through directories only, so no file is on it. -/
theorem descend_set (apart : t.node? place ≠ some .directory) {parts start found : List String}
    (descended : t.descend start parts = .ok found) :
    (t.set place n).descend start parts = .ok found := by
  have kept : ∀ q, t.node? q = some .directory → (t.set place n).node? q = some .directory := by
    intro q directory
    have other : q ≠ place := by
      rintro rfl
      exact apart directory
    rw [node?_set_ne other, directory]
  induction parts generalizing start with
  | nil =>
    unfold descend at descended ⊢
    split at descended
    · rename_i directory
      rw [kept _ directory]
      exact descended
    · cases descended
    · cases descended
  | cons part parts ih =>
    unfold descend at descended ⊢
    split at descended
    · rename_i directory
      rw [kept _ directory]
      dsimp only
      split at descended
      · rw [if_pos ‹_›]
        exact ih descended
      · rw [if_neg ‹_›]
        split at descended
        · rw [if_pos ‹_›]
          exact ih descended
        · rw [if_neg ‹_›]
          split at descended
          · cases descended
          · rw [if_neg ‹_›]
            exact ih descended
    · cases descended
    · cases descended

theorem Names.set (named : t.Names path place) (apart : t.node? place ≠ some .directory) :
    (t.set place n).Names path place := by
  obtain ⟨proper, full, short, ends, below, kept, parent, descended, joined⟩ := names_iff.1 named
  exact names_iff.2
    ⟨proper, full, short, ends, below, kept, parent, descend_set apart descended, joined⟩

theorem Names.read_written (named : t.Names path place) (content : Bytes)
    (ordinary : ∀ n, t.node? place = some n → ∃ old, n = .file old) :
    ∃ u, t.write path content = .ok u ∧ u.read path = .ok content := by
  have apart : t.node? place ≠ some .directory := by
    intro directory
    obtain ⟨old, file⟩ := ordinary _ directory
    cases file
  refine ⟨_, named.write content ordinary, ?_⟩
  rw [(named.set apart).read, node?_set t (.file content) named.last.1]

end FileTree

namespace Codec

theorem list_oversized {α : Type} (item : Codec α) {n : Nat} (large : maxLength < n)
    (word : n < UInt64.size) (rest : Bytes) :
    (list item).decode (length.encode n ++ rest) = (.error .lengthOverflow, rest) := by
  have read : u64.decode (length.encode n ++ rest) = (.ok (UInt64.ofNat n), rest) :=
    (u64_exact _ _ _).2 ⟨trivial, rfl⟩
  have kept : (UInt64.ofNat n).toNat = n := UInt64.toNat_ofNat_of_lt' word
  have refused : length.decode (length.encode n ++ rest) = (.error .lengthOverflow, rest) := by
    change (u64.decode >>= _) _ = _
    rw [bind_eq, read]
    dsimp only
    rw [kept, if_pos large]
    rfl
  change (length.decode >>= _) _ = _
  rw [bind_eq, refused]

end Codec

namespace CellStore

def Loadable (s : CellStore) : Prop := s.cells.size ≤ Codec.maxLength

theorem toBytes_eq (s : CellStore) : s.toBytes =
    (Codec.vector 4).encode magic ++ (Codec.list Codec.binary32).encode s.cells.toList := by
  simp [toBytes, writes, Codec.encode]

theorem fromBytes_ok {input : Bytes} {s : CellStore} :
    fromBytes input = .ok s ↔ input = s.toBytes ∧ s.Loadable := by
  have loaded : ∀ rest, loader input = (.ok s, rest) ↔
      s.Loadable ∧ input = s.toBytes ∧ rest = [] := by
    intro rest
    simp only [loader, bind_ok, unless_ok, adapt_ok, get_ok, pure_ok, Codec.vector_exact _ _ _,
      Codec.list_exact Codec.binary32_exact _ _ _, ne_eq, Decidable.not_not, toBytes_eq]
    constructor
    · rintro ⟨_, _, ⟨-, rfl⟩, rfl, cells, left, ⟨⟨small, -⟩, rfl⟩, _, _, ⟨rfl, rfl⟩, nothing,
        rfl, rfl⟩
      have empty : left = [] := by simpa using nothing
      subst empty
      exact ⟨by simpa [Loadable] using small, by simp, rfl⟩
    · rintro ⟨small, rfl, rfl⟩
      have limited : s.cells.toList.length ≤ Codec.maxLength := small
      exact ⟨magic, _, ⟨trivial, rfl⟩, rfl, s.cells.toList, [], ⟨⟨limited, by simp⟩, by simp⟩,
        [], [], ⟨rfl, rfl⟩, by simp, rfl, rfl⟩
  constructor
  · intro read
    have run : loader input = (.ok s, (loader input).2) := Prod.ext read rfl
    obtain ⟨small, image, -⟩ := (loaded _).1 run
    exact ⟨image, small⟩
  · rintro ⟨image, small⟩
    exact congrArg Prod.fst ((loaded []).2 ⟨small, image, rfl⟩)

theorem fromBytes_oversized {s : CellStore} (large : Codec.maxLength < s.cells.size)
    (word : s.cells.size < UInt64.size) :
    fromBytes s.toBytes = .error (.malformed .lengthOverflow) := by
  have length : s.cells.toList.length = s.cells.size := Array.length_toList
  have front : (Codec.vector 4).decode s.toBytes =
      (.ok magic, (Codec.list Codec.binary32).encode s.cells.toList) :=
    (Codec.vector_exact 4 _ _ _).2 ⟨trivial, s.toBytes_eq⟩
  have cells := Codec.list_oversized Codec.binary32 large word
    (s.cells.toList.flatMap Codec.binary32.encode)
  rw [← length, ← Codec.list_encode] at cells
  rw [fromBytes, loader, bind_eq, adapt_eq, front]
  dsimp only
  rw [if_neg (by simp)]
  rw [bind_eq, adapt_eq, cells]

theorem loadCells_found (settings : Log.Settings) {path : String} {place : List String}
    {b : Sandbox} {image : Bytes} (named : b.files.Names path place)
    (held : b.files.node? place = some (.file image)) :
    Command.Runner.loadCells (m := StateM Sandbox) settings path b = match fromBytes image with
      | .ok s => (.ok s, b)
      | .error e =>
        (.error 1, { b with err := b.err ++ Log.line settings b.clock .error e.message }) := by
  have found : b.files.exists? path = true := by rw [named.exists?, held, Option.isSome_some]
  have content : b.files.read path = .ok image := by rw [named.read, held]
  simp only [Command.Runner.loadCells, bind_eq, lift_eq, Host.exists?, Host.read, found, content,
    if_true, Command.need, pure_eq]
  cases fromBytes image with
  | ok s => rfl
  | error e => rfl

/-- Just the images of stores with at most two to the power of 20 cells are read, each as its store,
and anything else is an error. Such a store is read back from the file that it was saved to. A run
that is to load anything else says why and is over, with all files as they were. -/
theorem loads_exactly_stores :
    (∀ (input : Bytes) (s : CellStore),
      fromBytes input = .ok s ↔ input = s.toBytes ∧ s.cells.size ≤ 0x100000) ∧
    (∀ input : Bytes, (∀ s : CellStore, s.cells.size ≤ 0x100000 → input ≠ s.toBytes) →
      ∃ e, fromBytes input = .error e) ∧
    (∀ (t : FileTree) (path : String) (place : List String) (s : CellStore), t.Names path place →
      (∀ n, t.node? place = some n → ∃ old, n = .file old) →
      ∃ u image, t.write path s.toBytes = .ok u ∧ u.read path = .ok image ∧
        (fromBytes image = .ok s ↔ s.cells.size ≤ 0x100000)) ∧
    ∀ (settings : Log.Settings) (path : String) (place : List String) (b : Sandbox)
      (image : Bytes), b.files.Names path place → b.files.node? place = some (.file image) →
      (∀ s, fromBytes image = .ok s →
        Command.Runner.loadCells (m := StateM Sandbox) settings path b = (.ok s, b)) ∧
      ∀ e, fromBytes image = .error e →
        Command.Runner.loadCells (m := StateM Sandbox) settings path b =
          (.error 1, { b with err := b.err ++ Log.line settings b.clock .error e.message }) := by
  refine ⟨fun input s => fromBytes_ok, ?_, ?_, ?_⟩
  · intro input other
    rcases read : fromBytes input with e | s
    · exact ⟨e, rfl⟩
    · obtain ⟨image, small⟩ := fromBytes_ok.1 read
      exact absurd image (other s small)
  · intro t path place s named ordinary
    obtain ⟨u, written, read⟩ := named.read_written s.toBytes ordinary
    refine ⟨u, s.toBytes, written, read, ?_⟩
    rw [fromBytes_ok]
    exact and_iff_right rfl
  · intro settings path place b image named held
    constructor
    · intro s loaded
      rw [loadCells_found settings named held, loaded]
    · intro e refused
      rw [loadCells_found settings named held, refused]

/-- The cells keep every bit; nothing at all is no image, and a run that is to load it ends. -/
theorem loads_exactly_stores_bits :
    let s : CellStore := ⟨#[⟨0x7fc00001⟩, ⟨0x80000000⟩]⟩
    let t : FileTree := ⟨[], [(["c.bin"], .file [1, 2, 3]), (["d.bin"], .file [])]⟩
    let b : Sandbox := { files := t, clock := ⟨⟨1970, 1, 1⟩, 0, 0⟩ }
    fromBytes s.toBytes = .ok s ∧
      (∃ u image, t.write "./c.bin" s.toBytes = .ok u ∧ u.read "./c.bin" = .ok image ∧
        fromBytes image = .ok s) ∧
      (∃ e, fromBytes [] = .error e) ∧
      Command.Runner.loadCells (m := StateM Sandbox) {} "d.bin" b = (.error 1,
        { b with err := "1970-01-01 00:00:00.000 [ERROR] invalid cell image: truncated\n" }) := by
  intro s t b
  have small : s.cells.size ≤ 0x100000 := by decide
  have named : t.Names "./c.bin" ["c.bin"] := by unfold FileTree.Names; decide +kernel
  have ordinary : ∀ n, t.node? ["c.bin"] = some n → ∃ old, n = .file old := by
    rintro _ ⟨⟩
    exact ⟨[1, 2, 3], rfl⟩
  have nothing : ∀ s : CellStore, s.cells.size ≤ 0x100000 → [] ≠ s.toBytes := by
    intro s _ image
    rw [toBytes_eq, Codec.vector_encode] at image
    cases image
  have other : b.files.Names "d.bin" ["d.bin"] := by unfold FileTree.Names; decide +kernel
  obtain ⟨exactly, fails, saved, loading⟩ := loads_exactly_stores
  obtain ⟨u, image, written, read, loaded⟩ := saved t "./c.bin" ["c.bin"] s named ordinary
  have message : Log.line {} b.clock .error (Error.message .truncated) =
      "1970-01-01 00:00:00.000 [ERROR] invalid cell image: truncated\n" := by decide +kernel
  have ended := (loading {} "d.bin" ["d.bin"] b [] other rfl).2 .truncated rfl
  rw [message] at ended
  exact ⟨(exactly s.toBytes s).2 ⟨rfl, small⟩, ⟨u, image, written, read, loaded.2 small⟩,
    fails [] nothing, ended⟩

/-- One cell more than is read makes a store that is saved and not loaded. -/
theorem large_store_is_lost :
    fromBytes (zeros 0x100001).toBytes = .error (.malformed .lengthOverflow) ∧
      ¬ ∀ (input : Bytes) (s : CellStore), fromBytes input = .ok s ↔ input = s.toBytes := by
  have size : (zeros 0x100001).cells.size = 0x100001 := Array.size_replicate
  have refused : fromBytes (zeros 0x100001).toBytes = .error (.malformed .lengthOverflow) :=
    fromBytes_oversized (by rw [size]; decide) (by rw [size]; decide)
  refine ⟨refused, fun claimed => ?_⟩
  have loaded := (claimed _ (zeros 0x100001)).2 rfl
  rw [refused] at loaded
  cases loaded

end CellStore
end FloatMachine

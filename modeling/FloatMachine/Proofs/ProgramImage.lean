import FloatMachine.Proofs.CodecExact

/-! The loader accepts the images of valid programs and nothing else. -/
namespace FloatMachine.Program

/-- What makes a program one that can be loaded: destinations where the shapes ask for them,
the requirements of its own instructions, and lengths within the limits. -/
structure Loadable (p : Program) : Prop extends Limited p where
  shaped : ∀ i ∈ p.instructions, i.WellShaped
  requirements : p.requirements = Requirements.of p.instructions

theorem toBytes_eq (p : Program) :
    p.toBytes = (Codec.vector 4).encode magic ++ ((Codec.vector 3).encode version ++
      ((Codec.list Codec.u8).encode sectionName ++ body.encode p)) := by
  simp [toBytes, writes, Codec.encode]

theorem loader_ok {input rest : Bytes} {p : Program} :
    loader input = (.ok p, rest) ↔ p.Limited ∧ input = p.toBytes ∧ rest = [] := by
  simp only [loader, part, bind_ok, unless_ok, adapt_ok, get_ok, pure_ok, Codec.vector_exact _ _ _,
    Codec.u8_exact _ _ _, Codec.list_exact Codec.u8_exact _ _ _, body_exact _ _ _, ne_eq,
    Decidable.not_not, toBytes_eq]
  constructor
  · rintro ⟨_, _, ⟨-, rfl⟩, rfl, major, _, ⟨-, rfl⟩, minor, _, ⟨-, rfl⟩, patch, _, ⟨-, rfl⟩, current,
      _, _, ⟨-, rfl⟩, rfl, p, rest, ⟨fits, rfl⟩, _, _, ⟨rfl, rfl⟩, nothing, rfl, rfl⟩
    have empty : rest = [] := by simpa using nothing
    subst empty
    have image : (Codec.vector 3).encode version = [major, minor, patch] := by
      rw [← current, Codec.vector_encode]
      rfl
    refine ⟨fits, ?_, rfl⟩
    rw [image]
    simp
  · rintro ⟨fits, rfl, rfl⟩
    have image : (Codec.vector 3).encode version = [0, 1, 0] := rfl
    rw [image]
    exact ⟨magic, _, ⟨trivial, rfl⟩, rfl, 0, _, ⟨trivial, rfl⟩, 1, _, ⟨trivial, rfl⟩, 0, _,
      ⟨trivial, rfl⟩, rfl, sectionName, body.encode p, ⟨⟨by decide, by simp⟩, rfl⟩, rfl, p, [],
      ⟨fits, (List.append_nil _).symm⟩, [], [], ⟨rfl, rfl⟩, by simp, rfl, rfl⟩

theorem check_ok {p q : Program} :
    check p = .ok q ↔ (∀ i ∈ p.instructions, i.WellShaped) ∧
      p.requirements = Requirements.of p.instructions ∧ p = q := by
  unfold check
  split
  · rename_i i found
    have bad : ¬ i.WellShaped := by simpa using List.find?_some found
    constructor
    · intro h; cases h
    · rintro ⟨shaped, _⟩
      exact absurd (shaped i (List.mem_of_find?_eq_some found)) bad
  · rename_i none
    have shaped : ∀ i ∈ p.instructions, i.WellShaped := by simpa using none
    split
    · rename_i same
      constructor
      · intro h; cases h; exact ⟨shaped, same.symm, rfl⟩
      · rintro ⟨-, -, rfl⟩; rfl
    · rename_i differ
      constructor
      · intro h; cases h
      · rintro ⟨-, same, -⟩; exact absurd same.symm differ

/- The loader is run only on an input that can hold the magic word. -/
theorem fromBytes_eq_ok {input : Bytes} {p : Program} :
    fromBytes input = .ok p ↔
      4 ≤ input.length ∧ ∃ q rest, loader input = (.ok q, rest) ∧ check q = .ok p := by
  unfold fromBytes
  split
  · rename_i short
    constructor
    · intro h; cases h
    · rintro ⟨long, -⟩; omega
  · rename_i long
    rcases run : loader input with ⟨e | q, rest⟩
    · constructor
      · intro h; cases h
      · rintro ⟨-, _, _, h, -⟩; cases h
    · constructor
      · intro h; exact ⟨Nat.not_lt.1 long, q, rest, rfl, h⟩
      · rintro ⟨-, _, _, h, checked⟩; cases h; exact checked

theorem fromBytes_ok {input : Bytes} {p : Program} :
    fromBytes input = .ok p ↔ input = p.toBytes ∧ p.Loadable := by
  rw [fromBytes_eq_ok]
  simp only [loader_ok, check_ok]
  constructor
  · rintro ⟨-, q, rest, ⟨fits, image, rfl⟩, shaped, requirements, rfl⟩
    exact ⟨image, fits, shaped, requirements⟩
  · rintro ⟨rfl, valid⟩
    refine ⟨?_, p, [], ⟨valid.toLimited, rfl, rfl⟩, valid.shaped, valid.requirements, rfl⟩
    rw [toBytes_eq, Codec.vector_encode]
    simp

/-- The loader accepts just the images of loadable programs, so no two inputs load as the
same program. -/
theorem loads_exactly_images :
    (∀ input p, fromBytes input = .ok p ↔ input = p.toBytes ∧ p.Loadable) ∧
    ∀ a b p, fromBytes a = .ok p → fromBytes b = .ok p → a = b := by
  constructor
  · intro input p
    exact fromBytes_ok
  · intro a b p loaded again
    rw [(fromBytes_ok.1 loaded).1, (fromBytes_ok.1 again).1]

/-- The payload of a literal that is not a number is kept. -/
theorem loads_exactly_images_nan :
    let p := ofInstructions [⟨.move, some (.register 0), .literal ⟨0x7fc00001⟩, .unused, 1, "!"⟩]
    let image : Bytes := [0x54, 0x43, 0x50, 0x55, 0, 1, 0, 7, 0, 0, 0, 0, 0, 0, 0,
      0x50, 0x52, 0x4f, 0x47, 0x52, 0x41, 0x4d, 1, 0, 0, 0, 0, 0, 0, 0,
      1, 1, 0, 0, 0, 0, 0, 0, 1, 0, 0xc0, 0x7f, 0, 0, 0, 0, 0, 1, 0, 0, 0, 0, 0, 0, 0,
      1, 0, 0, 0, 0, 0, 0, 0, 0x21, 1, 0, 0, 0, 0, 0, 0, 0, 0, 0, 0, 0, 0, 0, 0, 0,
      0, 0, 0, 0, 0, 0, 0, 0]
    fromBytes image = .ok p ∧ p.Loadable ∧ fromBytes p.toBytes = .ok p ∧ image = p.toBytes := by
  intro p image
  have loaded : fromBytes image = .ok p := by decide +kernel
  obtain ⟨same, loadable⟩ := (loads_exactly_images.1 image p).1 loaded
  have again : fromBytes p.toBytes = .ok p := (loads_exactly_images.1 p.toBytes p).2 ⟨rfl, loadable⟩
  exact ⟨loaded, loadable, again, loads_exactly_images.2 image p.toBytes p loaded again⟩

end FloatMachine.Program

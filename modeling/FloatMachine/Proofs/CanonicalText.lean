import FloatMachine.Proofs.TextForm

/-! Base64 has one text for each byte string, and the text form of a program is the only text that
loads it, up to blanks around it. -/
namespace FloatMachine

namespace Base64

theorem symbol_of_sextet? {byte : UInt8} {n : Nat} (found : sextet? byte = some n) :
    n < 64 ∧ byte = symbol n := by
  have table : ∀ k < 256, ∀ n ∈ sextet? (UInt8.ofNat k), n < 64 ∧ UInt8.ofNat k = symbol n := by
    decide +kernel
  have entry := table byte.toNat byte.toNat_lt n
  rw [UInt8.ofNat_toNat] at entry
  exact entry found

theorem sextetAt_ok {byte : UInt8} {offset n : Nat} (read : sextetAt byte offset = .ok n) :
    n < 64 ∧ byte = symbol n := by
  unfold sextetAt at read
  split at read
  · rename_i found
    cases read
    exact symbol_of_sextet? found
  · cases read

theorem toNat_joined {w x y z : Nat} (hw : w < 64) (hx : x < 64) (hy : y < 64) (hz : z < 64) :
    (UInt8.ofNat (w * 4 + x / 16)).toNat = w * 4 + x / 16 ∧
    (UInt8.ofNat (x % 16 * 16 + y / 4)).toNat = x % 16 * 16 + y / 4 ∧
    (UInt8.ofNat (y % 4 * 64 + z)).toNat = y % 4 * 64 + z := by
  have first : w * 4 + x / 16 < 256 := by omega
  have second : x % 16 * 16 + y / 4 < 256 := by omega
  have third : y % 4 * 64 + z < 256 := by omega
  exact ⟨UInt8.toNat_ofNat_of_lt' first, UInt8.toNat_ofNat_of_lt' second,
    UInt8.toNat_ofNat_of_lt' third⟩

theorem encode_joined {w x y z : Nat} (hw : w < 64) (hx : x < 64) (hy : y < 64) (hz : z < 64)
    (rest : Bytes) : encode (joined w x y z ++ rest) =
      symbol w :: symbol x :: symbol y :: symbol z :: encode rest := by
  obtain ⟨first, second, third⟩ := toNat_joined hw hx hy hz
  have a : (w * 4 + x / 16) / 4 = w := by omega
  have b : (w * 4 + x / 16) % 4 * 16 + (x % 16 * 16 + y / 4) / 16 = x := by omega
  have c : (x % 16 * 16 + y / 4) % 16 * 4 + (y % 4 * 64 + z) / 64 = y := by omega
  have d : (y % 4 * 64 + z) % 64 = z := by omega
  simp only [joined, List.cons_append, List.nil_append, encode, first, second, third, a, b, c, d]

/- Of a group with pads only the bits that fill whole bytes are kept, so the others must be zero. -/
theorem encode_joined_two {w x : Nat} (hw : w < 64) (hx : x < 64) (spare : x % 16 = 0) :
    encode ((joined w x 0 0).take 1) = [symbol w, symbol x, pad, pad] := by
  obtain ⟨first, -, -⟩ := toNat_joined hw hx (y := 0) (z := 0) (by decide) (by decide)
  have a : (w * 4 + x / 16) / 4 = w := by omega
  have b : (w * 4 + x / 16) % 4 * 16 = x := by omega
  simp only [joined, List.take_succ_cons, List.take_zero, encode, first, a, b]

theorem encode_joined_three {w x y : Nat} (hw : w < 64) (hx : x < 64) (hy : y < 64)
    (spare : y % 4 = 0) :
    encode ((joined w x y 0).take 2) = [symbol w, symbol x, symbol y, pad] := by
  obtain ⟨first, second, -⟩ := toNat_joined hw hx hy (z := 0) (by decide)
  have a : (w * 4 + x / 16) / 4 = w := by omega
  have b : (w * 4 + x / 16) % 4 * 16 + (x % 16 * 16 + y / 4) / 16 = x := by omega
  have c : (x % 16 * 16 + y / 4) % 16 * 4 = y := by omega
  simp only [joined, List.take_succ_cons, List.take_zero, encode, first, second, a, b, c]

/-- A scanned group is its symbols and then its pads; no symbol comes after a pad. -/
theorem scanLast_ok {start pads total : Nat} {group : Bytes} {before symbols : List Nat}
    (scanned : scanLast start group before pads = .ok (symbols, total)) :
    ∃ found more, group = found.map symbol ++ List.replicate more pad ∧ (∀ n ∈ found, n < 64) ∧
      symbols = before ++ found ∧ total = pads + more ∧ (0 < pads → found = []) := by
  induction group generalizing before pads with
  | nil =>
    cases scanned
    exact ⟨[], 0, rfl, by simp, by simp, rfl, fun _ => rfl⟩
  | cons byte group ih =>
    rw [scanLast] at scanned
    split at scanned
    · rename_i padded
      split at scanned
      · cases scanned
      · obtain ⟨found, more, rfl, -, rfl, rfl, nothing⟩ := ih scanned
        obtain rfl := nothing (Nat.succ_pos pads)
        refine ⟨[], more + 1, ?_, by simp, rfl, by omega, fun _ => rfl⟩
        rw [padded]
        rfl
    · split at scanned
      · cases scanned
      · rename_i unpadded
        obtain ⟨n, read, later⟩ := reading_bind.1 scanned
        obtain ⟨small, rfl⟩ := sextetAt_ok read
        obtain ⟨found, more, rfl, others, rfl, rfl, -⟩ := ih later
        exact ⟨n :: found, more, rfl, List.forall_mem_cons.2 ⟨small, others⟩, by simp, rfl,
          fun some => (unpadded some).elim⟩

theorem decodeLast_ok {start : Nat} {group b : Bytes} (short : group.length ≤ 4)
    (read : decodeLast start group = .ok b) : group = encode b := by
  simp only [decodeLast, reading_bind, reading_unless] at read
  obtain ⟨⟨symbols, pads⟩, scanned, enough, full, read⟩ := read
  obtain ⟨found, added, rfl, small, same, rfl, -⟩ := scanLast_ok scanned
  obtain rfl : symbols = found := same
  simp only [List.length_append, List.length_map, List.length_replicate] at short
  have full : (symbols.length + added) % 4 = 0 := by simpa using full
  have enough : symbols.length + added = 0 ∨ 2 ≤ symbols.length := by
    simp at enough
    omega
  dsimp only at read
  rcases symbols with _ | ⟨w, _ | ⟨x, _ | ⟨y, _ | ⟨z, _ | ⟨v, others⟩⟩⟩⟩⟩ <;>
    simp only [List.length_cons, List.length_nil] at short full enough
  · obtain rfl : added = 0 := by omega
    cases read
    rfl
  · omega
  · obtain rfl : added = 2 := by omega
    simp only [reading_unless, reading_pure] at read
    obtain ⟨spare, rfl⟩ := read
    obtain ⟨hw, hx, -⟩ := by simpa only [List.forall_mem_cons] using small
    have spare : x % 16 = 0 := by simpa using spare
    exact (encode_joined_two hw hx spare).symm
  · obtain rfl : added = 1 := by omega
    simp only [reading_unless, reading_pure] at read
    obtain ⟨spare, rfl⟩ := read
    obtain ⟨hw, hx, hy, -⟩ := by simpa only [List.forall_mem_cons] using small
    have spare : y % 4 = 0 := by simpa using spare
    exact (encode_joined_three hw hx hy spare).symm
  · obtain rfl : added = 0 := by omega
    rw [reading_pure] at read
    obtain rfl := read
    obtain ⟨hw, hx, hy, hz, -⟩ := by simpa only [List.forall_mem_cons] using small
    exact (encode_joined hw hx hy hz []).symm
  · omega

theorem decodeGroups_ok {start : Nat} {text b : Bytes} (read : decodeGroups start text = .ok b) :
    text = encode b := by
  fun_induction decodeGroups start text generalizing b with
  | case1 start a' b' c' d' e rest ih =>
    simp only [reading_bind, reading_pure] at read
    obtain ⟨w, first, x, second, y, third, z, fourth, tail, later, rfl⟩ := read
    obtain ⟨hw, rfl⟩ := sextetAt_ok first
    obtain ⟨hx, rfl⟩ := sextetAt_ok second
    obtain ⟨hy, rfl⟩ := sextetAt_ok third
    obtain ⟨hz, rfl⟩ := sextetAt_ok fourth
    rw [encode_joined hw hx hy hz, ih later]
  | case2 start last single =>
    apply decodeLast_ok _ read
    rcases last with _ | ⟨a, _ | ⟨b, _ | ⟨c, _ | ⟨d, _ | ⟨e, rest⟩⟩⟩⟩⟩
    case cons.cons.cons.cons.cons => exact (single a b c d e rest rfl).elim
    all_goals simp

/-- Each byte string is read from one text, the one that is written for it. -/
theorem decode_ok {text b : Bytes} : decode text = .ok b ↔ text = encode b := by
  constructor
  · intro read
    unfold decode at read
    split at read
    · split at read
      · cases read
      · exact decodeGroups_ok read
    · rename_i none
      cases read
      exact List.getLast?_eq_none_iff.1 none
  · rintro rfl
    exact decode_encode b

end Base64

theorem eq_of_utf8 {s t : String} (same : s.toUTF8.data.toList = t.toUTF8.data.toList) :
    s = t := by
  rw [String.toUTF8_eq_toByteArray, String.toUTF8_eq_toByteArray] at same
  apply String.toByteArray_inj.1
  apply ByteArray.ext
  apply Array.toList_inj.1
  exact same

/-- A text loads as a program just when it is the text form of that program, up to blanks at its
ends, and the image that the form stands for loads. -/
theorem Program.fromText_canonical (text : String) (p : Program) :
    fromText text = .ok p ↔
      Text.Trims text.toList p.toText.toList ∧ fromBytes p.toBytes = .ok p := by
  rw [← Text.trim_eq_iff]
  constructor
  · intro loaded
    dsimp only [fromText] at loaded
    split at loaded
    · rename_i bytes decoded
      obtain ⟨rfl, -⟩ := fromBytes_ok.1 loaded
      have written := Base64.decode_ok.1 decoded
      rw [← p.toText_utf8] at written
      refine ⟨?_, loaded⟩
      rw [← eq_of_utf8 written, String.toList_ofList]
    · cases loaded
  · rintro ⟨trimmed, loaded⟩
    rw [fromText, trimmed, String.ofList_toList, toText_utf8, Base64.decode_encode]
    exact loaded

end FloatMachine

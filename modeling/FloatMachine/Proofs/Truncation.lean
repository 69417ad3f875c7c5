import FloatMachine.Proofs.Lookahead
import FloatMachine.Proofs.ProgramImage

/-! Images of the wrong length. Whatever the place where an image is cut, its reader says that the
input ended too early, and whatever comes after an image of a program is refused as not belonging
to it. Both follow from what a reader does not look at. -/
namespace FloatMachine

section Spanning

variable {ε α β : Type} {Short : ε → Prop} {surplus : ε}

theorem Consumes.cut {act : ExceptT ε (StateM Bytes) α} (consumes : Consumes Short act)
    {input more : Bytes} {a : α} (follows : more ≠ []) (whole : act (input ++ more) = (.ok a, [])) :
    ∃ e rest, act input = (.error e, rest) ∧ Short e := by
  rcases result : act input with ⟨out, rest⟩
  have settled : ¬ Settled Short out := by
    intro settled
    have same := consumes.further result settled more
    have left : [] = rest ++ more := congrArg Prod.snd (whole.symm.trans same)
    exact follows (List.append_eq_nil_iff.1 left.symm).2
  cases out with
  | ok a => exact (settled trivial).elim
  | error e => exact ⟨e, rest, rfl, not_not.1 settled⟩

theorem Consumes.adapt {δ : Type} {Shorter : δ → Prop} {f : δ → ε}
    {act : ExceptT δ (StateM Bytes) α} (consumes : Consumes Shorter act)
    (short : ∀ e, Shorter e → Short (f e)) :
    Consumes Short (ExceptT.adapt f act : ExceptT ε (StateM Bytes) α) where
  further := by
    intro input rest out ended settled more
    rw [adapt_eq] at ended ⊢
    rcases result : act input with ⟨e | a, m⟩
    · rw [result] at ended
      cases ended
      rw [consumes.further result (mt (short e) settled) more]
    · rw [result] at ended
      cases ended
      rw [consumes.further result trivial more]
  remains := by
    intro input
    have front := consumes.remains input
    rw [adapt_eq]
    generalize act input = result at front ⊢
    rcases result with ⟨e | a, m⟩
    · exact front
    · exact front

/-- The action wants the whole of its input: less than what it accepts is too short for it, and
with more it finds the surplus. -/
structure Spans (Short : ε → Prop) (surplus : ε) (act : ExceptT ε (StateM Bytes) α) : Prop where
  cut : ∀ {input more rest : Bytes} {a : α}, more ≠ [] → act (input ++ more) = (.ok a, rest) →
    ∃ e left, act input = (.error e, left) ∧ Short e
  longer : ∀ {input more rest : Bytes} {a : α}, more ≠ [] → act input = (.ok a, rest) →
    ∃ left, act (input ++ more) = (.error surplus, left)

theorem Spans.bind {act : ExceptT ε (StateM Bytes) α} {next : α → ExceptT ε (StateM Bytes) β}
    (first : Consumes Short act) (rest : ∀ a, Spans Short surplus (next a)) :
    Spans Short surplus (act >>= next) where
  cut := by
    intro input more left b follows accepted
    obtain ⟨a, m, read, later⟩ := bind_ok.1 accepted
    rw [bind_eq]
    rcases result : act input with ⟨e | c, k⟩
    · by_cases short : Short e
      · exact ⟨e, k, rfl, short⟩
      · -- an error that is not for want of input would have come with all of it too
        have same := first.further result short more
        rw [read] at same
        cases same
    · have same := first.further result trivial more
      rw [read] at same
      cases same
      exact (rest a).cut follows later
  longer := by
    intro input more left b follows accepted
    obtain ⟨a, m, read, later⟩ := bind_ok.1 accepted
    rw [bind_eq, first.further read trivial more]
    exact (rest a).longer follows later

theorem Spans.unless {c : Prop} [Decidable c] {e : ε}
    {skipped : PUnit → ExceptT ε (StateM Bytes) α} {next : ExceptT ε (StateM Bytes) α}
    (rest : Spans Short surplus next) :
    Spans Short surplus (if c then throw e >>= skipped else next) where
  cut := by
    intro input more left a follows accepted
    obtain ⟨otherwise, accepted⟩ := unless_ok.1 accepted
    rw [if_neg otherwise]
    exact rest.cut follows accepted
  longer := by
    intro input more left a follows accepted
    obtain ⟨otherwise, accepted⟩ := unless_ok.1 accepted
    rw [if_neg otherwise]
    exact rest.longer follows accepted

/-- What makes an action span its input is the check at its end. -/
theorem Spans.finish (a : α) : Spans Short surplus (do
    if !(← get).isEmpty then throw surplus
    return a : ExceptT ε (StateM Bytes) α) where
  cut := by
    intro input more left b follows accepted
    simp only [bind_ok, get_ok, unless_ok] at accepted
    obtain ⟨_, _, ⟨rfl, rfl⟩, empty, -⟩ := accepted
    simp [follows] at empty
  longer := by
    intro input more left b follows accepted
    have filled : (!(input ++ more).isEmpty) = true := by simp [follows]
    refine ⟨input ++ more, ?_⟩
    rw [bind_eq, get_eq]
    dsimp only
    rw [if_pos filled]
    rfl

end Spanning

namespace ImageError

def Short (e : ImageError) : Prop := e = .malformed .unexpectedEnd

end ImageError

namespace Program

open ImageError (Short)

theorem part_consumes {α : Type} {c : Codec α} (consuming : c.Consuming) :
    Consumes Short (part c) :=
  Consumes.adapt consuming fun _ short => congrArg ImageError.malformed short

theorem loader_spans : Spans Short .trailingBytes loader := by
  have byte := part_consumes Codec.u8_consuming
  refine .bind (part_consumes (Codec.vector_consuming 4)) fun _ => .unless ?_
  refine .bind byte fun _ => .bind byte fun _ => .bind byte fun _ => .unless ?_
  refine .bind (part_consumes (Codec.list_consuming Codec.u8_consuming)) fun _ => .unless ?_
  exact .bind (part_consumes body_consuming) fun p => .finish p

section Loading

variable {input more : Bytes} {p : Program} (follows : more ≠ [])

theorem fromBytes_error {e : ImageError} {rest : Bytes} (long : ¬ input.length < 4)
    (failed : loader input = (.error e, rest)) : fromBytes input = .error e := by
  rw [fromBytes, if_neg long, failed]
  rfl

include follows

theorem fromBytes_cut (loaded : fromBytes (input ++ more) = .ok p) :
    fromBytes input =
      .error (if input.length < 4 then .truncated else .malformed .unexpectedEnd) := by
  obtain ⟨-, q, rest, accepted, -⟩ := fromBytes_eq_ok.1 loaded
  obtain ⟨e, left, failed, short⟩ := loader_spans.cut follows accepted
  split
  · rename_i few
    rw [fromBytes, if_pos few]
  · rename_i long
    rw [fromBytes_error long failed, short]

theorem fromBytes_longer (loaded : fromBytes input = .ok p) :
    fromBytes (input ++ more) = .error .trailingBytes := by
  obtain ⟨long, q, rest, accepted, -⟩ := fromBytes_eq_ok.1 loaded
  obtain ⟨left, failed⟩ := loader_spans.longer follows accepted
  apply fromBytes_error _ failed
  rw [List.length_append]
  omega

end Loading

end Program

theorem Schema.decode_cut {s : Schema} {v : s.Value} (fits : s.Limited v) {input more : Bytes}
    (follows : more ≠ []) (image : input ++ more = s.codec.encode v) :
    ∃ rest, s.codec.decode input = (.error .unexpectedEnd, rest) := by
  have whole : s.codec.decode (input ++ more) = (.ok v, []) := by
    apply (codec_exact s _ v []).2
    exact ⟨fits, by rw [image, List.append_nil]⟩
  obtain ⟨e, rest, failed, rfl⟩ := (codec_consuming s).cut follows whole
  exact ⟨rest, failed⟩

theorem exists_missing {input image : Bytes} (front : input <+: image) (part : input ≠ image) :
    ∃ more, more ≠ [] ∧ input ++ more = image := by
  obtain ⟨more, whole⟩ := front
  refine ⟨more, ?_, whole⟩
  rintro rfl
  exact part (by rw [← whole, List.append_nil])

/-- An image of the wrong length is noticed and named. A value that is cut anywhere ends too early;
so does a program, which is called truncated if not even its magic word can be there; and bytes that
come after a program are trailing. -/
theorem wrong_length_refused :
    (∀ (s : Schema) (v : s.Value), s.Limited v → ∀ input, input <+: s.codec.encode v →
      input ≠ s.codec.encode v → ∃ rest, s.codec.decode input = (.error .unexpectedEnd, rest)) ∧
    ∀ p : Program, Program.fromBytes p.toBytes = .ok p →
      (∀ input, input <+: p.toBytes → input ≠ p.toBytes →
        ∃ e, Program.fromBytes input = .error e ∧
          e.reason = if input.length < 4 then "truncated" else "unexpected end of input") ∧
      ∀ extra, extra ≠ [] →
        ∃ e, Program.fromBytes (p.toBytes ++ extra) = .error e ∧ e.reason = "trailing bytes" := by
  constructor
  · intro s v fits input front part
    obtain ⟨more, follows, image⟩ := exists_missing front part
    exact Schema.decode_cut fits follows image
  · intro p loaded
    refine ⟨?_, fun extra follows => ⟨_, Program.fromBytes_longer follows loaded, rfl⟩⟩
    intro input front part
    obtain ⟨more, follows, image⟩ := exists_missing front part
    refine ⟨_, Program.fromBytes_cut follows (image.symm ▸ loaded), ?_⟩
    split <;> rfl

/-- The first cut is inside a character of the second text, the second one inside a line number. -/
theorem wrong_length_refused_inside :
    let s := Schema.list .text
    let texts : List String := ["", "\u00e9"]
    let input : Bytes := [2, 0, 0, 0, 0, 0, 0, 0, 0, 0, 0, 0, 0, 0, 0, 0, 2, 0, 0, 0, 0, 0, 0, 0, 0xc3]
    let p := Program.ofInstructions [⟨.ret, none, .unused, .unused, 1, "ret"⟩]
    (s.Limited texts ∧ input <+: s.codec.encode texts ∧
      ∃ rest, s.codec.decode input = (.error .unexpectedEnd, rest)) ∧
    Program.fromBytes p.toBytes = .ok p ∧
    (∃ e, Program.fromBytes (p.toBytes.take 45) = .error e ∧ e.reason = "unexpected end of input") ∧
    ∃ e, Program.fromBytes (p.toBytes ++ [0]) = .error e ∧ e.reason = "trailing bytes" := by
  intro s texts input p
  have short : ∀ text ∈ texts, text.utf8ByteSize ≤ 0x100000 := by decide
  have fits : s.Limited texts := ⟨by decide, short⟩
  have front : input <+: s.codec.encode texts := by decide
  have loaded : Program.fromBytes p.toBytes = .ok p := by decide +kernel
  obtain ⟨values, programs⟩ := wrong_length_refused
  obtain ⟨cut, longer⟩ := programs p loaded
  refine ⟨⟨fits, front, values s texts fits input front (by decide)⟩, loaded, ?_,
    longer [0] (by decide)⟩
  exact cut (p.toBytes.take 45) (List.take_prefix 45 _) (by decide)

end FloatMachine

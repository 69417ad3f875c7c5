import FloatMachine.Derive.CodecCode
import FloatMachine.Proofs.CodecExact
import FloatMachine.Proofs.DecimalText

/-! What the code that is derived for a codec does, and which items it is derived for. The encoder
writes the tag of the variant and then the fields in the order of their declaration, and the decoder
reads them back; a field whose name hides the sink leaves the encoder without a meaning. Tags count
on from the tag before, and the first variant without a tag in a byte is the error. -/
namespace FloatMachine.Derive

/-- How a field is reached: by its name, or by its place in a tuple. -/
inductive Member
  | named (name : String)
  | placed (index : Nat)
deriving DecidableEq, Repr

/-- The identifier that is spelled: the mark of a raw one does not count. -/
def identifier (spelling : String) : String :=
  match spelling.toList with
  | 'r' :: '#' :: rest => String.ofList rest
  | _ => spelling

def Fields.members : Fields → List Member
  | .unit => []
  | .named names => names.map fun n => .named (identifier n)
  | .tuple count => (List.range count).map .placed

def bound (f : Fields) : List String := (fieldNames f).map identifier

/-- A value of a structure, or of the variant of an enumeration that is named, by its fields. -/
structure Value (α : Type) where
  variant : Option String
  field : Member → Option α

abbrev FieldCodecs (α : Type) := Option String → Member → Codec α

/-- What a name in the body of an encoder stands for. -/
inductive Meaning
  | sink
  | member (m : Member)
deriving DecidableEq, Repr

/-- The names in the body of an encoder, innermost first: those that the pattern binds, then the
parameter that takes the bytes. -/
def scope (pattern : Fields) : List (String × Meaning) :=
  (bound pattern).zip (pattern.members.map .member) ++ [("out", .sink)]

namespace CodecCode

section Meaning

variable {α : Type}

/-- Every call has a field to write and the sink to write it to. -/
def Encoding.sound (e : Encoding) : Bool :=
  (scope e.pattern).lookup "out" == some .sink &&
    e.writes.all fun name =>
      match (scope e.pattern).lookup (identifier name) with
      | some (.member _) => true
      | _ => false

def fieldImage (codecs : Member → Codec α) (field : Member → Option α) (m : Member) :
    Option Bytes :=
  (field m).map (codecs m).encode

def Encoding.call (e : Encoding) (codecs : Member → Codec α) (field : Member → Option α)
    (name : String) : Option Bytes :=
  match (scope e.pattern).lookup (identifier name) with
  | some (.member m) => fieldImage codecs field m
  | _ => none

def Encoding.run (e : Encoding) (codecs : Member → Codec α) (field : Member → Option α) :
    Option Bytes :=
  (e.writes.mapM (e.call codecs field)).map List.flatten

def Code.sound : Code → Bool
  | .record e _ => e.sound
  | .choice arms _ => arms.all (·.encoding.sound)

/-- Nothing hides the sink: the fields and the sink are what their names in the encoder stand for,
and the type of the sink is no parameter of the item. No other clash of names is looked for, such as
a structure `Ok` without named fields, or a constant parameter with the name of a variable. -/
def resolves (i : Item) (c : Code) : Bool :=
  c.sound && i.parameters.all fun p => identifier p.name != "S"

/-- What the encoder writes for a value: the first arm for its variant is taken. -/
def Code.encode (c : Code) (codecs : FieldCodecs α) (v : Value α) : Option Bytes :=
  match c, v.variant with
  | .record e _, none => e.run (codecs none) v.field
  | .choice arms _, some name => do
    let arm ← arms.find? (identifier ·.variant == name)
    return Codec.u8.encode (.ofNat arm.tag) ++ (← arm.encoding.run (codecs (some name)) v.field)
  | _, _ => none

/-- What the encoder for an item writes, unless its sink is hidden. -/
def encode (i : Item) (c : Code) (codecs : FieldCodecs α) (v : Value α) : Option Bytes :=
  if resolves i c then c.encode codecs v else none

def readMembers (codecs : Member → Codec α) : List Member → Decoder (Member → Option α)
  | [] => pure fun _ => none
  | m :: ms => do
    let a ← (codecs m).decode
    let others ← readMembers codecs ms
    return fun n => if n = m then some a else others n

/-- What the decoder reads: the first arm for the tag is taken. -/
def Code.decode (c : Code) (codecs : FieldCodecs α) : Decoder (Value α) :=
  match c with
  | .record _ f => do return ⟨none, ← readMembers (codecs none) f.members⟩
  | .choice _ arms => do
    let tag ← Codec.u8.decode
    match arms.find? (·.tag == tag.toNat) with
    | some arm =>
      let name := some (identifier arm.variant)
      return ⟨name, ← readMembers (codecs name) arm.fields.members⟩
    | none => throw .invalidValue

end Meaning

/-- The tag that a variant without one of its own has after the tag of the variant before. -/
def following : Option Nat → Nat
  | none => 0
  | some previous => previous + 1

/-- The tag of a variant: the integer that is written for it, or one more than the tag before. -/
inductive TagOf (previous : Option Nat) : Option Discriminant → Nat → Prop
  | explicit {n : Nat} : n ≤ 255 → TagOf previous (some (.integer n)) n
  | implicit : previous ≠ some 255 → TagOf previous none (following previous)

/-- Why a variant has no tag. -/
inductive Untagged (previous : Option Nat) : Option Discriminant → Error → Prop
  | other : Untagged previous (some .other) .discriminantNotInteger
  | large {n : Nat} : 255 < n → Untagged previous (some (.integer n)) .discriminantTooLarge
  | full : previous = some 255 → Untagged previous none .tooManyVariants

/-- The tags of variants that come after one with the tag that is given, if one comes before. -/
inductive Tagged : Option Nat → List Variant → List Nat → Prop
  | done {previous : Option Nat} : Tagged previous [] []
  | variant {previous : Option Nat} {v : Variant} {vs : List Variant} {t : Nat} {ts : List Nat} :
      TagOf previous v.discriminant t → Tagged (some t) vs ts → Tagged previous (v :: vs) (t :: ts)

/-- The first variant without a tag, in order, and why it has none. -/
def Refused (previous : Option Nat) (vs : List Variant) (e : Error) : Prop :=
  ∃ before v after ts, vs = before ++ v :: after ∧ Tagged previous before ts ∧
    Untagged (ts.getLast?.or previous) v.discriminant e

section Tags

variable {previous : Option Nat}

theorem TagOf.le {d : Option Discriminant} {t : Nat} (byte : ∀ p ∈ previous, p ≤ 255)
    (named : TagOf previous d t) : t ≤ 255 := by
  cases named with
  | explicit small => exact small
  | implicit free =>
    cases previous with
    | none => exact Nat.zero_le _
    | some p =>
      have small := byte p rfl
      have other : p ≠ 255 := fun same => free (congrArg some same)
      exact Nat.lt_of_le_of_ne small other

theorem following_lt (byte : ∀ p ∈ previous, p ≤ 255) :
    following previous < 256 ↔ previous ≠ some 255 := by
  cases previous with
  | none => simp [following]
  | some p =>
    have small := byte p rfl
    simp only [following, ne_eq, Option.some.injEq]
    omega

theorem tag_ok (byte : ∀ p ∈ previous, p ≤ 255) {d : Option Discriminant} {t : Nat} :
    tag (following previous) d = .ok t ↔ TagOf previous d t := by
  constructor
  · intro read
    unfold tag at read
    split at read
    · split at read <;> cases read
      exact .explicit (by omega)
    · cases read
    · split at read <;> cases read
      rename_i room
      exact .implicit ((following_lt byte).1 room)
  · intro named
    cases named with
    | explicit small => exact if_pos (Nat.lt_succ_of_le small)
    | implicit free => exact if_pos ((following_lt byte).2 free)

theorem tag_error (byte : ∀ p ∈ previous, p ≤ 255) {d : Option Discriminant} {e : Error} :
    tag (following previous) d = .error e ↔ Untagged previous d e := by
  constructor
  · intro read
    unfold tag at read
    split at read
    · split at read <;> cases read
      exact .large (by omega)
    · cases read
      exact .other
    · split at read <;> cases read
      rename_i full
      exact .full (Decidable.not_not.1 fun free => full ((following_lt byte).2 free))
  · intro none
    cases none with
    | other => rfl
    | large big => exact if_neg (by omega)
    | full last => exact if_neg fun room => (following_lt byte).1 room last

theorem byte_some {t : Nat} (small : t ≤ 255) : ∀ p ∈ some t, p ≤ 255 := by
  rintro _ ⟨⟩
  exact small

theorem tags_ok (byte : ∀ p ∈ previous, p ≤ 255) {vs : List Variant} {ts : List Nat} :
    tags (following previous) vs = .ok ts ↔ Tagged previous vs ts := by
  induction vs generalizing previous ts with
  | nil =>
    constructor
    · rintro ⟨⟩
      exact .done
    · rintro ⟨⟩
      rfl
  | cons v vs ih =>
    simp only [tags, reading_bind, tag_ok byte, reading_pure]
    constructor
    · rintro ⟨t, named, others, read, rfl⟩
      exact .variant named ((ih (byte_some (named.le byte))).1 read)
    · intro tagged
      cases tagged with
      | variant named others =>
        exact ⟨_, named, _, (ih (byte_some (named.le byte))).2 others, rfl⟩

theorem tags_error (byte : ∀ p ∈ previous, p ≤ 255) {vs : List Variant} {e : Error} :
    tags (following previous) vs = .error e ↔ Refused previous vs e := by
  induction vs generalizing previous with
  | nil =>
    constructor
    · rintro ⟨⟩
    · rintro ⟨before, v, after, ts, split, -⟩
      simp at split
  | cons v vs ih =>
    simp only [tags, reading_bind_error, tag_ok byte, tag_error byte, reading_pure_error,
      and_false, exists_false, or_false]
    constructor
    · rintro (first | ⟨t, named, read⟩)
      · exact ⟨[], v, vs, [], rfl, .done, first⟩
      · obtain ⟨before, w, after, ts, rfl, tagged, last⟩ := (ih (byte_some (named.le byte))).1 read
        refine ⟨v :: before, w, after, t :: ts, rfl, .variant named tagged, ?_⟩
        cases ts <;> simpa [List.getLast?_cons] using last
    · rintro ⟨before, w, after, ts, split, tagged, last⟩
      cases tagged with
      | done =>
        cases split
        exact Or.inl last
      | @variant _ u us t ts named tagged =>
        cases split
        refine Or.inr ⟨t, named, (ih (byte_some (named.le byte))).2 ?_⟩
        refine ⟨us, w, after, ts, rfl, tagged, ?_⟩
        cases ts <;> simpa [List.getLast?_cons] using last

end Tags

section Scope

theorem place_text (i : Nat) : (s!"f{i}").toList = 'f' :: (toString i).toList := by
  show ("f" ++ toString i).toList = _
  rw [String.toList_append]
  rfl

theorem identifier_place (i : Nat) : identifier s!"f{i}" = s!"f{i}" := by
  rw [identifier, place_text]
  rfl

theorem place_injective : Function.Injective fun i : Nat => s!"f{i}" := by
  intro i j same
  have digits : Nat.toDigits 10 i = Nat.toDigits 10 j := by
    have texts := congrArg String.toList same
    simpa using texts
  rw [← Assembly.Digits.value_toDigits i, digits, Assembly.Digits.value_toDigits]

theorem bound_tuple (count : Nat) :
    bound (.tuple count) = (List.range count).map fun i => s!"f{i}" := by
  rw [bound, fieldNames, List.map_map]
  exact List.map_congr_left fun i _ => identifier_place i

theorem lookup_bound {ι : Type} {name : ι → String} (apart : Function.Injective name)
    (meaning : ι → Meaning) {xs : List ι} {x : ι} (member : x ∈ xs)
    (rest : List (String × Meaning)) :
    ((xs.map name).zip (xs.map meaning) ++ rest).lookup (name x) = some (meaning x) := by
  induction xs with
  | nil => cases member
  | cons y xs ih =>
    rw [List.map_cons, List.map_cons, List.zip_cons_cons, List.cons_append, List.lookup_cons]
    by_cases same : x = y
    · rw [same, beq_self_eq_true]
    · have other : (name x == name y) = false := beq_false_of_ne fun equal => same (apart equal)
      rw [other]
      exact ih ((List.mem_cons.1 member).resolve_left same)

theorem scope_bound (f : Fields) : List.Forall₂
    (fun name m => (scope f).lookup name = some (.member m)) (bound f) f.members := by
  unfold scope
  cases f with
  | unit => exact .nil
  | named names =>
    have members : Fields.members (.named names) = (bound (.named names)).map .named :=
      (List.map_map ..).symm
    have same : ∀ ids : List String, ids.map id = ids := List.map_id
    rw [members, List.forall₂_map_right_iff, List.forall₂_same, List.map_map]
    intro name member
    have found := lookup_bound Function.injective_id (Meaning.member ∘ Member.named) member
    rw [same] at found
    exact found _
  | tuple count =>
    rw [bound_tuple, Fields.members, List.forall₂_map_left_iff, List.forall₂_map_right_iff,
      List.forall₂_same, List.map_map]
    intro i member
    exact lookup_bound place_injective (Meaning.member ∘ Member.placed) member _

theorem scope_sink {f : Fields} : (scope f).lookup "out" = some .sink ↔ "out" ∉ bound f := by
  constructor
  · intro sink member
    obtain ⟨m, found⟩ := exists_forall₂.1 ⟨_, scope_bound f⟩ "out" member
    rw [sink] at found
    cases found
  · intro plain
    have unbound : ((bound f).zip (f.members.map Meaning.member)).lookup "out" = none := by
      rw [List.lookup_eq_none_iff]
      intro pair member
      simp only [bne_iff_ne]
      rintro same
      exact plain (same ▸ (List.of_mem_zip member).1)
    rw [scope, List.lookup_append, unbound]
    rfl

end Scope

section Fields

variable {α : Type} {codecs : Member → Codec α} {field : Member → Option α}

/-- What is written for a value reads back as this value, with any rest. -/
def ReadsBack (c : Codec α) (Fits : α → Prop) : Prop :=
  ∀ a, Fits a → ∀ rest, c.decode (c.encode a ++ rest) = (.ok a, rest)

theorem ReadsBack.of_exact {c : Codec α} {Fits : α → Prop} (exact : c.Exact Fits) :
    ReadsBack c Fits :=
  fun _ fits _ => (exact _ _ _).2 ⟨fits, rfl⟩

/-- The fields are just those that are declared, each with a value that its codec is for. -/
structure Holds (f : Fields) (Fits : Member → α → Prop) (field : Member → Option α) : Prop where
  declared : ∀ m, (field m).isSome = true ↔ m ∈ f.members
  fits : ∀ m a, field m = some a → Fits m a

def imageOf (codecs : Member → Codec α) (field : Member → Option α) (ms : List Member) : Bytes :=
  ms.flatMap fun m => (fieldImage codecs field m).getD []

theorem imageOf_cons {m : Member} {a : α} (value : field m = some a) (ms : List Member) :
    imageOf codecs field (m :: ms) = (codecs m).encode a ++ imageOf codecs field ms := by
  rw [imageOf, List.flatMap_cons, fieldImage, value]
  rfl

theorem destructure_sound {f : Fields} :
    (destructure f).sound = true ↔ "out" ∉ bound f := by
  have resolved : (fieldNames f).all (fun name =>
      match (scope f).lookup (identifier name) with
      | some (.member _) => true
      | _ => false) = true := by
    rw [List.all_eq_true]
    intro name member
    have member : identifier name ∈ bound f := List.mem_map_of_mem member
    obtain ⟨m, found⟩ := exists_forall₂.1 ⟨_, scope_bound f⟩ _ member
    rw [found]
  rw [← scope_sink, Encoding.sound, Bool.and_eq_true, beq_iff_eq]
  exact and_iff_left resolved

theorem destructure_run {f : Fields} (present : ∀ m ∈ f.members, (field m).isSome = true) :
    (destructure f).run codecs field = some (imageOf codecs field f.members) := by
  have calls : ∀ {names : List String} {ms : List Member},
      List.Forall₂ (fun name m => (scope f).lookup (identifier name) = some (.member m)) names ms →
      (∀ m ∈ ms, (field m).isSome = true) →
      names.mapM ((destructure f).call codecs field) =
        some (ms.map fun m => (fieldImage codecs field m).getD []) := by
    intro names ms found present
    induction found with
    | nil => rfl
    | @cons name m names ms one _ ih =>
      obtain ⟨here, others⟩ := List.forall_mem_cons.1 present
      obtain ⟨a, value⟩ := Option.isSome_iff_exists.1 here
      have called : (destructure f).call codecs field name = some ((codecs m).encode a) := by
        rw [Encoding.call, destructure, one]
        dsimp only
        rw [fieldImage, value]
        rfl
      rw [List.mapM_cons, called, ih others, List.map_cons, fieldImage, value]
      rfl
  rw [Encoding.run, imageOf, List.flatMap_def]
  have found := scope_bound f
  rw [bound, List.forall₂_map_left_iff] at found
  exact congrArg (Option.map List.flatten) (calls found present)

theorem readMembers_image {Fits : Member → α → Prop} (reads : ∀ m, ReadsBack (codecs m) (Fits m))
    (fits : ∀ m a, field m = some a → Fits m a) {ms : List Member}
    (present : ∀ m ∈ ms, (field m).isSome = true) (rest : Bytes) :
    readMembers codecs ms (imageOf codecs field ms ++ rest) =
      (.ok fun n => if n ∈ ms then field n else none, rest) := by
  induction ms with
  | nil =>
    simp only [List.not_mem_nil, if_false]
    rfl
  | cons m ms ih =>
    obtain ⟨here, others⟩ := List.forall_mem_cons.1 present
    obtain ⟨a, value⟩ := Option.isSome_iff_exists.1 here
    rw [imageOf_cons value, List.append_assoc, readMembers, bind_eq, reads m a (fits m a value)]
    dsimp only
    rw [bind_eq, ih others]
    refine congrArg (fun g => (Except.ok g, rest)) (funext fun n => ?_)
    by_cases same : n = m
    · rw [if_pos same, if_pos (List.mem_cons.2 (Or.inl same)), same, value]
    · rw [if_neg same]
      simp only [List.mem_cons, same, false_or]

theorem Holds.reads {f : Fields} {Fits : Member → α → Prop} (holds : Holds f Fits field)
    (reads : ∀ m, ReadsBack (codecs m) (Fits m)) (rest : Bytes) :
    readMembers codecs f.members (imageOf codecs field f.members ++ rest) = (.ok field, rest) := by
  rw [readMembers_image reads holds.fits fun m => (holds.declared m).2]
  refine congrArg (fun g => (Except.ok g, rest)) (funext fun n => ?_)
  split
  · rfl
  · rename_i other
    exact (Option.not_isSome_iff_eq_none.1 fun some => other ((holds.declared n).1 some)).symm

/-- With codecs that read nothing else, fields of different names are read only from their images. -/
theorem readMembers_exact {Fits : Member → α → Prop} (exact : ∀ m, (codecs m).Exact (Fits m))
    {ms : List Member} (apart : ms.Nodup) {input rest : Bytes}
    (read : readMembers codecs ms input = (.ok field, rest)) :
    (∀ m, (field m).isSome = true ↔ m ∈ ms) ∧ (∀ m a, field m = some a → Fits m a) ∧
      input = imageOf codecs field ms ++ rest := by
  induction ms generalizing input field with
  | nil =>
    obtain ⟨rfl, rfl⟩ := pure_ok.1 read
    exact ⟨by simp, by simp, rfl⟩
  | cons m ms ih =>
    obtain ⟨other, apart⟩ := List.nodup_cons.1 apart
    simp only [readMembers, (exact m).first, bind_ok, pure_ok] at read
    obtain ⟨a, _, fits, rfl, others, _, later, rfl, rfl⟩ := read
    obtain ⟨declared, fit, rfl⟩ := ih apart later
    -- the first field is none of the others, so their images do not depend on it
    have same : imageOf codecs (fun n => if n = m then some a else others n) ms =
        imageOf codecs others ms := by
      refine List.flatMap_congr fun n member => ?_
      have different : n ≠ m := fun equal => other (equal ▸ member)
      rw [fieldImage, fieldImage, if_neg different]
    refine ⟨?_, ?_, ?_⟩
    · intro n
      by_cases equal : n = m
      · simp [equal]
      · simp [equal, declared]
    · intro n b value
      dsimp only at value
      by_cases equal : n = m
      · rw [if_pos equal] at value
        cases value
        exact equal ▸ fits
      · rw [if_neg equal] at value
        exact fit n b value
    · rw [imageOf_cons (if_pos rfl), same, List.append_assoc]

end Fields

/-- The constructors of a type: the bytes in front of the fields, and the fields. A variant is the
first of its name. -/
inductive Constructs : Body → Option String → Bytes → Fields → Prop
  | record {f : Fields} : Constructs (.record f) none [] f
  | variant {before after : List Variant} {v : Variant} {ts us : List Nat} {t : Nat} :
      Tagged none (before ++ v :: after) (ts ++ t :: us) → ts.length = before.length →
      (∀ u ∈ before, identifier u.name ≠ identifier v.name) →
      Constructs (.choice (before ++ v :: after)) (some (identifier v.name)) [.ofNat t] v.fields

def shapes : Body → List Fields
  | .record f => [f]
  | .choice vs => vs.map (·.fields)
  | .union => []

/-- No field hides the sink, and no parameter of the type hides the one of the encoder. This is all
that is asked: code for an item whose name or constant parameters clash with other names in it is
still given a meaning, though nobody can compile it. -/
structure Hygienic (i : Item) : Prop where
  fields : ∀ f ∈ shapes i.body, "out" ∉ bound f
  parameters : ∀ p ∈ i.parameters, identifier p.name ≠ "S"

def Distinct (b : Body) : Prop :=
  ∀ vs ts, b = .choice vs → Tagged none vs ts → ts.Nodup

/-- No two variants have one name, and no two fields of a constructor. -/
structure Apart (b : Body) : Prop where
  variants : ∀ vs, b = .choice vs → (vs.map fun v => identifier v.name).Nodup
  fields : ∀ f ∈ shapes b, f.members.Nodup

section Code

variable {α : Type} {b : Body} {c : Code}

theorem ofBody_choice {vs : List Variant} : ofBody (.choice vs) = .ok c ↔
    ∃ ts, Tagged none vs ts ∧ c = .choice (vs.zipWith encodeArm ts) (vs.zipWith decodeArm ts) := by
  have first : ∀ ts, tags 0 vs = .ok ts ↔ Tagged none vs ts := fun _ => @tags_ok none nofun _ _
  simp only [ofBody, reading_bind, reading_pure, first]
  exact exists_congr fun _ => and_congr_right fun _ => eq_comm

theorem ofBody_error {e : Error} : ofBody b = .error e ↔
    (∃ vs, b = .choice vs ∧ Refused none vs e) ∨ (b = .union ∧ e = .unionCodec) := by
  cases b with
  | record f => simp [ofBody]
  | choice vs =>
    have first : tags 0 vs = .error e ↔ Refused none vs e := @tags_error none nofun _ _
    simp only [ofBody, reading_bind_error, reading_pure_error, and_false, exists_false, or_false, first]
    simp
  | union => simp [ofBody, eq_comm]

theorem Tagged.length {previous : Option Nat} {vs : List Variant} {ts : List Nat}
    (tagged : Tagged previous vs ts) : ts.length = vs.length := by
  induction tagged with
  | done => rfl
  | variant _ _ ih => rw [List.length_cons, List.length_cons, ih]

theorem Tagged.le {previous : Option Nat} {vs : List Variant} {ts : List Nat}
    (byte : ∀ p ∈ previous, p ≤ 255) (tagged : Tagged previous vs ts) : ∀ t ∈ ts, t ≤ 255 := by
  induction tagged with
  | done => simp
  | variant named _ ih =>
    have small := named.le byte
    exact List.forall_mem_cons.2 ⟨small, ih (byte_some small)⟩

theorem Tagged.unique {previous : Option Nat} {vs : List Variant} {ts us : List Nat}
    (byte : ∀ p ∈ previous, p ≤ 255) (first : Tagged previous vs ts)
    (second : Tagged previous vs us) : ts = us := by
  have read := (tags_ok byte).2 first
  rw [(tags_ok byte).2 second] at read
  cases read
  rfl

theorem arms_sound {vs : List Variant} {ts : List Nat} (length : ts.length = vs.length) :
    (vs.zipWith encodeArm ts).all (·.encoding.sound) = true ↔ ∀ v ∈ vs, "out" ∉ bound v.fields := by
  induction vs generalizing ts with
  | nil => simp
  | cons v vs ih =>
    cases ts with
    | nil => cases length
    | cons t ts =>
      rw [List.zipWith_cons_cons, List.all_cons, Bool.and_eq_true, List.forall_mem_cons,
        ih (Nat.succ.inj length)]
      exact and_congr_left' destructure_sound

theorem resolves_iff {i : Item} (accepted : ofBody i.body = .ok c) :
    resolves i c = true ↔ Hygienic i := by
  have sound : c.sound = true ↔ ∀ f ∈ shapes i.body, "out" ∉ bound f := by
    generalize i.body = b at accepted ⊢
    cases b with
    | record f =>
      cases accepted
      rw [Code.sound, destructure_sound, shapes, List.forall_mem_singleton]
    | choice vs =>
      obtain ⟨ts, tagged, rfl⟩ := ofBody_choice.1 accepted
      rw [Code.sound, arms_sound tagged.length, shapes, List.forall_mem_map]
    | union => cases accepted
  rw [resolves, Bool.and_eq_true, sound, List.all_eq_true]
  simp only [bne_iff_ne]
  exact ⟨fun ⟨fields, parameters⟩ => ⟨fields, parameters⟩, fun h => ⟨h.fields, h.parameters⟩⟩

theorem find_arm {β : Type} {arm : Variant → Nat → β} {p : β → Bool} {vs : List Variant}
    {ts : List Nat} {x : β} :
    (vs.zipWith arm ts).find? p = some x → ts.length = vs.length →
      ∃ before v after ts₁ t ts₂, vs = before ++ v :: after ∧ ts = ts₁ ++ t :: ts₂ ∧
        ts₁.length = before.length ∧ arm v t = x ∧ p x = true := by
  intro found length
  obtain ⟨picked, front, back, split, -⟩ := List.find?_eq_some_iff_append.1 found
  obtain ⟨before, vs', ts₁, ts', same, rfl, rfl, -, others⟩ := List.zipWith_eq_append_iff.1 split
  obtain ⟨v, after, t, ts₂, rfl, rfl, rfl, -⟩ := List.zipWith_eq_cons_iff.1 others.symm
  exact ⟨before, v, after, ts₁, t, ts₂, rfl, rfl, same.symm, rfl, picked⟩

theorem found_arm {β : Type} (arm : Variant → Nat → β) (p : β → Bool) {before : List Variant}
    (v : Variant) (after : List Variant) {ts : List Nat} (t : Nat) (us : List Nat)
    (length : ts.length = before.length) (picked : p (arm v t) = true)
    (earlier : ∀ u ∈ before, ∀ s ∈ ts, p (arm u s) = false) :
    ((before ++ v :: after).zipWith arm (ts ++ t :: us)).find? p = some (arm v t) := by
  induction before generalizing ts with
  | nil =>
    cases List.eq_nil_of_length_eq_zero length
    exact List.find?_cons_of_pos picked
  | cons u before ih =>
    cases ts with
    | nil => cases length
    | cons s ts =>
      obtain ⟨here, others⟩ := List.forall_mem_cons.1 earlier
      have passed : ¬ p (arm u s) = true := by simp [(List.forall_mem_cons.1 here).1]
      rw [List.cons_append, List.cons_append, List.zipWith_cons_cons, List.find?_cons_of_neg passed]
      exact ih (Nat.succ.inj length) fun u member s later =>
        others u member s (List.mem_cons_of_mem _ later)

variable {codecs : FieldCodecs α} {Fits : Option String → Member → α → Prop}

theorem u8_decode (t : UInt8) (rest : Bytes) : Codec.u8.decode (t :: rest) = (.ok t, rest) := by
  rw [← ReadsBack.of_exact Codec.u8_exact t trivial rest, Codec.u8_encode]
  rfl

theorem encode_image (accepted : ofBody b = .ok c) {name : Option String}
    {field : Member → Option α} {front : Bytes} {f : Fields} (constructs : Constructs b name front f)
    (holds : Holds f (Fits name) field) :
    c.encode codecs ⟨name, field⟩ = some (front ++ imageOf (codecs name) field f.members) := by
  have present : ∀ m ∈ f.members, (field m).isSome = true := fun m => (holds.declared m).2
  cases constructs with
  | record =>
    cases accepted
    exact destructure_run present
  | @variant before after v ts us t tagged length fresh =>
    obtain ⟨all, others, rfl⟩ := ofBody_choice.1 accepted
    cases Tagged.unique (by simp) others tagged
    have arm := found_arm encodeArm (identifier ·.variant == identifier v.name) v after t us length
      (beq_self_eq_true _) fun u member s _ => beq_false_of_ne (fresh u member)
    simp only [Code.encode, arm, Option.bind_eq_bind, Option.bind_some, encodeArm,
      destructure_run present, Codec.u8_encode]
    rfl

theorem decode_image (accepted : ofBody b = .ok c) (distinct : Distinct b)
    (reads : ∀ v m, ReadsBack (codecs v m) (Fits v m)) {name : Option String}
    {field : Member → Option α} {front : Bytes} {f : Fields} (constructs : Constructs b name front f)
    (holds : Holds f (Fits name) field) (rest : Bytes) :
    c.decode codecs (front ++ imageOf (codecs name) field f.members ++ rest) =
      (.ok ⟨name, field⟩, rest) := by
  cases constructs with
  | record =>
    cases accepted
    rw [Code.decode, bind_eq, List.nil_append, holds.reads (reads none)]
    rfl
  | @variant before after v ts us t tagged length fresh =>
    obtain ⟨all, others, rfl⟩ := ofBody_choice.1 accepted
    cases Tagged.unique (by simp) others tagged
    have small : t ≤ 255 := Tagged.le (by simp) tagged t (by simp)
    have value : (UInt8.ofNat t).toNat = t := UInt8.toNat_ofNat_of_lt' (Nat.lt_succ_of_le small)
    have apart : ∀ s ∈ ts, s ≠ t := by
      have nodup := distinct _ _ rfl tagged
      rintro s member rfl
      exact (List.nodup_append.1 nodup).2.2 s member s List.mem_cons_self rfl
    have arm := found_arm decodeArm (·.tag == t) v after t us length (beq_self_eq_true _)
      fun u _ s member => beq_false_of_ne (apart s member)
    rw [Code.decode, bind_eq, List.append_assoc, List.singleton_append, u8_decode]
    dsimp only
    rw [value, arm]
    dsimp only [decodeArm]
    rw [bind_eq, holds.reads (reads _)]
    rfl

theorem decode_exact (accepted : ofBody b = .ok c) (apart : Apart b)
    (exact : ∀ v m, (codecs v m).Exact (Fits v m)) {v : Value α} {input rest : Bytes}
    (read : c.decode codecs input = (.ok v, rest)) :
    ∃ front f, Constructs b v.variant front f ∧ Holds f (Fits v.variant) v.field ∧
      input = front ++ imageOf (codecs v.variant) v.field f.members ++ rest := by
  cases b with
  | record f =>
    cases accepted
    simp only [Code.decode, bind_ok, pure_ok] at read
    obtain ⟨field, _, fields, rfl, rfl⟩ := read
    obtain ⟨declared, fits, rfl⟩ := readMembers_exact (exact none)
      (apart.fields f (List.mem_singleton_self f)) fields
    exact ⟨[], f, .record, ⟨declared, fits⟩, rfl⟩
  | choice vs =>
    obtain ⟨ts, tagged, rfl⟩ := ofBody_choice.1 accepted
    simp only [Code.decode, Codec.u8_exact.first] at read
    obtain ⟨tag, m, -, rfl, read⟩ := read
    cases found : (vs.zipWith decodeArm ts).find? (·.tag == tag.toNat) with
    | some arm =>
      rw [found] at read
      obtain ⟨before, v, after, ts₁, t, ts₂, rfl, rfl, same, rfl, picked⟩ :=
        find_arm found tagged.length
      simp only [bind_ok, pure_ok] at read
      obtain ⟨field, _, fields, rfl, rfl⟩ := read
      have shape : v.fields ∈ shapes (.choice (before ++ v :: after)) := by simp [shapes]
      obtain ⟨declared, fits, rfl⟩ := readMembers_exact (exact _) (apart.fields _ shape) fields
      have byte : tag = .ofNat t := by
        rw [← UInt8.ofNat_toNat (x := tag)]
        exact congrArg UInt8.ofNat (beq_iff_eq.1 picked).symm
      refine ⟨[.ofNat t], v.fields, .variant tagged same ?_, ⟨declared, fits⟩, ?_⟩
      · have names := apart.variants _ rfl
        rw [List.map_append, List.map_cons, List.nodup_append] at names
        exact fun u member => names.2.2 _ (List.mem_map_of_mem member) _ List.mem_cons_self
      · rw [byte, Codec.u8_encode, List.append_assoc]
    | none =>
      rw [found] at read
      exact (throw_ok.1 read).elim
  | union => cases accepted

end Code

theorem derive_error {i : Item} {e : Error} : derive i = .error e ↔ ofBody i.body = .error e := by
  rw [derive]
  cases ofBody i.body with
  | error d => simp [Except.map]
  | ok c => exact ⟨nofun, nofun⟩

theorem derive_ok {i : Item} {tokens : String} :
    derive i = .ok tokens ↔ ∃ c, ofBody i.body = .ok c ∧ text i c = tokens := by
  rw [derive]
  cases ofBody i.body with
  | error d => exact ⟨nofun, nofun⟩
  | ok c => simp [Except.map]

/-- Code is derived for each structure, and for an enumeration unless a variant has no tag in a
byte, the first of which is the error. The encoder writes what stands in front of the fields and the
fields in their order, but has no meaning if its sink is hidden; the decoder reads each value
back, and reads nothing that is not the image of a value. -/
theorem derives_inverse_codecs {α : Type} (i : Item) (codecs : FieldCodecs α)
    (Fits : Option String → Member → α → Prop) :
    (∀ e, derive i = .error e ↔ (∃ vs, i.body = .choice vs ∧ Refused none vs e) ∨
      (i.body = .union ∧ e = .unionCodec)) ∧
    ∀ tokens, derive i = .ok tokens → ∃ c, ofBody i.body = .ok c ∧ text i c = tokens ∧
      (∀ name field front f, Constructs i.body name front f → Holds f (Fits name) field →
        (Hygienic i → encode i c codecs ⟨name, field⟩ =
          some (front ++ imageOf (codecs name) field f.members)) ∧
        (¬ Hygienic i → encode i c codecs ⟨name, field⟩ = none) ∧
        (Distinct i.body → (∀ v m, ReadsBack (codecs v m) (Fits v m)) → ∀ rest,
          c.decode codecs (front ++ imageOf (codecs name) field f.members ++ rest) =
            (.ok ⟨name, field⟩, rest))) ∧
      (Apart i.body → (∀ v m, (codecs v m).Exact (Fits v m)) → ∀ input name field rest,
        c.decode codecs input = (.ok ⟨name, field⟩, rest) → ∃ front f,
          Constructs i.body name front f ∧ Holds f (Fits name) field ∧
            input = front ++ imageOf (codecs name) field f.members ++ rest) := by
  refine ⟨fun e => derive_error.trans ofBody_error, fun tokens derived => ?_⟩
  obtain ⟨c, accepted, rfl⟩ := derive_ok.1 derived
  refine ⟨c, accepted, rfl, fun name field front f constructs holds => ⟨?_, ?_, ?_⟩, ?_⟩
  · intro hygienic
    rw [encode, if_pos ((resolves_iff accepted).2 hygienic)]
    exact encode_image accepted constructs holds
  · intro hidden
    exact if_neg fun resolved => hidden ((resolves_iff accepted).1 resolved)
  · intro distinct reads rest
    exact decode_image accepted distinct reads constructs holds rest
  · intro apart exact input name field rest read
    exact decode_exact accepted apart exact read

/-- An enumeration with the tags 3, 4 and 0. -/
def ports : List Variant :=
  [⟨"Off", .missing, .unit, some (.integer 3)⟩, ⟨"Pair", .missing, .tuple 2, none⟩,
    ⟨"One", .missing, .named ["level"], some (.integer 0)⟩]

def port : Item := ⟨"Port", [], "", .missing, .choice ports⟩

theorem tagged_ports : Tagged none ports [3, 4, 0] :=
  .variant (.explicit (by decide)) (.variant (.implicit (by decide))
    (.variant (.explicit (by decide)) .done))

def pair (m : Member) : Option UInt8 :=
  if m = .placed 0 then some 7 else if m = .placed 1 then some 9 else none

theorem holds_pair : Holds (.tuple 2) (fun _ _ => True) pair where
  declared m := by
    have members : Fields.members (.tuple 2) = [.placed 0, .placed 1] := rfl
    rw [members, pair]
    by_cases first : m = .placed 0
    · simp [first]
    · by_cases second : m = .placed 1 <;> simp [first, second]
  fits _ _ _ := trivial

/-- The tag of the second variant counts on from the first; its fields are written after the tag,
read back, and read from nothing else. -/
theorem derives_inverse_codecs_ports :
    ∃ c, ofBody port.body = .ok c ∧
      encode port c (fun _ _ => Codec.u8) ⟨some "Pair", pair⟩ = some [4, 7, 9] ∧
      c.decode (fun _ _ => Codec.u8) [4, 7, 9, 1] = (.ok ⟨some "Pair", pair⟩, [1]) ∧
      ∃ front f, Constructs port.body (some "Pair") front f ∧ Holds f (fun _ _ => True) pair ∧
        [4, 7, 9, 1] = front ++ imageOf (fun _ => Codec.u8) pair f.members ++ [1] := by
  have derived := derive_ok (i := port).2 ⟨_, ofBody_choice.2 ⟨_, tagged_ports, rfl⟩, rfl⟩
  obtain ⟨c, accepted, -, images, exact⟩ :=
    (derives_inverse_codecs port (fun _ _ => Codec.u8) fun _ _ _ => True).2 _ derived
  have second : Constructs port.body (some "Pair") [4] (.tuple 2) :=
    @Constructs.variant [_] [_] _ [3] [0] 4 tagged_ports rfl (by decide)
  have hygienic : Hygienic port :=
    ⟨(by decide : ∀ f ∈ [Fields.unit, .tuple 2, .named ["level"]], "out" ∉ bound f), nofun⟩
  have distinct : Distinct port.body := by
    rintro vs ts ⟨⟩ tagged
    rw [Tagged.unique (by simp) tagged tagged_ports]
    decide
  have apart : Apart port.body := by
    refine ⟨?_, (by decide : ∀ f ∈ [Fields.unit, .tuple 2, .named ["level"]], f.members.Nodup)⟩
    rintro vs ⟨⟩
    decide
  have reads : ∀ (_ : Option String) (_ : Member), ReadsBack Codec.u8 fun _ => True :=
    fun _ _ => .of_exact Codec.u8_exact
  obtain ⟨written, -, read⟩ := images (some "Pair") pair [4] (.tuple 2) second holds_pair
  have image : imageOf (fun _ => Codec.u8) pair (Fields.tuple 2).members = [7, 9] := by decide
  rw [image] at written read
  have back := read distinct reads [1]
  exact ⟨c, accepted, written hygienic, back, exact apart (fun _ _ => Codec.u8_exact) _ _ _ _ back⟩

/-- Code is derived for a structure with a field named for the sink. The decoder reads its values,
but the encoder binds the name to the field and has nothing left to write to. -/
theorem hidden_sink_unwritten : ∃ i c,
    Item.read? "struct Port \x7b out: u8 \x7d" = some i ∧ ofBody i.body = .ok c ∧
      derive i = .ok (text i c) ∧ encodeText c =
        "let Self \x7b out \x7d = self ; crate :: types :: encoding :: Encode :: encode (out , out) ;" ∧
      c.decode (fun _ _ => Codec.u8) [7] =
        (.ok ⟨none, fun m => if m = .named "out" then some 7 else none⟩, []) ∧
      encode i c (fun _ _ => Codec.u8)
        ⟨none, fun m => if m = .named "out" then some 7 else none⟩ = none := by
  exact ⟨⟨"Port", [], "", .missing, .record (.named ["out"])⟩, _, by decide +kernel, rfl, rfl,
    by decide +kernel, rfl, by decide +kernel⟩

end CodecCode
end FloatMachine.Derive

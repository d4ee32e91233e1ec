import Disassembly.Proofs.Grammar.Derivation

/-!
# Fields without instructions

The readers of the fields that hold no instructions recognize their encodings,
and so does the reader of the labels of a branch table.
-/

namespace Disassembly

/-! ## Fixed widths -/

open Reader (littleEndianValue)

theorem length_littleEndianBytes (count value : Nat) :
    (littleEndianBytes count value).length = count := by
  induction count generalizing value with
  | zero => rfl
  | succ count ih => simp [littleEndianBytes, ih]

theorem littleEndianValue_littleEndianBytes (count value : Nat) :
    littleEndianValue (littleEndianBytes count value) = value % 256 ^ count := by
  induction count generalizing value with
  | zero => simp [littleEndianBytes, littleEndianValue, Nat.mod_one]
  | succ count ih =>
      have hrest := ih (value / 256)
      simp only [littleEndianValue] at hrest
      have hbyte : (UInt8.ofNat (value % 256)).toNat = value % 256 := by simp
      simp only [littleEndianBytes, littleEndianValue, List.foldr_cons, hrest,
        hbyte]
      rw [pow_succ', Nat.mod_mul]

theorem littleEndianValue_lt (bytes : List UInt8) :
    littleEndianValue bytes < 256 ^ bytes.length := by
  induction bytes with
  | nil => simp [littleEndianValue]
  | cons byte bytes ih =>
      have hbyte := byte.toNat_lt
      simp only [littleEndianValue] at ih
      simp only [littleEndianValue, List.foldr_cons, List.length_cons, pow_succ']
      omega

theorem littleEndianBytes_littleEndianValue (bytes : List UInt8) :
    littleEndianBytes bytes.length (littleEndianValue bytes) = bytes := by
  induction bytes with
  | nil => rfl
  | cons byte bytes ih =>
      have hbyte := byte.toNat_lt
      simp only [littleEndianValue] at ih
      simp only [littleEndianValue, List.foldr_cons, List.length_cons,
        littleEndianBytes]
      rw [Nat.add_mul_mod_self_left, Nat.add_mul_div_left _ _ (by decide),
        Nat.div_eq_of_lt (by omega), Nat.zero_add, ih]
      simp

namespace ValueType

theorem mem_all_iff (type : ValueType) : type ∈ all ↔ type.isValid := by
  have hbytes :
      ∀ byte < 256, mk (UInt8.ofNat byte) ∈ all ↔
        (mk (UInt8.ofNat byte)).isValid := by
    decide +kernel
  simpa using hbytes type.byte.toNat type.byte.toNat_lt

/-- The type that a byte stands for. -/
def ofByte? (byte : UInt8) : Option ValueType :=
  if (mk byte).isValid then some ⟨byte⟩ else none

theorem ofByte?_eq_some_iff {byte : UInt8} {type : ValueType} :
    ofByte? byte = some type ↔ type ∈ all ∧ byte = type.byte := by
  unfold ofByte?
  rw [mem_all_iff]
  constructor
  · intro hbyte
    split at hbyte
    next hvalid =>
      cases hbyte
      exact ⟨hvalid, rfl⟩
    next => cases hbyte
  · rintro ⟨hvalid, rfl⟩
    rw [if_pos hvalid]

/-- No byte is taken for the number of a type unless it is one. -/
theorem ofByte_eq (byte : UInt8) : ofByte byte = .ok (ofByte? byte) := by
  unfold ofByte ofByte?
  split
  next hlarge =>
    have hinvalid : ¬ (mk byte).isValid := by
      rw [← mem_all_iff]
      intro hmem
      have hsmall : ∀ type ∈ all, type.byte.toNat < 128 := by decide
      exact absurd (hsmall _ hmem) (Nat.not_lt.mpr hlarge)
    rw [if_neg hinvalid]
  next hsmall =>
    rw [ofNumber, if_pos (Nat.lt_of_not_le hsmall), UInt8.ofNat_toNat]
    rfl

theorem isReference_iff {type : ValueType} :
    type.isReference ↔ type = funcRef ∨ type = externRef := by
  simp [isReference]

theorem byte_ne_emptyByte {type : ValueType} (htype : type ∈ all) :
    type.byte ≠ BlockType.emptyByte := by
  revert type
  decide

end ValueType

namespace BlockType

/-- The block type that a byte stands for. -/
def ofByte? (byte : UInt8) : Option BlockType :=
  if byte = emptyByte then some none else (ValueType.ofByte? byte).map some

theorem ofByte_eq (byte : UInt8) : ofByte byte = .ok (ofByte? byte) := by
  unfold ofByte ofByte?
  split
  next => rfl
  next =>
    rw [ValueType.ofByte_eq]
    rfl

end BlockType

namespace Reader

theorem recognizes_nextBytes (count : Nat) :
    (nextBytes count).Recognizes fun bytes value =>
      bytes.length = count ∧ value = bytes := by
  intro input value after
  constructor
  · intro hread
    rw [nextBytes_input] at hread
    split at hread
    next hcount =>
      cases hread
      refine ⟨input.rest.take count, ⟨by simpa using hcount, rfl⟩, ?_, ?_, rfl⟩
      · simp [Input.advance]
      · simp [Input.advance]
    next => cases hread
  · rintro ⟨bytes, ⟨rfl, rfl⟩, hbytes⟩
    have hcount : value.length ≤ input.rest.length := by
      rw [hbytes.rest, List.length_append]
      omega
    have hadvance : input.Consumed value (input.advance value.length) := by
      refine ⟨?_, ?_, rfl⟩
      · simp [Input.advance, hbytes.rest]
      · simp [Input.advance, hcount]
    have hafter := hadvance.unique hbytes
    rw [nextBytes_input]
    rw [if_pos hcount, hafter, hbytes.rest, List.take_left]

theorem recognizes_word
    {α : Type} (count : Nat) {ofNat : Nat → α} {toNat : α → Nat}
    (hlt : ∀ word, toNat word < 256 ^ count)
    (htoNat : ∀ value, value < 256 ^ count → toNat (ofNat value) = value)
    (hofNat : ∀ word, ofNat (toNat word) = word) :
    Recognizes (do return ofNat (littleEndianValue (← nextBytes count)))
      fun bytes word => bytes = littleEndianBytes count (toNat word) := by
  refine ((recognizes_nextBytes count).map fun bytes =>
    ofNat (littleEndianValue bytes)).congr ?_
  intro bytes word
  constructor
  · rintro ⟨value, ⟨hlength, rfl⟩, rfl⟩
    have hbound := littleEndianValue_lt value
    rw [hlength] at hbound
    rw [htoNat _ hbound, ← hlength, littleEndianBytes_littleEndianValue]
  · rintro rfl
    refine ⟨_, ⟨length_littleEndianBytes _ _, rfl⟩, ?_⟩
    rw [littleEndianValue_littleEndianBytes, Nat.mod_eq_of_lt (hlt word), hofNat]

theorem recognizes_littleEndian32 :
    littleEndian32.Recognizes fun bytes bits =>
      bytes = littleEndianBytes 4 bits.toNat := by
  apply recognizes_word 4
  · exact fun bits => bits.toNat_lt
  · exact fun value hvalue => UInt32.toNat_ofNat_of_lt' hvalue
  · exact fun bits => UInt32.ofNat_toNat

theorem recognizes_littleEndian64 :
    littleEndian64.Recognizes fun bytes bits =>
      bytes = littleEndianBytes 8 bits.toNat := by
  apply recognizes_word 8
  · exact fun bits => bits.toNat_lt
  · exact fun value hvalue => UInt64.toNat_ofNat_of_lt' hvalue
  · exact fun bits => UInt64.ofNat_toNat

/-! ## Types -/

theorem Recognizes.position_then
    {α : Type} {next : Nat → Reader Input α} {form : List UInt8 → α → Prop}
    (hnext : ∀ start, (next start).Recognizes form) :
    Recognizes (position >>= next) form := by
  intro input value after
  rw [← hnext input.position input value after, bind_eq_ok_iff]
  constructor
  · rintro ⟨start, middle, hposition, hresult⟩
    cases hposition
    exact hresult
  · intro hresult
    exact ⟨input.position, input, rfl, hresult⟩

theorem recognizes_typeByte
    {α : Type} (role : TypeRole) {ofByte : UInt8 → Except InternalFault (Option α)}
    {ofByte? : UInt8 → Option α} (hread : ∀ byte, ofByte byte = .ok (ofByte? byte))
    {form : List UInt8 → α → Prop}
    (hform : ∀ bytes type, form bytes type ↔
      ∃ byte, ofByte? byte = some type ∧ bytes = [byte]) :
    (typeByte role ofByte).Recognizes form := by
  refine Recognizes.position_then fun start =>
    (recognizes_nextByte.bind fun byte =>
      recognizes_lookup (ofByte? byte) ?_ ?_).congr ?_
  · intro type htype
    rw [hread, htype]
  · intro hnone
    rw [hread, hnone]
    exact fun input => ⟨⟨start, .invalidType byte role⟩, rfl⟩
  · intro bytes type
    rw [hform]
    constructor
    · rintro ⟨byte, first, second, rfl, ⟨rfl, htype⟩, rfl⟩
      exact ⟨byte, htype, by simp⟩
    · rintro ⟨byte, htype, rfl⟩
      exact ⟨byte, [byte], [], rfl, ⟨rfl, htype⟩, by simp⟩

theorem recognizes_valueType :
    valueType.Recognizes fun bytes type =>
      type ∈ ValueType.all ∧ bytes = [type.byte] := by
  refine recognizes_typeByte .value ValueType.ofByte_eq fun bytes type => ?_
  constructor
  · rintro ⟨htype, rfl⟩
    exact ⟨type.byte, ValueType.ofByte?_eq_some_iff.mpr ⟨htype, rfl⟩, rfl⟩
  · rintro ⟨byte, hbyte, rfl⟩
    obtain ⟨htype, rfl⟩ := ValueType.ofByte?_eq_some_iff.mp hbyte
    exact ⟨htype, rfl⟩

theorem referenceByte_eq (byte : UInt8) :
    (ValueType.ofByte byte).map (fun type? => type?.filter ValueType.isReference) =
      .ok ((ValueType.ofByte? byte).filter ValueType.isReference) := by
  rw [ValueType.ofByte_eq]
  rfl

theorem recognizes_referenceType :
    referenceType.Recognizes fun bytes type =>
      (type = .funcRef ∨ type = .externRef) ∧ bytes = [type.byte] := by
  refine recognizes_typeByte .reference referenceByte_eq fun bytes type => ?_
  simp only [Option.filter_eq_some_iff, ValueType.ofByte?_eq_some_iff,
    ValueType.isReference_iff]
  constructor
  · rintro ⟨hreference, rfl⟩
    refine ⟨type.byte, ⟨⟨?_, rfl⟩, hreference⟩, rfl⟩
    rcases hreference with rfl | rfl <;> decide
  · rintro ⟨byte, ⟨⟨_, rfl⟩, hreference⟩, rfl⟩
    exact ⟨hreference, rfl⟩

theorem recognizes_blockType :
    blockType.Recognizes fun bytes type =>
      Grammar.Scalar .blockType bytes (.blockType type) := by
  refine recognizes_typeByte .block BlockType.ofByte_eq fun bytes type => ?_
  unfold BlockType.ofByte?
  constructor
  · intro hscalar
    cases hscalar with
    | noResult => exact ⟨0x40, rfl, rfl⟩
    | @result found hfound =>
        refine ⟨found.byte, ?_, rfl⟩
        rw [if_neg (ValueType.byte_ne_emptyByte hfound),
          ValueType.ofByte?_eq_some_iff.mpr ⟨hfound, rfl⟩]
        rfl
  · rintro ⟨byte, hbyte, rfl⟩
    split at hbyte
    next hempty =>
      cases hbyte
      rw [hempty]
      exact .noResult
    next =>
      obtain ⟨found, hfound, rfl⟩ := Option.map_eq_some_iff.mp hbyte
      obtain ⟨hvalid, rfl⟩ := ValueType.ofByte?_eq_some_iff.mp hfound
      exact .result hvalid

/-! ## Vectors -/

theorem forall₂_and_map_iff
    {α β : Type} {holds : α → Prop} {f : α → β} {xs : List α} {ys : List β} :
    List.Forall₂ (fun x y => holds x ∧ y = f x) xs ys ↔
      (∀ x ∈ xs, holds x) ∧ ys = xs.map f := by
  have hmap : List.Forall₂ (fun x y => y = f x) xs ys ↔ ys = xs.map f := by
    simp only [eq_comm (b := f _)]
    rw [← List.forall₂_map_left_iff, List.forall₂_eq_eq_eq, eq_comm]
  rw [List.forall₂_and_left, hmap]

theorem flatten_map_singleton {α β : Type} (f : α → β) (xs : List α) :
    (xs.map fun x => [f x]).flatten = xs.map f := by
  rw [← List.flatMap_def, List.map_eq_flatMap]

theorem recognizes_valueTypes :
    valueTypes.Recognizes fun bytes types =>
      Grammar.Scalar .valueTypes bytes (.valueTypes types) := by
  refine (recognizes_u32.bind fun count =>
    recognizes_valueType.repeated count.toNat).congr ?_
  intro bytes types
  constructor
  · rintro ⟨count, first, second, ⟨hfirst, rfl⟩,
      ⟨hlength, pieces, hpieces, rfl⟩, rfl⟩
    obtain ⟨htypes, rfl⟩ := forall₂_and_map_iff.mp hpieces.flip
    rw [UInt32.toNat_ofNat'] at hlength
    rw [flatten_map_singleton]
    exact .valueTypes hfirst hlength htypes
  · intro hscalar
    cases hscalar with
    | @valueTypes count _ hcount hlength htypes =>
        refine ⟨_, count, types.map ValueType.byte, ⟨hcount, rfl⟩,
          ⟨by rw [hlength, UInt32.toNat_ofNat'], _,
            (forall₂_and_map_iff.mpr ⟨htypes, rfl⟩).flip, ?_⟩, rfl⟩
        rw [flatten_map_singleton]

theorem recognizes_branchLabels :
    branchLabels.Recognizes Grammar.Labels := by
  refine (recognizes_u32.bind fun count =>
    recognizes_u32.repeated (count.toNat + 1)).congr ?_
  intro bytes targets
  constructor
  · rintro ⟨count, first, second, ⟨hfirst, rfl⟩,
      ⟨hlength, pieces, hpieces, rfl⟩, rfl⟩
    obtain ⟨hforms, rfl⟩ := forall₂_and_map_iff.mp hpieces
    rw [List.length_map, UInt32.toNat_ofNat'] at hlength
    exact .intro hfirst hlength hforms
  · rintro ⟨hcount, hlength, hforms⟩
    refine ⟨_, _, _, ⟨hcount, rfl⟩, ⟨?_, _,
      forall₂_and_map_iff.mpr ⟨hforms, rfl⟩, rfl⟩, rfl⟩
    rw [List.length_map, hlength, UInt32.toNat_ofNat']

end Reader

/-! ## Scalar fields -/

namespace Decoder

open Decoding (Recognizes read recognizes_read recognizes_failHere)
open Grammar (Scalar)

theorem recognizes_operand
    {α : Type} {reader : Reader Input α} {form : List UInt8 → α → Prop}
    (hreader : reader.Recognizes form) {wrap : α → Operand} {field : Field}
    (hfield : ∀ bytes operand, Scalar field bytes operand ↔
      ∃ value, form bytes value ∧ operand = wrap value)
    (bound : Nat) :
    Recognizes bound (do return wrap (← read reader)) (Scalar field) := by
  refine ((recognizes_read hreader bound).map wrap).congr ?_
  intro bytes operand
  exact (hfield bytes operand).symm

theorem recognizes_scalar
    (decoder : Decoder) (block : Nat → Decoding Input Block) (level bound : Nat)
    {field : Field} (hfield : field ≠ .instructions) :
    Recognizes bound (decoder.field block level field) (Scalar field) := by
  cases field with
  | u32 =>
      apply recognizes_operand Reader.recognizes_u32
      intro bytes operand
      constructor
      · intro hscalar
        cases hscalar with
        | u32 hbytes => exact ⟨_, ⟨hbytes, rfl⟩, rfl⟩
      · rintro ⟨_, ⟨hbytes, rfl⟩, rfl⟩
        exact .u32 hbytes
  | i32 =>
      apply recognizes_operand Reader.recognizes_i32
      intro bytes operand
      constructor
      · intro hscalar
        cases hscalar with
        | i32 hbytes => exact ⟨_, ⟨hbytes, rfl⟩, rfl⟩
      · rintro ⟨_, ⟨hbytes, rfl⟩, rfl⟩
        exact .i32 hbytes
  | i64 =>
      apply recognizes_operand Reader.recognizes_i64
      intro bytes operand
      constructor
      · intro hscalar
        cases hscalar with
        | i64 hbytes => exact ⟨_, ⟨hbytes, rfl⟩, rfl⟩
      · rintro ⟨_, ⟨hbytes, rfl⟩, rfl⟩
        exact .i64 hbytes
  | f32 =>
      apply recognizes_operand Reader.recognizes_littleEndian32
      intro bytes operand
      constructor
      · intro hscalar
        cases hscalar with
        | f32 bits => exact ⟨bits, rfl, rfl⟩
      · rintro ⟨bits, rfl, rfl⟩
        exact .f32 bits
  | f64 =>
      apply recognizes_operand Reader.recognizes_littleEndian64
      intro bytes operand
      constructor
      · intro hscalar
        cases hscalar with
        | f64 bits => exact ⟨bits, rfl, rfl⟩
      · rintro ⟨bits, rfl, rfl⟩
        exact .f64 bits
  | index space =>
      apply recognizes_operand Reader.recognizes_u32
      intro bytes operand
      constructor
      · intro hscalar
        cases hscalar with
        | index _ hbytes => exact ⟨_, ⟨hbytes, rfl⟩, rfl⟩
      · rintro ⟨_, ⟨hbytes, rfl⟩, rfl⟩
        exact .index space hbytes
  | blockType =>
      apply recognizes_operand Reader.recognizes_blockType
      intro bytes operand
      constructor
      · intro hscalar
        cases hscalar with
        | noResult => exact ⟨none, .noResult, rfl⟩
        | result htype => exact ⟨_, .result htype, rfl⟩
      · rintro ⟨type, hscalar, rfl⟩
        exact hscalar
  | referenceType =>
      apply recognizes_operand Reader.recognizes_referenceType
      intro bytes operand
      constructor
      · intro hscalar
        cases hscalar with
        | referenceType htype => exact ⟨_, ⟨htype, rfl⟩, rfl⟩
      · rintro ⟨type, ⟨htype, rfl⟩, rfl⟩
        exact .referenceType htype
  | valueTypes =>
      apply recognizes_operand Reader.recognizes_valueTypes
      intro bytes operand
      constructor
      · intro hscalar
        cases hscalar with
        | valueTypes hcount hlength htypes =>
            exact ⟨_, .valueTypes hcount hlength htypes, rfl⟩
      · rintro ⟨types, hscalar, rfl⟩
        exact hscalar
  | instructions => exact absurd rfl hfield
  | unknown kind =>
      refine (recognizes_failHere bound _).congr fun bytes operand => iff_of_false id ?_
      intro hscalar
      cases hscalar

end Decoder

end Disassembly

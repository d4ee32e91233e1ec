import Disassembly.Proofs.Ending

/-!
# Completing what readers lack

A reader that runs out of bytes has met nothing wrong so far.  Whatever it has
consumed is the beginning of a form, and the missing bytes can be supplied so
that the form ends with them: a last group for an integer, any bytes for a
floating-point number, any type for a type, and as many items as a count asks
for, however large it is.

A completion need not be what the reader would have returned.  It is enough that
the parts of the form that come later can be supplied as well.
-/

namespace Disassembly

namespace Reader

open Leb128
open Grammar (Scalar Labels)

variable {α β : Type}

/-- Every input that ends too early has a continuation with which it is a form. -/
def Completable (reader : Reader Input α) (form : List UInt8 → Prop) : Prop :=
  ∀ input error after, reader input = (.error error, after) → error.IsShortage →
    ∃ suffix, form (input.rest ++ suffix)

variable {reader : Reader Input α} {start whole : List UInt8 → Prop}
variable {form : List UInt8 → α → Prop}

theorem Completable.mono
    (hreader : reader.Completable start) (himp : ∀ bytes, start bytes → whole bytes) :
    reader.Completable whole := by
  intro input error after hfails hshortage
  obtain ⟨suffix, hsuffix⟩ := hreader input error after hfails hshortage
  exact ⟨suffix, himp _ hsuffix⟩

theorem completable_pure (value : α) : Completable (pure value) whole := by
  intro input error after hfails
  cases hfails

theorem not_isShortage {position : Nat} {fault : DecodeFault}
    (hother : ∀ count, fault ≠ .endOfInput count) :
    ¬ DecodeError.IsShortage ⟨position, fault⟩ := by
  rintro ⟨count, hcount⟩
  exact hother count hcount

/-- Either the first part lacks bytes, and the second one is supplied as a whole, or the
second part lacks them. -/
theorem Completable.bind
    {next : α → Reader Input β} (hreader : reader.Completable start)
    (hstart : ∀ bytes, start bytes → ∃ more, whole (bytes ++ more))
    (hform : reader.Recognizes form)
    (hnext : ∀ first value, form first value →
      (next value).Completable fun second => whole (first ++ second)) :
    Completable (reader >>= next) whole := by
  intro input error after hfails hshortage
  rcases bind_eq_error_iff.mp hfails with hfirst | ⟨value, middle, hvalue, hrest⟩
  · obtain ⟨suffix, hsuffix⟩ := hreader input error after hfirst hshortage
    obtain ⟨more, hmore⟩ := hstart _ hsuffix
    exact ⟨suffix ++ more, by rwa [← List.append_assoc]⟩
  · obtain ⟨first, hfirst, hconsumed⟩ := (hform _ _ _).mp hvalue
    obtain ⟨suffix, hsuffix⟩ :=
      hnext first value hfirst middle error after hrest hshortage
    rw [hconsumed.rest]
    exact ⟨suffix, by rwa [List.append_assoc]⟩

theorem Completable.map (hreader : reader.Completable whole) (f : α → β) :
    Completable (reader >>= fun value => pure (f value)) whole := by
  intro input error after hfails hshortage
  rcases bind_eq_error_iff.mp hfails with hfirst | ⟨value, middle, _, hrest⟩
  · exact hreader input error after hfirst hshortage
  · cases hrest

/-! ## Bytes and integers -/

theorem rest_eq_nil_of_nextByte
    {input after : Input} {error : DecodeError}
    (hfails : nextByte input = (.error error, after)) : input.rest = [] := by
  cases hrest : input.rest with
  | nil => rfl
  | cons byte rest =>
      rw [nextByte_cons hrest] at hfails
      cases hfails

theorem completable_nextByte {byte : UInt8} (hbyte : whole [byte]) :
    nextByte.Completable whole := by
  intro input error after hfails _
  rw [rest_eq_nil_of_nextByte hfails]
  exact ⟨[byte], hbyte⟩

theorem completable_nextBytes (count : Nat) :
    (nextBytes count).Completable fun bytes => bytes.length = count := by
  intro input error after hfails _
  rw [nextBytes_input] at hfails
  split at hfails
  next => cases hfails
  next hshort =>
    refine ⟨List.replicate (count - input.rest.length) 0, ?_⟩
    simp only [List.length_append, List.length_replicate]
    omega

theorem completable_readGroups
    (width : Nat) (signed : Bool) (most shift : Nat) (value : BitVec width) :
    (readGroups width signed shiftWord most shift value).Completable (Form most) := by
  induction most generalizing shift value with
  | zero =>
      intro input error after hfails hshortage
      cases hfails
      exact absurd hshortage (not_isShortage (by simp))
  | succ most ih =>
      rw [readGroups_succ]
      -- a missing group is supplied by zero, which no group has to follow
      refine (completable_nextByte (Grammar.form_zero (Nat.le_add_left 1 most))).bind
        (fun bytes hbytes => ⟨[], by simpa using hbytes⟩) recognizes_nextByte ?_
      rintro _ byte rfl
      by_cases hcontinues : 128 ≤ byte.toNat
      · rw [if_pos (by simpa [continues] using hcontinues)]
        refine (ih _ _).mono fun bytes hbytes => ?_
        exact form_cons_iff.mpr (.inr ⟨hcontinues, hbytes⟩)
      · rw [if_neg (by simpa [continues] using hcontinues)]
        exact completable_pure _

theorem completable_u32 : u32.Completable (Form 5) :=
  (completable_readGroups 32 false 5 0 0).map UInt32.ofBitVec

theorem completable_i32 : i32.Completable (Form 5) :=
  (completable_readGroups 32 true 5 0 0).map Int32.ofBitVec

theorem completable_i64 : i64.Completable (Form 10) :=
  (completable_readGroups 64 true 10 0 0).map Int64.ofBitVec

/-! ## Types and vectors -/

theorem completable_typeByte
    {role : TypeRole} {ofByte : UInt8 → Except InternalFault (Option α)} {byte : UInt8}
    (hbyte : whole [byte]) : (typeByte role ofByte).Completable whole := by
  intro input error after hfails hshortage
  change (nextByte >>= fun byte => _) input = _ at hfails
  rcases bind_eq_error_iff.mp hfails with hfirst | ⟨other, middle, _, hrest⟩
  · exact completable_nextByte hbyte input error after hfirst hshortage
  · cases hread : ofByte other with
    | error fault =>
        simp only [hread] at hrest
        cases hrest
        exact absurd hshortage (not_isShortage (by simp))
    | ok type? =>
        cases type? with
        | some type =>
            simp only [hread] at hrest
            cases hrest
        | none =>
            simp only [hread] at hrest
            cases hrest
            exact absurd hshortage (not_isShortage (by simp))

theorem completable_blockType :
    blockType.Completable fun bytes => ∃ type, Scalar .blockType bytes (.blockType type) :=
  completable_typeByte ⟨none, .noResult⟩

theorem completable_referenceType :
    referenceType.Completable fun bytes => ∃ value, Scalar .referenceType bytes value :=
  completable_typeByte ⟨_, .referenceType (.inl rfl)⟩

theorem forall₂_replicate {first : α} {second : β} {holds : α → β → Prop}
    (hboth : holds first second) (count : Nat) :
    List.Forall₂ holds (List.replicate count first) (List.replicate count second) := by
  induction count with
  | zero => exact .nil
  | succ count ih => exact .cons hboth ih

/-- What remains of a repetition is supplied by one form over and over. -/
theorem Completable.repeated
    {bytes : List UInt8} {value : α}
    (hreader : reader.Completable fun bytes => ∃ value, form bytes value)
    (hform : reader.Recognizes form) (hsome : form bytes value) (count : Nat) :
    (repeated reader count).Completable fun bytes =>
      ∃ pieces values, values.length = count ∧ List.Forall₂ form pieces values ∧
        bytes = pieces.flatten := by
  induction count with
  | zero => exact completable_pure []
  | succ count ih =>
      refine hreader.bind ?_ hform fun head first hfirst => ?_
      · rintro head ⟨first, hfirst⟩
        exact ⟨_, head :: List.replicate count bytes,
          first :: List.replicate count value, by simp,
          .cons hfirst (forall₂_replicate hsome count), rfl⟩
      · refine (ih.map (first :: ·)).mono ?_
        intro tail htail
        obtain ⟨pieces, values, hlength, hpieces, rfl⟩ := htail
        exact ⟨head :: pieces, first :: values, by simp [hlength],
          .cons hfirst hpieces, rfl⟩

theorem completable_valueTypes :
    valueTypes.Completable fun bytes =>
      ∃ types, Scalar .valueTypes bytes (.valueTypes types) := by
  refine completable_u32.bind ?_ recognizes_u32 ?_
  · intro bytes hbytes
    -- The count may be any number, so that as many types have to be supplied.
    let types := List.replicate (groupSum bytes % 2 ^ 32) ValueType.i32
    have htypes : ∀ type ∈ types, type ∈ ValueType.all := by
      intro type htype
      rw [List.eq_of_mem_replicate htype]
      decide
    exact ⟨types.map ValueType.byte, types,
      .valueTypes hbytes List.length_replicate htypes⟩
  · rintro first _ ⟨hfirst, rfl⟩
    have hvalueType : valueType.Completable fun bytes =>
        ∃ type, type ∈ ValueType.all ∧ bytes = [type.byte] :=
      completable_typeByte ⟨.i32, by decide, rfl⟩
    have hi32 : ValueType.i32 ∈ ValueType.all := by decide
    refine (hvalueType.repeated recognizes_valueType ⟨hi32, rfl⟩ _).mono ?_
    intro second hsecond
    obtain ⟨pieces, types, hlength, hpieces, rfl⟩ := hsecond
    obtain ⟨htypes, rfl⟩ := forall₂_and_map_iff.mp hpieces.flip
    rw [UInt32.toNat_ofNat'] at hlength
    rw [flatten_map_singleton]
    exact ⟨types, .valueTypes hfirst hlength htypes⟩

theorem completable_branchLabels :
    branchLabels.Completable fun bytes => ∃ targets, Labels bytes targets := by
  refine completable_u32.bind ?_ recognizes_u32 ?_
  · intro bytes hbytes
    let pieces := List.replicate (groupSum bytes % 2 ^ 32 + 1) [(0 : UInt8)]
    have hpieces : ∀ piece ∈ pieces, Form 5 piece := by
      intro piece hpiece
      rw [List.eq_of_mem_replicate hpiece]
      exact Grammar.form_zero (by decide)
    exact ⟨pieces.flatten, _, .intro hbytes List.length_replicate hpieces⟩
  · rintro first _ ⟨hfirst, rfl⟩
    have hlabel : u32.Completable fun bytes =>
        ∃ value, Form 5 bytes ∧ value = UInt32.ofNat (groupSum bytes) :=
      completable_u32.mono fun bytes hbytes => ⟨_, hbytes, rfl⟩
    refine (hlabel.repeated recognizes_u32
      ⟨Grammar.form_zero (by decide), rfl⟩ _).mono ?_
    intro second hsecond
    obtain ⟨pieces, targets, hlength, hpieces, rfl⟩ := hsecond
    obtain ⟨hforms, rfl⟩ := forall₂_and_map_iff.mp hpieces
    rw [List.length_map, UInt32.toNat_ofNat'] at hlength
    exact ⟨_, .intro hfirst hlength hforms⟩

/-! ## Opcodes -/

theorem rest_eq_nil_of_secondEntry
    {table : Table} {lead : UInt8} {input after : Input} {error : DecodeError}
    (hfails : secondEntry table lead input = (.error error, after))
    (hshortage : error.IsShortage) : input.rest = [] := by
  change (nextByte >>= fun second => _) input = _ at hfails
  rcases bind_eq_error_iff.mp hfails with hfirst | ⟨second, middle, _, hrest⟩
  · exact rest_eq_nil_of_nextByte hfirst
  · cases hfound : table.extended? lead second with
    | some found =>
        simp only [hfound] at hrest
        cases hrest
    | none =>
        simp only [hfound] at hrest
        cases hrest
        exact absurd hshortage (not_isShortage (by simp))

/-- Only an input that is empty, or the lead byte of a longer opcode, lacks an opcode. -/
theorem entry_shortage
    {table : Table} (htable : table.Coherent) {input after : Input} {error : DecodeError}
    (hfails : entry table input = (.error error, after)) (hshortage : error.IsShortage) :
    input.rest = [] ∨ input.rest ≠ [] ∧ ∃ found ∈ table.entries,
      found.opcode.second? ≠ none ∧ ∃ suffix, input.rest ++ suffix = found.opcode.bytes := by
  change (nextByte >>= fun lead => _) input = _ at hfails
  rcases bind_eq_error_iff.mp hfails with hfirst | ⟨lead, middle, hlead, hrest⟩
  · exact .inl (rest_eq_nil_of_nextByte hfirst)
  · obtain ⟨_, rfl, hconsumed⟩ := (recognizes_nextByte _ _ _).mp hlead
    right
    refine ⟨by simp [hconsumed.rest], ?_⟩
    cases hslot : table.slot? lead with
    | none =>
        simp only [hslot] at hrest
        cases hrest
        exact absurd hshortage (not_isShortage (by simp))
    | some slot =>
        cases slot with
        | single owner =>
            simp only [hslot] at hrest
            cases hrest
        | extended =>
            simp only [hslot] at hrest
            obtain ⟨owner, howner, rfl, hlonger⟩ :=
              htable.slot?_eq_extended_iff.mp hslot
            have hnone := rest_eq_nil_of_secondEntry hrest hshortage
            exact ⟨owner, howner, hlonger, owner.opcode.second?.toList, by
              rw [hconsumed.rest, hnone]
              rfl⟩

end Reader

end Disassembly

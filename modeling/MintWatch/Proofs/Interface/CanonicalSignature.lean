import Mathlib
import MintWatch.Proofs.Abi.TypeName
import MintWatch.Proofs.Interface.IndexContents
import MintWatch.Proofs.Interface.Splicing
/-!
# Signatures of indexed functions

The signature of a function is hashed to the selector that callers use, who spell each type
in its one canonical way.  The index makes the signature of the names of the types it has
resolved.  For parameters whose leaves are spelled canonically these names are the canonical
types of the parameters, so that the function is found under the selector that callers use,
unless a tuple of one component is among them or a size is written with a leading zero.
-/

namespace MintWatch

open Abi

/-- Whether a type text is the spelling of the type that it denotes. -/
def IsCanonicalText (text : String) : Prop :=
  ∃ ty, Ty.ofText text = .ok ty ∧ ty.spelling = text

/--
Whether no size in the canonical types of parameters starts with a zero, and no tuple in the
types that they resolve to has one component.
-/
structure HavePlainTypes (texts : List String) (inputs : List ResolvedParam) : Prop where
  sizes : ∀ text ∈ texts, HasPlainSizes text.toList
  severalComponents : ∀ input ∈ inputs, input.ty.singles = 0

namespace Param

variable {param : Param} {params : List Param} {ty : Ty} {texts : List String}
  {inputs : List ResolvedParam}

/-! ## Canonical types and spellings -/

theorem Wraps.toList_spelling
    {item : Ty} {suffix : List Char}
    (hwraps : Wraps item suffix ty)
    (hplain : HasPlainSizes suffix) :
    ty.spelling.toList = item.spelling.toList ++ suffix := by
  induction hwraps with
  | none => rw [List.append_nil]
  | array hrest ih =>
      rw [ih (List.IsChain.suffix hplain ⟨['[', ']'], rfl⟩), Ty.spelling]
      simp
  | @fixedArray item ty digits rest count hsize hrest ih =>
      obtain ⟨hsome, hdigits, hvalue⟩ := hsize
      have hfront : digits.head? ≠ some '0' := by
        obtain ⟨first, others, rfl⟩ := List.exists_cons_of_ne_nil hsome
        have hopens := (List.isChain_cons_cons.mp hplain).1 rfl
        simpa using hopens
      have hsame : (toString count.val).toList = digits := by
        rw [Nat.toString_eq_repr, Nat.toList_repr, ← hvalue]
        exact Text.toDigits_decimal hsome hdigits hfront
      rw [ih (List.IsChain.suffix hplain ⟨'[' :: (digits ++ [']']), by simp⟩), Ty.spelling]
      simp only [String.toList_append, hsame]
      simp

theorem hasPlainSizes_of_tuple
    {inner : List (List Char)} {suffix : List Char}
    (hplain : HasPlainSizes ('(' :: (List.intercalate [','] inner ++ [')']) ++ suffix)) :
    (∀ text ∈ inner, HasPlainSizes text) ∧ HasPlainSizes suffix := by
  rw [← List.singleton_append, List.append_assoc, hasPlainSizes_append_iff,
    hasPlainSizes_append_iff, hasPlainSizes_append_iff, hasPlainSizes_intercalate_iff] at hplain
  exact ⟨hplain.2.1.1.1, hplain.2.1.2.1⟩

theorem eq_map_spelling
    {types : List Ty}
    (htexts : List.Forall₂ (fun param text => canonicalType param = .ok text) params texts)
    (htypes : List.Forall₂ (fun param ty => declaredType? param = some ty) params types)
    (hplain : ∀ text ∈ texts, HasPlainSizes text.toList)
    (heach : ∀ param ∈ params, ∀ text ty, declaredType? param = some ty →
      canonicalType param = .ok text → HasPlainSizes text.toList → text = ty.spelling) :
    texts = types.map Ty.spelling := by
  induction htexts generalizing types with
  | nil =>
      cases htypes
      rfl
  | cons hfirst hothers ih =>
      cases htypes with
      | cons hdeclared htypesRest =>
          rw [List.forall_mem_cons] at hplain heach
          rw [List.map_cons, heach.1 _ _ hdeclared hfirst hplain.1, ih htypesRest hplain.2 heach.2]

theorem eq_spelling_of_declaredType?
    {text : String}
    (hdeclared : param.declaredType? = some ty)
    (htext : param.canonicalType = .ok text)
    (hcanonical : ∀ leaf ∈ param.leaves, IsCanonicalText leaf)
    (hplain : HasPlainSizes text.toList) :
    text = ty.spelling := by
  induction param using paramInduction generalizing text ty with
  | mk name type components ih =>
      rw [leaves] at hcanonical
      cases htuple : tupleSuffix? type with
      | none =>
          obtain ⟨-, rfl⟩ := (canonicalType_leaf_eq_ok_iff htuple).mp htext
          obtain ⟨-, hread⟩ := (declaredType?_leaf_eq_some_iff htuple).mp hdeclared
          rw [htuple] at hcanonical
          obtain ⟨own, hown, hspelling⟩ := hcanonical text (by simp)
          rw [hread] at hown
          rw [← hspelling, Except.ok.inj hown]
      | some suffix =>
          obtain ⟨-, -, texts, htexts, rfl⟩ := (canonicalType_tuple_eq_ok_iff htuple).mp htext
          obtain ⟨-, types, htypes, hwraps⟩ := (declaredType?_tuple_eq_some_iff htuple).mp hdeclared
          rw [htuple] at hcanonical
          rw [canonicalTypes_eq_ok_iff] at htexts
          rw [toList_tupleText] at hplain
          obtain ⟨hinner, hsuffix⟩ := hasPlainSizes_of_tuple hplain
          rw [List.forall_mem_map] at hinner
          have hsame : texts = types.map Ty.spelling :=
            eq_map_spelling htexts htypes hinner
              fun param hmember text ty hdeclared htext hplain =>
                ih param hmember hdeclared htext
                  (fun leaf hleaf => hcanonical leaf (mem_leavesOf_iff.mpr ⟨param, hmember, hleaf⟩))
                  hplain
          apply String.toList_injective
          rw [hwraps.toList_spelling hsuffix, Ty.spelling, Ty.spellings_eq_map, ← hsame]
          simp only [String.toList_append, String.toList_ofList]

/-! ## The signature -/

theorem forall₂_declaredType?_of_ofParams
    (hcanonical : ∀ param ∈ params, ∀ leaf ∈ param.leaves, IsCanonicalText leaf)
    (hinputs :
      List.Forall₂ (fun param one => ResolvedParam.ofParam param = .ok one) params inputs) :
    List.Forall₂ (fun param ty => declaredType? param = some ty) params
      (inputs.map ResolvedParam.ty) := by
  induction hinputs with
  | nil => exact .nil
  | cons hfirst hothers ih =>
      rw [List.forall_mem_cons] at hcanonical
      refine .cons (declaredType?_of_ofParam hfirst (isDelimited_of_leaves ?_)) (ih hcanonical.2)
      intro leaf hleaf
      obtain ⟨own, hown, -⟩ := hcanonical.1 leaf hleaf
      exact ⟨own, hown⟩

theorem texts_eq_spellings
    (hcanonical : ∀ param ∈ params, ∀ leaf ∈ param.leaves, IsCanonicalText leaf)
    (hinputs : ResolvedParam.ofParams params = .ok inputs)
    (htexts : canonicalTypes params = .ok texts)
    (hplain : ∀ text ∈ texts, HasPlainSizes text.toList) :
    texts = (inputs.map ResolvedParam.ty).map Ty.spelling :=
  eq_map_spelling (canonicalTypes_eq_ok_iff.mp htexts)
    (forall₂_declaredType?_of_ofParams hcanonical (ResolvedParam.ofParams_eq_ok_iff.mp hinputs))
    hplain fun param hmember _ _ hdeclared htext =>
      eq_spelling_of_declaredType? hdeclared htext (hcanonical param hmember)

theorem kinds_eq_texts
    (hcanonical : ∀ param ∈ params, ∀ leaf ∈ param.leaves, IsCanonicalText leaf)
    (hinputs : ResolvedParam.ofParams params = .ok inputs)
    (htexts : canonicalTypes params = .ok texts)
    (hplain : HavePlainTypes texts inputs) :
    inputs.map ResolvedParam.kind = texts := by
  rw [texts_eq_spellings hcanonical hinputs htexts hplain.sizes, List.map_map]
  apply List.map_congr_left
  intro input hmember
  exact Ty.name_eq_spelling (hplain.severalComponents input hmember)

theorem havePlainTypes_of_intercalate
    (hcanonical : ∀ param ∈ params, ∀ leaf ∈ param.leaves, IsCanonicalText leaf)
    (hinputs : ResolvedParam.ofParams params = .ok inputs)
    (htexts : canonicalTypes params = .ok texts)
    (hsame : String.intercalate "," (inputs.map ResolvedParam.kind) =
      String.intercalate "," texts) :
    HavePlainTypes texts inputs := by
  have hkinds : inputs.map ResolvedParam.kind = (inputs.map ResolvedParam.ty).map Ty.name := by
    rw [List.map_map]
    rfl
  have hsizes : ∀ text ∈ texts, HasPlainSizes text.toList := by
    have hprinted :
        HasPlainSizes (String.intercalate "," (inputs.map ResolvedParam.kind)).toList := by
      rw [String.toList_intercalate]
      apply hasPlainSizes_intercalate_iff.mpr
      simp only [List.forall_mem_map]
      exact fun input _ => Ty.hasPlainSizes_name input.ty
    rw [hsame, String.toList_intercalate] at hprinted
    simpa using hasPlainSizes_intercalate_iff.mp hprinted
  have hcommas := congrArg Ty.commas hsame
  rw [texts_eq_spellings hcanonical hinputs htexts hsizes, hkinds, Ty.commas_intercalate,
    Ty.commas_intercalate, Ty.sum_commas_name fun ty _ => Ty.commas_name ty] at hcommas
  simp only [List.length_map] at hcommas
  have hnone : Ty.singlesOf (inputs.map ResolvedParam.ty) = 0 := by omega
  rw [Ty.singlesOf_eq_zero_iff, List.forall_mem_map] at hnone
  exact ⟨hsizes, hnone⟩

theorem exists_canonicalTypes_of_ofParams
    (hinputs : ResolvedParam.ofParams params = .ok inputs) :
    ∃ texts, canonicalTypes params = .ok texts := by
  simp only [canonicalTypes_eq_ok_iff]
  apply exists_forall₂
  intro param hmember
  obtain ⟨one, hone⟩ := ResolvedParam.exists_ofParams_iff.mp ⟨inputs, hinputs⟩ param hmember
  obtain ⟨-, text, htext, -⟩ := ofParam_eq_ok_iff.mp hone
  exact ⟨text, htext⟩

end Param

theorem signatureText_eq_iff
    {name : String} {texts : List String} {inputs : List ResolvedParam} :
    signatureText name inputs = name ++ "(" ++ String.intercalate "," texts ++ ")" ↔
      String.intercalate "," (inputs.map ResolvedParam.kind) = String.intercalate "," texts := by
  unfold signatureText
  simp only [← String.toList_inj, String.toList_append, List.append_cancel_right_eq,
    List.append_cancel_left_eq]

namespace InterfaceIndex

/--
A function that is indexed has the canonical types of its parameters in its signature exactly
if their types are plain, and is found under the hash of its signature, unless a later
function has the same.
-/
theorem signature_follows_canonical_types
    {before after : Interface} {descriptor : Descriptor} {index : InterfaceIndex}
    {replaced : List IndexedFunction}
    (hbuild : build (before ++ descriptor :: after) = .ok (index, replaced))
    (hkind : descriptor.kind = .function)
    (hcanonical : ∀ param ∈ descriptor.inputs, ∀ leaf ∈ param.leaves, IsCanonicalText leaf) :
    ∃ name texts function, descriptor.name.map Text.trim = some name ∧
      Param.canonicalTypes descriptor.inputs = .ok texts ∧
      functionOf Selector.ofSignature descriptor = .ok function ∧
      (function.signature = name ++ "(" ++ String.intercalate "," texts ++ ")" ↔
        HavePlainTypes texts function.inputs) ∧
      (function.inputs.map ResolvedParam.kind = texts ↔ HavePlainTypes texts function.inputs) ∧
      function.selector = Selector.ofSignature function.signature ∧
      index.lookup function.selector =
        some (((declaredFunctions Selector.ofSignature after).filter fun later =>
          Selector.ofSignature later.signature = function.selector).getLast?.getD function) := by
  obtain ⟨hformed, hindex⟩ := isIndexOf_of_buildWith hbuild
  have hmember : descriptor ∈ before ++ descriptor :: after :=
    List.mem_append_right before List.mem_cons_self
  obtain ⟨function, hfunction⟩ :=
    exists_functionOf_of_isWellFormed Selector.ofSignature hformed hmember hkind
  obtain ⟨name, inputs, hname, hinputs, rfl⟩ := functionOf_eq_ok_iff.mp hfunction
  obtain ⟨texts, htexts⟩ := Param.exists_canonicalTypes_of_ofParams hinputs
  have hkinds : HavePlainTypes texts inputs → inputs.map ResolvedParam.kind = texts :=
    Param.kinds_eq_texts hcanonical hinputs htexts
  have hplain : String.intercalate "," (inputs.map ResolvedParam.kind) =
      String.intercalate "," texts → HavePlainTypes texts inputs :=
    Param.havePlainTypes_of_intercalate hcanonical hinputs htexts
  refine ⟨name, texts, _, ?_, htexts, hfunction, ?_, ?_, rfl,
    hindex.lookup_declared hkind hfunction⟩
  · obtain ⟨own, hown, rfl, -⟩ := Descriptor.functionName?_eq_some_iff.mp hname
    rw [hown, Option.map_some]
  · refine signatureText_eq_iff.trans ⟨hplain, ?_⟩
    intro hboth
    rw [hkinds hboth]
  · refine ⟨?_, hkinds⟩
    intro hsame
    exact hplain (congrArg (String.intercalate ",") hsame)

/-- A function whose types are named as they are declared. -/
def transferDescriptor : Descriptor :=
  .function " transfer " [.plain "to" "address",
    ⟨"amounts", "tuple[2]", [.plain "token" "bytes4", .plain "amount" "uint256"]⟩]

theorem signature_follows_canonical_types_transfer :
    ∃ index replaced function, build [transferDescriptor] = .ok (index, replaced) ∧
      function.signature = "transfer(address,(bytes4,uint256)[2])" ∧
      index.lookup (Selector.ofSignature "transfer(address,(bytes4,uint256)[2])") =
        some function := by
  have hname : functionName? transferDescriptor = some "transfer" := by
    decide
  have hinputs : ResolvedParam.ofParams transferDescriptor.inputs =
      .ok [⟨"to", .address⟩, ⟨"amounts", .fixedArray
        (.tuple [.fixedBytes ⟨4, by decide, by decide⟩, .uint Width.full])
        ⟨2, by decide, by decide⟩⟩] := by
    cbv
  have hcanonical : ∀ param ∈ transferDescriptor.inputs, ∀ leaf ∈ param.leaves,
      IsCanonicalText leaf := by
    have haddress : IsCanonicalText "address" := ⟨.address, rfl, rfl⟩
    have hbytes : IsCanonicalText "bytes4" :=
      ⟨.fixedBytes ⟨4, by decide, by decide⟩, rfl, rfl⟩
    have huint : IsCanonicalText "uint256" := ⟨.uint Width.full, rfl, rfl⟩
    have hleaves : Param.leavesOf transferDescriptor.inputs = ["address", "bytes4", "uint256"] := by
      cbv
    intro param hparam leaf hleaf
    have hmember := Param.mem_leavesOf_iff.mpr ⟨param, hparam, hleaf⟩
    simp only [hleaves, List.mem_cons, List.not_mem_nil, or_false] at hmember
    rcases hmember with rfl | rfl | rfl
    · exact haddress
    · exact hbytes
    · exact huint
  have htexts : Param.canonicalTypes transferDescriptor.inputs =
      .ok ["address", "(bytes4,uint256)[2]"] := by
    cbv
  have hbuild := build_function hname hinputs
  have htrimmed : transferDescriptor.name.map Text.trim = some "transfer" := by
    decide
  have htext :
      "transfer" ++ "(" ++ String.intercalate "," ["address", "(bytes4,uint256)[2]"] ++ ")" =
        "transfer(address,(bytes4,uint256)[2])" := by
    decide
  obtain ⟨name, texts, function, hname', htexts', hfunction, hsignature, -, hselector, hlookup⟩ :=
    @signature_follows_canonical_types [] [] transferDescriptor _ _ hbuild rfl hcanonical
  obtain ⟨_, inputs, -, hinputs', hform⟩ := functionOf_eq_ok_iff.mp hfunction
  rw [htrimmed, Option.some.injEq] at hname'
  rw [htexts, Except.ok.injEq] at htexts'
  rw [hinputs, Except.ok.injEq] at hinputs'
  have hplain : HavePlainTypes texts function.inputs := by
    rw [← htexts', hform, ← hinputs']
    exact ⟨by decide, by simp [Ty.singles, Ty.singlesOf]⟩
  have hwhole := hsignature.mpr hplain
  rw [← hname', ← htexts', htext] at hwhole
  rw [hselector, hwhole] at hlookup
  exact ⟨_, _, _, hbuild, hwhole, hlookup⟩

/-- Callers spell the tuple of this function without the comma that its name has. -/
theorem signature_of_single_component :
    IsCanonicalText "uint256" ∧
      Param.canonicalType ⟨"entry", "tuple", [.plain "amount" "uint256"]⟩ = .ok "(uint256)" ∧
      ∃ index replaced,
        build [.function "store" [⟨"entry", "tuple", [.plain "amount" "uint256"]⟩]] =
          .ok (index, replaced) ∧
        index.functions.map IndexedFunction.signature = ["store((uint256,))"] ∧
        index.lookup (Selector.ofSignature "store((uint256))") = none := by
  have htext : Param.canonicalType ⟨"entry", "tuple", [.plain "amount" "uint256"]⟩ =
      .ok "(uint256)" := rfl
  have hinputs : ResolvedParam.ofParams [⟨"entry", "tuple", [.plain "amount" "uint256"]⟩] =
      .ok [⟨"entry", .tuple [.uint Width.full]⟩] := by
    cbv
  have hname : functionName? (.function "store"
      [⟨"entry", "tuple", [.plain "amount" "uint256"]⟩]) = some "store" := by
    decide
  have hdiffers : Selector.ofSignature "store((uint256,))" ≠
      Selector.ofSignature "store((uint256))" := by
    decide +kernel
  have hsignature : signatureText "store" [⟨"entry", .tuple [.uint Width.full]⟩] =
      "store((uint256,))" := rfl
  refine ⟨⟨.uint Width.full, rfl, rfl⟩, htext, _, _, build_function hname hinputs, rfl, ?_⟩
  unfold lookup
  rw [hsignature, List.find?_cons_of_neg (by simpa using hdiffers), List.find?_nil]

end InterfaceIndex
end MintWatch

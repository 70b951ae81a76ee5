import Mathlib
import MintWatch.Interface.Index
import MintWatch.Proofs.Abi.TextBoundary
import MintWatch.Proofs.Interface.DeclaredType
import MintWatch.Proofs.Interface.IndexContents
import MintWatch.Proofs.Interface.Selectors
/-!
# Texts that stand in tuples

Resolving a tuple parameter puts the type texts of its components, as they are, into one
text, and only this text is read.  Where each of the texts is self-contained the tuple is
taken apart where it was put together: it has a field for each component, with the type
that the component declares, and a text among them that does not parse is found out.  A text
that has a comma of its own, or is empty, or has white space around it, is not found out:
the text of the whole tuple may be that of another tuple.
-/

namespace MintWatch

open Abi

namespace Param

mutual

/-- The type texts of the parameters that are no tuples, at any depth. -/
def leaves : Param → List String
  | ⟨_, type, components⟩ =>
    match tupleSuffix? type with
    | none => [type]
    | some _ => leavesOf components

def leavesOf : List Param → List String
  | [] => []
  | param :: rest => leaves param ++ leavesOf rest

end

/-- The type texts that resolving a parameter puts into a longer text. -/
def spliced (param : Param) : List String :=
  match tupleSuffix? param.type with
  | none => []
  | some _ => leavesOf param.components

def IsDelimited (param : Param) : Prop :=
  ∀ text ∈ param.spliced, isSelfContained text.toList = true

variable {param : Param} {params : List Param} {ty : Ty}

theorem mem_leavesOf_iff
    {text : String} :
    text ∈ leavesOf params ↔ ∃ param ∈ params, text ∈ param.leaves := by
  induction params with
  | nil => simp [leavesOf]
  | cons param rest ih => simp [leavesOf, ih]

theorem mem_leaves_of_mem_spliced
    {text : String}
    (hmember : text ∈ param.spliced) :
    text ∈ param.leaves := by
  obtain ⟨name, type, components⟩ := param
  unfold spliced at hmember
  rw [leaves]
  split at hmember
  · cases hmember
  · rename_i suffix htuple
    rw [htuple]
    exact hmember

/-! ## What is written for a tuple -/

def IsSuffixChar (c : Char) : Prop :=
  c = '[' ∨ c = ']' ∨ c.isDigit = true

theorem isSuffixChar_of_mem
    (suffix : List Char) :
    (isArraySuffix suffix = true → ∀ c ∈ suffix, IsSuffixChar c) ∧
      (closesBracket suffix = true → ∀ c ∈ suffix, IsSuffixChar c) := by
  induction suffix with
  | nil => simp
  | cons first rest ih =>
      constructor
      · intro hsuffix
        unfold isArraySuffix at hsuffix
        split at hsuffix
        · rename_i hnil
          cases hnil
        · rename_i inner hcons
          obtain ⟨rfl, rfl⟩ := List.cons.inj hcons
          exact List.forall_mem_cons.mpr ⟨Or.inl rfl, ih.2 hsuffix⟩
        · cases hsuffix
      · intro hcloses
        unfold closesBracket at hcloses
        split at hcloses
        · rename_i hnil
          cases hnil
        · rename_i inner hcons
          obtain ⟨rfl, rfl⟩ := List.cons.inj hcons
          exact List.forall_mem_cons.mpr ⟨Or.inr (Or.inl rfl), ih.1 hcloses⟩
        · rename_i digit inner _ hcons
          obtain ⟨rfl, rfl⟩ := List.cons.inj hcons
          rw [Bool.and_eq_true] at hcloses
          exact List.forall_mem_cons.mpr ⟨Or.inr (Or.inr hcloses.1), ih.2 hcloses.2⟩

theorem IsSuffixChar.isPlain
    {c : Char}
    (hsuffix : IsSuffixChar c) :
    IsPlain c ∧ TypeForm.isGap c = false := by
  rcases hsuffix with rfl | rfl | hdigit
  · simp [IsPlain, TypeForm.isGap]
  · simp [IsPlain, TypeForm.isGap]
  · exact ⟨isPlain_of_among (by decide) hdigit, TypeForm.isGap_eq_false_of_among (by decide) hdigit⟩

/-- What is written for a tuple of self-contained texts is self-contained. -/
theorem isSelfContained_tuple
    {texts : List (List Char)} {suffix : List Char}
    (hwhole : ∀ text ∈ texts, isSelfContained text = true)
    (hsuffix : isArraySuffix suffix = true) :
    isSelfContained ('(' :: (List.intercalate [','] texts ++ [')']) ++ suffix) = true := by
  have hplain := (isSuffixChar_of_mem suffix).1 hsuffix
  rw [isSelfContained_iff]
  refine ⟨?_, by simp, by simp [TypeForm.isGap], ?_⟩
  · have hlevel := levelThrough_intercalate
      (fun text hmember => (isSelfContained_iff.mp (hwhole text hmember)).1) 0
    rw [List.cons_append, levelThrough_open, List.append_assoc, levelThrough_append_of_some hlevel,
      List.singleton_append, levelThrough_close]
    exact levelThrough_of_plain (fun c hmember => (hplain c hmember).isPlain.1) 0
  · intro c hc
    rw [List.getLast?_append] at hc
    cases hlast : suffix.getLast? with
    | none =>
        obtain rfl : ')' = c := by simpa [hlast, List.getLast?_cons] using hc
        decide
    | some last =>
        obtain rfl : last = c := by simpa [hlast] using hc
        exact (hplain last (List.mem_of_getLast? hlast)).isPlain.2

theorem isSelfContained_of_canonicalType
    {text : String}
    (htext : param.canonicalType = .ok text)
    (hleaves : ∀ leaf ∈ param.leaves, isSelfContained leaf.toList = true) :
    isSelfContained text.toList = true := by
  induction param using paramInduction generalizing text with
  | mk name type components ih =>
      rw [leaves] at hleaves
      cases htuple : tupleSuffix? type with
      | none =>
          obtain ⟨-, rfl⟩ := (canonicalType_leaf_eq_ok_iff htuple).mp htext
          simpa [htuple] using hleaves
      | some suffix =>
          obtain ⟨hsuffix, -, texts, htexts, rfl⟩ := (canonicalType_tuple_eq_ok_iff htuple).mp htext
          rw [htuple] at hleaves
          rw [toList_tupleText]
          apply isSelfContained_tuple _ hsuffix
          simp only [List.forall_mem_map]
          intro text hmember
          obtain ⟨component, hcomponent, htext⟩ :=
            exists_left_of_forall₂ (canonicalTypes_eq_ok_iff.mp htexts) hmember
          apply ih component hcomponent htext
          intro leaf hleaf
          exact hleaves leaf (mem_leavesOf_iff.mpr ⟨component, hcomponent, hleaf⟩)

/-! ## What is read of a tuple -/

theorem Wraps.append
    {item inner : Ty} {suffix more : List Char}
    (hwraps : Wraps item suffix inner)
    (hmore : Wraps inner more ty) :
    Wraps item (suffix ++ more) ty := by
  induction hwraps with
  | none => exact hmore
  | array hrest ih => exact .array (ih hmore)
  | fixedArray hsize hrest ih => simpa using Wraps.fixedArray hsize (ih hmore)

theorem Wraps.tupleDepth_eq
    {item : Ty} {suffix : List Char}
    (hwraps : Wraps item suffix ty) :
    ty.tupleDepth = item.tupleDepth := by
  induction hwraps with
  | none => rfl
  | array hrest ih => exact ih
  | fixedArray hsize hrest ih => exact ih

/-- What does not hold the parenthesis of a tuple stands behind it. -/
theorem eq_of_append_eq_parenthesis
    {front suffix stem back : List Char}
    (hback : ')' ∉ back)
    (hsame : front ++ ')' :: suffix = stem ++ back) :
    ∃ inner, stem = front ++ ')' :: inner ∧ suffix = inner ++ back := by
  rcases List.append_eq_append_iff.mp hsame with ⟨more, rfl, hmore⟩ | ⟨more, -, rfl⟩
  · cases more with
    | nil =>
        rw [List.nil_append] at hmore
        exact (hback (by simp [← hmore])).elim
    | cons c inner =>
        obtain ⟨rfl, rfl⟩ := List.cons.inj hmore
        exact ⟨inner, rfl, rfl⟩
  · exact (hback (by simp)).elim

/--
A type that is read from what is written for a tuple of self-contained texts is made of the
types that the texts denote.
-/
theorem exists_types_of_isSpelledBy
    {form : TypeForm} {texts : List (List Char)} {suffix : List Char}
    (hwhole : ∀ text ∈ texts, isSelfContained text = true)
    (hsome : texts ≠ [])
    (hspelled : form.IsSpelledBy ('(' :: List.intercalate [','] texts ++ ')' :: suffix))
    (hform : Ty.ofForm form = .ok ty) :
    ∃ types, List.Forall₂ Ty.IsDenotedBy types texts ∧ Wraps (.tuple types) suffix ty := by
  induction form using TypeForm.formInduction generalizing suffix ty with
  | named name =>
      have hparenthesis := mem_stem hspelled '(' List.mem_cons_self
      exact absurd hparenthesis (by decide)
  | tuple items ih =>
      obtain ⟨_, gap, inner, rfl | rfl, hgap, hinner, hsame⟩ := hspelled
      · obtain ⟨types, htypes, rfl⟩ := map_eq_ok_iff.mp hform
        have hsame' : gap ++ inner = List.intercalate [','] texts ++ ')' :: suffix := by
          simpa using hsame.symm
        have hnone : gap = [] := by
          apply eq_nil_of_isGap hgap inner
          rw [hsame']
          obtain ⟨text, others, rfl⟩ := List.exists_cons_of_ne_nil hsome
          rw [intercalate_cons_append]
          intro c hc
          exact (front_of_isSelfContained (hwhole text List.mem_cons_self) _ c hc).1
        rw [hnone, List.nil_append, ← List.append_nil inner] at hsame'
        obtain ⟨rfl, hitems⟩ := forall₂_of_areSpelledBy hinner hwhole hsome hsame'
        exact ⟨types, Ty.forall₂_isDenotedBy hitems (Ty.ofForms_eq_ok_iff.mp htypes), .none⟩
      · simp at hsame
  | array item ih =>
      obtain ⟨stem, hstem, hsame⟩ := hspelled
      rw [Ty.ofForm, map_eq_ok_iff] at hform
      obtain ⟨inner, hitem, rfl⟩ := hform
      obtain ⟨front, rfl, rfl⟩ := eq_of_append_eq_parenthesis (by decide) hsame
      obtain ⟨types, htypes, hwraps⟩ := ih hstem hitem
      exact ⟨types, htypes, hwraps.append (.array .none)⟩
  | fixedArray item count ih =>
      obtain ⟨stem, digits, hstem, hsize, hsame⟩ := hspelled
      rw [Ty.ofForm, map_eq_ok_iff] at hform
      obtain ⟨inner, hitem, rfl⟩ := hform
      have hback : ')' ∉ '[' :: (digits ++ [']']) := by
        intro hmember
        simp only [List.mem_cons, List.mem_append, List.not_mem_nil, or_false] at hmember
        rcases hmember with hopens | hdigit | hcloses
        · exact absurd hopens (by decide)
        · exact absurd (hsize.2.1 _ hdigit) (by decide)
        · exact absurd hcloses (by decide)
      obtain ⟨front, rfl, rfl⟩ := eq_of_append_eq_parenthesis hback hsame
      obtain ⟨types, htypes, hwraps⟩ := ih hstem hitem
      exact ⟨types, htypes, hwraps.append (.fixedArray hsize .none)⟩

theorem IsDelimited.of_mem_components
    {name type : String} {components : List Param} {suffix : List Char}
    (hdelimited : IsDelimited ⟨name, type, components⟩)
    (htuple : tupleSuffix? type = some suffix)
    (hmember : param ∈ components) :
    ∀ leaf ∈ param.leaves, isSelfContained leaf.toList = true := by
  intro leaf hleaf
  apply hdelimited
  unfold spliced
  rw [htuple]
  exact mem_leavesOf_iff.mpr ⟨param, hmember, hleaf⟩

theorem forall₂_declaredType?
    {texts : List String} {types : List Ty}
    (htexts : List.Forall₂ (fun param text => canonicalType param = .ok text) params texts)
    (htypes : List.Forall₂ Ty.IsDenotedBy types (texts.map String.toList))
    (hdepth : ∀ ty ∈ types, ty.tupleDepth ≤ TypeForm.depthLimit)
    (heach : ∀ param ∈ params, ∀ text ty, canonicalType param = .ok text →
      ty.IsDenotedBy text.toList → ty.tupleDepth ≤ TypeForm.depthLimit →
      declaredType? param = some ty) :
    List.Forall₂ (fun param ty => declaredType? param = some ty) params types := by
  induction htexts generalizing types with
  | nil =>
      cases htypes
      exact .nil
  | cons hfirst hothers ih =>
      cases htypes with
      | cons hdenoted htypesRest =>
          rw [List.forall_mem_cons] at hdepth heach
          exact .cons (heach.1 _ _ hfirst hdenoted hdepth.1)
            (ih htypesRest hdepth.2 heach.2)

/-- What the text of a parameter denotes is what the parameter declares. -/
theorem declaredType?_of_canonicalType
    {text : String}
    (htext : param.canonicalType = .ok text)
    (hdenoted : ty.IsDenotedBy text.toList)
    (hdepth : ty.tupleDepth ≤ TypeForm.depthLimit)
    (hdelimited : param.IsDelimited) :
    param.declaredType? = some ty := by
  induction param using paramInduction generalizing text ty with
  | mk name type components ih =>
      cases htuple : tupleSuffix? type with
      | none =>
          obtain ⟨hnone, rfl⟩ := (canonicalType_leaf_eq_ok_iff htuple).mp htext
          exact (declaredType?_leaf_eq_some_iff htuple).mpr
            ⟨hnone, Ty.ofText_eq_ok_iff.mpr ⟨hdenoted, hdepth⟩⟩
      | some suffix =>
          obtain ⟨-, hsome, texts, htexts, rfl⟩ := (canonicalType_tuple_eq_ok_iff htuple).mp htext
          have hleaves : ∀ param ∈ components, ∀ leaf ∈ param.leaves,
              isSelfContained leaf.toList = true :=
            fun param hmember => hdelimited.of_mem_components htuple hmember
          rw [canonicalTypes_eq_ok_iff] at htexts
          have hwhole : ∀ text ∈ texts.map String.toList, isSelfContained text = true := by
            rw [List.forall_mem_map]
            intro text hmember
            obtain ⟨component, hcomponent, htext⟩ := exists_left_of_forall₂ htexts hmember
            exact isSelfContained_of_canonicalType htext (hleaves component hcomponent)
          have hnonempty : texts.map String.toList ≠ [] := by
            rintro hnil
            rw [List.map_eq_nil_iff.mp hnil, List.forall₂_nil_right_iff] at htexts
            exact hsome htexts
          obtain ⟨form, hspelled, hform⟩ := hdenoted
          rw [toList_tupleText] at hspelled
          obtain ⟨types, htypes, hwraps⟩ :=
            exists_types_of_isSpelledBy hwhole hnonempty (by simpa using hspelled) hform
          rw [hwraps.tupleDepth_eq, Ty.tupleDepth] at hdepth
          have hshallow : ∀ ty ∈ types, ty.tupleDepth ≤ TypeForm.depthLimit :=
            (Ty.deepestTuple_le_iff types _).mp (by omega)
          have hdeclared := forall₂_declaredType? htexts htypes hshallow
            fun param hmember text ty htext hdenoted hdepth =>
              ih param hmember htext hdenoted hdepth
                fun leaf hleaf => hleaves param hmember leaf (mem_leaves_of_mem_spliced hleaf)
          exact (declaredType?_tuple_eq_some_iff htuple).mpr ⟨hsome, types, hdeclared, hwraps⟩

/-! ## Texts on their own -/

theorem ofText_of_mem_leaves
    {leaf : String}
    (hdeclared : param.declaredType? = some ty)
    (hleaf : leaf ∈ param.leaves) :
    ∃ own, Ty.ofText leaf = .ok own := by
  induction param using paramInduction generalizing ty with
  | mk name type components ih =>
      rw [leaves] at hleaf
      cases htuple : tupleSuffix? type with
      | none =>
          obtain ⟨-, hread⟩ := (declaredType?_leaf_eq_some_iff htuple).mp hdeclared
          rw [htuple] at hleaf
          rw [List.mem_singleton.mp hleaf]
          exact ⟨ty, hread⟩
      | some suffix =>
          obtain ⟨-, types, htypes, -⟩ := (declaredType?_tuple_eq_some_iff htuple).mp hdeclared
          rw [htuple] at hleaf
          obtain ⟨component, hcomponent, hown⟩ := mem_leavesOf_iff.mp hleaf
          obtain ⟨own, -, hdeclared⟩ := exists_left_of_forall₂ htypes.flip hcomponent
          exact ih component hcomponent hdeclared hown

theorem isDelimited_of_leaves
    (hleaves : ∀ leaf ∈ param.leaves, ∃ own, Ty.ofText leaf = .ok own) :
    param.IsDelimited := by
  intro leaf hleaf
  obtain ⟨own, hown⟩ := hleaves leaf (mem_leaves_of_mem_spliced hleaf)
  obtain ⟨⟨form, hspelled, -⟩, -⟩ := Ty.ofText_eq_ok_iff.mp hown
  exact isSelfContained_of_isSpelledBy hspelled

theorem declaredType?_of_ofParam
    {resolved : ResolvedParam}
    (hresolved : ResolvedParam.ofParam param = .ok resolved)
    (hdelimited : param.IsDelimited) :
    param.declaredType? = some resolved.ty := by
  obtain ⟨-, text, htext, hread⟩ := ofParam_eq_ok_iff.mp hresolved
  obtain ⟨hdenoted, hdepth⟩ := Ty.ofText_eq_ok_iff.mp hread
  exact declaredType?_of_canonicalType htext hdenoted hdepth hdelimited

end Param

/-! ## Interfaces -/

namespace InterfaceIndex

open Param

variable {interface : Interface} {descriptor : Descriptor}

theorem exists_ofParam_of_build
    {built : InterfaceIndex × List IndexedFunction} {param : Param}
    (hbuild : build interface = .ok built)
    (hmember : descriptor ∈ interface)
    (hkind : descriptor.kind ≠ .other)
    (hparam : param ∈ descriptor.inputs) :
    ∃ ty, ResolvedParam.ofParam param = .ok ⟨param.name, ty⟩ := by
  obtain ⟨index, replaced⟩ := built
  have hformed := (isIndexOf_of_buildWith hbuild).1
  obtain ⟨⟨name, ty⟩, hresolved⟩ := hformed.resolved descriptor hmember hkind param hparam
  obtain rfl : name = param.name := (ofParam_eq_ok_iff.mp hresolved).1
  exact ⟨ty, hresolved⟩

/--
The texts in the tuples of an accepted descriptor can all be read on their own exactly if
each of them is self-contained, and then every tuple has a field for each of its components.
-/
theorem build_reads_texts_apart
    (hmember : descriptor ∈ interface)
    (hkind : descriptor.kind ≠ .other) :
    (∀ built, build interface = .ok built → ∀ param ∈ descriptor.inputs,
      ((∀ leaf ∈ param.leaves, ∃ own, Ty.ofText leaf = .ok own) ↔ param.IsDelimited) ∧
        (param.IsDelimited → ∃ ty, param.declaredType? = some ty ∧
          ResolvedParam.ofParam param = .ok ⟨param.name, ty⟩)) ∧
      (∀ param ∈ descriptor.inputs, param.IsDelimited →
        (∃ leaf ∈ param.leaves, ∃ fault, Ty.ofText leaf = .error fault) →
        ∃ fault, build interface = .error fault) := by
  constructor
  · intro built hbuild param hparam
    obtain ⟨ty, hresolved⟩ := exists_ofParam_of_build hbuild hmember hkind hparam
    refine ⟨⟨isDelimited_of_leaves, ?_⟩, ?_⟩
    · intro hdelimited leaf hleaf
      exact ofText_of_mem_leaves (declaredType?_of_ofParam hresolved hdelimited) hleaf
    · intro hdelimited
      exact ⟨ty, declaredType?_of_ofParam hresolved hdelimited, hresolved⟩
  · intro param hparam hdelimited hmalformed
    obtain ⟨leaf, hleaf, fault, hfault⟩ := hmalformed
    cases hbuild : build interface with
    | error fault => exact ⟨fault, rfl⟩
    | ok built =>
        obtain ⟨ty, hresolved⟩ := exists_ofParam_of_build hbuild hmember hkind hparam
        obtain ⟨own, hown⟩ :=
          ofText_of_mem_leaves (declaredType?_of_ofParam hresolved hdelimited) hleaf
        rw [hfault] at hown
        cases hown

theorem build_reads_texts_apart_misspelled :
    ∃ fault, build [.constructor [⟨"order", "tuple[]",
      [.plain "owner" "address", .plain "amount" "uint257"]⟩]] = .error fault := by
  have hspliced : spliced ⟨"order", "tuple[]",
      [.plain "owner" "address", .plain "amount" "uint257"]⟩ = ["address", "uint257"] := rfl
  have hleaves : leaves ⟨"order", "tuple[]",
      [.plain "owner" "address", .plain "amount" "uint257"]⟩ = ["address", "uint257"] := rfl
  apply (build_reads_texts_apart List.mem_cons_self (by simp [Descriptor.constructor])).2 _
    List.mem_cons_self
  · unfold IsDelimited
    rw [hspliced, List.forall_mem_cons, List.forall_mem_singleton]
    exact ⟨rfl, rfl⟩
  · exact ⟨"uint257", by simp [hleaves], .badSize "uint257", rfl⟩

/-- The one text of this tuple is no type, and the tuple gets a field on each side of its comma. -/
theorem build_reads_comma_in_text :
    (∃ built, build [.function "order" [⟨"pair", "tuple", [.plain "both" "uint256,bool"]⟩]] =
      .ok built) ∧
    ResolvedParam.ofParam ⟨"pair", "tuple", [.plain "both" "uint256,bool"]⟩ =
      .ok ⟨"pair", .tuple [.uint Width.full, .bool]⟩ ∧
    "uint256,bool" ∈ leaves ⟨"pair", "tuple", [.plain "both" "uint256,bool"]⟩ ∧
    Ty.ofText "uint256,bool" = .error .malformed := by
  have hpair : ResolvedParam.ofParam ⟨"pair", "tuple", [.plain "both" "uint256,bool"]⟩ =
      .ok ⟨"pair", .tuple [.uint Width.full, .bool]⟩ := rfl
  have hleaves : leaves ⟨"pair", "tuple", [.plain "both" "uint256,bool"]⟩ = ["uint256,bool"] := rfl
  have hinputs : ResolvedParam.ofParams [⟨"pair", "tuple", [.plain "both" "uint256,bool"]⟩] =
      .ok [⟨"pair", .tuple [.uint Width.full, .bool]⟩] := by
    rw [ResolvedParam.ofParams, hpair]
    rfl
  have hname : functionName? (.function "order"
      [⟨"pair", "tuple", [.plain "both" "uint256,bool"]⟩]) = some "order" := by
    decide
  exact ⟨⟨_, build_function hname hinputs⟩, hpair, by simp [hleaves], rfl⟩

end InterfaceIndex
end MintWatch

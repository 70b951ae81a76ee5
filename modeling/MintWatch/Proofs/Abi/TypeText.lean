import Mathlib
import MintWatch.Proofs.Abi.TypeSpelling
import MintWatch.Proofs.Fallible
/-!
# Texts of types

A text denotes a type if it spells a form whose names resolve to the type.  A type text is
read as a type exactly if it denotes the type and has few enough tuples inside each other.
What denotes the parts of an array or a tuple is put together to what denotes the whole.
-/

namespace MintWatch
namespace Abi
namespace Ty

mutual

/-- The number of tuples that are open inside each other in a type. -/
def tupleDepth : Ty → Nat
  | .array item => tupleDepth item
  | .fixedArray item _ => tupleDepth item
  | .tuple items => 1 + deepestTuple items
  | _ => 0

def deepestTuple : List Ty → Nat
  | [] => 0
  | ty :: rest => max (tupleDepth ty) (deepestTuple rest)

end

theorem deepestTuple_le_iff
    (types : List Ty) (limit : Nat) :
    deepestTuple types ≤ limit ↔ ∀ ty ∈ types, ty.tupleDepth ≤ limit :=
  forall_iff_of_cons (fun types => deepestTuple types ≤ limit) (Nat.zero_le limit)
    (fun ty rest => by rw [deepestTuple, Nat.max_le]) types

/-- Whether characters denote a type. -/
def IsDenotedBy (ty : Ty) (chars : List Char) : Prop :=
  ∃ form : TypeForm, form.IsSpelledBy chars ∧ ofForm form = .ok ty

theorem ofForms_eq_ok_iff
    {forms : List TypeForm} {types : List Ty} :
    ofForms forms = .ok types ↔ List.Forall₂ (fun form ty => ofForm form = .ok ty) forms types := by
  apply forall₂_iff_of_cons (fun forms types => ofForms forms = .ok types)
  · simp [ofForms, eq_comm]
  · intro form rest types
    rw [ofForms]
    cases ofForm form <;> simp [map_eq_ok_iff]

theorem tupleDepth_of_sized
    {size : List Char} {make : Nat → Option Ty} {fault : TypeFault} {ty : Ty}
    (hmake : ∀ number one, make number = some one → one.tupleDepth = 0)
    (hsized :
      (match (sizeOf? size).bind make with
        | some one => Except.ok one
        | none => Except.error fault) = .ok ty) :
    ty.tupleDepth = 0 := by
  split at hsized
  · rename_i one hone
    obtain ⟨number, -, hnumber⟩ := Option.bind_eq_some_iff.mp hone
    rw [← Except.ok.inj hsized]
    exact hmake number one hnumber
  · cases hsized

/-- A name stands for one of the types that have no parts. -/
theorem tupleDepth_of_ofName?
    {name : String} {ty : Ty}
    (hname : ofName? name = .ok ty) :
    ty.tupleDepth = 0 := by
  unfold ofName? at hname
  dsimp only at hname
  split_ifs at hname
  any_goals
    rw [← Except.ok.inj hname]
    rfl
  split at hname
  · apply tupleDepth_of_sized _ hname
    simp [tupleDepth]
  · split at hname
    · apply tupleDepth_of_sized _ hname
      simp [tupleDepth]
    · split at hname
      · apply tupleDepth_of_sized _ hname
        simp [tupleDepth]
      · cases hname

theorem deepestTuple_of_forall₂
    {forms : List TypeForm} {types : List Ty}
    (htypes : List.Forall₂ (fun form ty => ofForm form = .ok ty) forms types)
    (hdepth : ∀ form ∈ forms, ∀ ty, ofForm form = .ok ty → ty.tupleDepth = form.depth) :
    deepestTuple types = TypeForm.deepest forms := by
  induction htypes with
  | nil => rfl
  | cons hfirst hothers ih =>
      rw [List.forall_mem_cons] at hdepth
      rw [deepestTuple, TypeForm.deepest, hdepth.1 _ hfirst, ih hdepth.2]

theorem tupleDepth_of_ofForm
    {form : TypeForm} {ty : Ty}
    (hform : ofForm form = .ok ty) :
    ty.tupleDepth = form.depth := by
  induction form using TypeForm.formInduction generalizing ty with
  | named name =>
      rw [ofForm] at hform
      exact tupleDepth_of_ofName? hform
  | tuple items ih =>
      rw [ofForm, map_eq_ok_iff] at hform
      obtain ⟨types, htypes, rfl⟩ := hform
      rw [tupleDepth, TypeForm.depth,
        deepestTuple_of_forall₂ (ofForms_eq_ok_iff.mp htypes)
          fun form hmember ty => ih form hmember]
  | array item ih =>
      rw [ofForm, map_eq_ok_iff] at hform
      obtain ⟨inner, hinner, rfl⟩ := hform
      rw [tupleDepth, TypeForm.depth, ih hinner]
  | fixedArray item count ih =>
      rw [ofForm, map_eq_ok_iff] at hform
      obtain ⟨inner, hinner, rfl⟩ := hform
      rw [tupleDepth, TypeForm.depth, ih hinner]

theorem ofText_eq_ok_iff
    {text : String} {ty : Ty} :
    ofText text = .ok ty ↔
      ty.IsDenotedBy text.toList ∧ ty.tupleDepth ≤ TypeForm.depthLimit := by
  unfold ofText
  constructor
  · intro hread
    split at hread
    · rename_i form hform
      obtain ⟨hspelled, hdepth⟩ := TypeForm.ofText?_eq_some_iff.mp hform
      rw [tupleDepth_of_ofForm hread]
      exact ⟨⟨form, hspelled, hread⟩, hdepth⟩
    · cases hread
  · intro hdenoted
    obtain ⟨⟨form, hspelled, hform⟩, hdepth⟩ := hdenoted
    rw [tupleDepth_of_ofForm hform] at hdepth
    rw [TypeForm.ofText?_eq_some_iff.mpr ⟨hspelled, hdepth⟩]
    exact hform

theorem IsDenotedBy.array
    {item : Ty} {chars : List Char}
    (hitem : item.IsDenotedBy chars) :
    (Ty.array item).IsDenotedBy (chars ++ ['[', ']']) := by
  obtain ⟨form, hspelled, hform⟩ := hitem
  exact ⟨.array form, ⟨chars, hspelled, rfl⟩, by rw [ofForm, hform]; rfl⟩

theorem IsDenotedBy.fixedArray
    {item : Ty} {chars digits : List Char} {count : Count}
    (hitem : item.IsDenotedBy chars)
    (hsize : TypeForm.IsSize digits count) :
    (Ty.fixedArray item count).IsDenotedBy (chars ++ '[' :: (digits ++ [']'])) := by
  obtain ⟨form, hspelled, hform⟩ := hitem
  exact ⟨.fixedArray form count, ⟨chars, digits, hspelled, hsize, rfl⟩, by rw [ofForm, hform]; rfl⟩

theorem areSpelledBy_intercalate
    {forms : List TypeForm} {texts : List (List Char)}
    (hspelled : List.Forall₂ TypeForm.IsSpelledBy forms texts)
    (hsome : texts ≠ []) :
    TypeForm.AreSpelledBy forms (List.intercalate [','] texts ++ [')']) := by
  have hgap : TypeForm.IsGap [] := by simp [TypeForm.IsGap]
  induction hspelled with
  | nil => exact absurd rfl hsome
  | @cons form text forms texts hfirst hothers ih =>
      cases texts with
      | nil =>
          cases hothers
          exact ⟨text, [], hfirst, hgap, Or.inl ⟨rfl, by simp⟩⟩
      | cons next texts =>
          have hinner := ih (List.cons_ne_nil next texts)
          exact ⟨text, [], hfirst, hgap, Or.inr ⟨_, hinner, by simp⟩⟩

theorem exists_forms_of_isDenotedBy
    {types : List Ty} {texts : List (List Char)}
    (htexts : List.Forall₂ IsDenotedBy types texts) :
    ∃ forms, List.Forall₂ TypeForm.IsSpelledBy forms texts ∧
      List.Forall₂ (fun form ty => ofForm form = .ok ty) forms types := by
  induction htexts with
  | nil => exact ⟨[], .nil, .nil⟩
  | cons hfirst hothers ih =>
      obtain ⟨form, hspelled, hform⟩ := hfirst
      obtain ⟨forms, hspelledAll, hforms⟩ := ih
      exact ⟨form :: forms, .cons hspelled hspelledAll, .cons hform hforms⟩

theorem forall₂_isDenotedBy
    {forms : List TypeForm} {types : List Ty} {texts : List (List Char)}
    (hspelled : List.Forall₂ TypeForm.IsSpelledBy forms texts)
    (hforms : List.Forall₂ (fun form ty => ofForm form = .ok ty) forms types) :
    List.Forall₂ IsDenotedBy types texts := by
  induction hspelled generalizing types with
  | nil =>
      cases hforms
      exact .nil
  | cons hfirst hothers ih =>
      cases hforms with
      | cons hform hformsRest => exact .cons ⟨_, hfirst, hform⟩ (ih hformsRest)

theorem IsDenotedBy.tuple
    {types : List Ty} {texts : List (List Char)}
    (htexts : List.Forall₂ IsDenotedBy types texts)
    (hsome : texts ≠ []) :
    (Ty.tuple types).IsDenotedBy ('(' :: (List.intercalate [','] texts ++ [')'])) := by
  obtain ⟨forms, hspelled, hforms⟩ := exists_forms_of_isDenotedBy htexts
  refine ⟨.tuple forms, ?_, ?_⟩
  · exact ⟨['('], [], _, Or.inl rfl, by simp [TypeForm.IsGap],
      areSpelledBy_intercalate hspelled hsome, rfl⟩
  · rw [ofForm, ofForms_eq_ok_iff.mpr hforms]
    rfl

end Ty
end Abi
end MintWatch

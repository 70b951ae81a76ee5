import Mathlib
import MintWatch.Interface.Document
import MintWatch.Proofs.Interface.DeclaredType
import MintWatch.Proofs.Json.Grammar
/-!
# Texts that present an interface

A text presents an interface if the value written in it does, on its own or as the member
`abi` of an artifact.  Descriptors and parameters are objects there: their members stand in
any order and among others that mean nothing, and one that would hold its default may be left
out.  From such a text exactly that interface is read.  The artifact is taken off once: what
is an artifact again inside it is no interface.
-/

namespace MintWatch

namespace Json

variable {members : List (String × Json)} {key : String} {holds : Json → Prop} {isDefault : Prop}

/-- Whether a member holds a value of some sort, or is left out and that means the default. -/
def HasMember (members : List (String × Json)) (key : String) (holds : Json → Prop)
    (isDefault : Prop) : Prop :=
  (∃ value, (key, value) ∈ members ∧ holds value) ∨ isDefault ∧ LeaveOut members key

theorem HasMember.find?
    (hdistinct : HaveDistinctKeys members)
    (hmember : HasMember members key holds isDefault) :
    (∃ value, find? key members = some value ∧ holds value) ∨
      isDefault ∧ find? key members = none := by
  rcases hmember with ⟨value, hvalue, hholds⟩ | ⟨hdefault, hleft⟩
  · exact .inl ⟨value, (find?_eq_some_iff_mem hdistinct).mpr hvalue, hholds⟩
  · exact .inr ⟨hdefault, find?_eq_none_iff_leaveOut.mpr hleft⟩

/-- Whether a value is an array of what presents some items, in their order. -/
def Lists {α : Type} (presents : α → Json → Prop) (items : List α) (value : Json) : Prop :=
  ∃ values, value = .array values ∧ List.Forall₂ presents items values

end Json

namespace Param

mutual

/-- Whether a value is an object with the members of a parameter. -/
def IsPresentedBy : Param → Json → Prop
  | ⟨name, type, components⟩, value =>
    ∃ members, value = .object members ∧ Json.HaveDistinctKeys members ∧
      Json.HasMember members "name" (· = .string name) (name = "") ∧
      ("type", .string type) ∈ members ∧
      Json.HasMember members "components"
        (fun listed => ∃ values, listed = .array values ∧ ArePresentedBy components values)
        (components = [])

def ArePresentedBy : List Param → List Json → Prop
  | [], values => values = []
  | param :: params, values =>
    ∃ value others, IsPresentedBy param value ∧ ArePresentedBy params others ∧
      value :: others = values

end

theorem arePresentedBy_iff
    {params : List Param} {values : List Json} :
    ArePresentedBy params values ↔ List.Forall₂ IsPresentedBy params values := by
  apply forall₂_iff_of_cons ArePresentedBy
  · intro values
    rw [ArePresentedBy]
  · intro param rest values
    rw [ArePresentedBy]

theorem isPresentedBy_iff
    {name type : String} {components : List Param} {value : Json} :
    IsPresentedBy ⟨name, type, components⟩ value ↔
      ∃ members, value = .object members ∧ Json.HaveDistinctKeys members ∧
        Json.HasMember members "name" (· = .string name) (name = "") ∧
        ("type", .string type) ∈ members ∧
        Json.HasMember members "components" (Json.Lists IsPresentedBy components)
          (components = []) := by
  rw [IsPresentedBy]
  simp only [arePresentedBy_iff]
  rfl

theorem componentsOfMembers?_eq
    (members : List (String × Json)) :
    componentsOfMembers? members =
      ((Json.find? "components" members).map listOfJson?).getD (some []) := by
  induction members with
  | nil => simp [componentsOfMembers?, Json.find?]
  | cons member rest ih =>
      obtain ⟨key, value⟩ := member
      rw [componentsOfMembers?]
      by_cases hkey : key = "components"
      · simp [hkey, Json.find?]
      · simp [hkey, Json.find?, ih]

theorem nameOfJson?_of_hasMember
    {members : List (String × Json)} {name : String}
    (hdistinct : Json.HaveDistinctKeys members)
    (hname : Json.HasMember members "name" (· = .string name) (name = "")) :
    nameOfJson? (Json.find? "name" members) = some name := by
  rcases hname.find? hdistinct with ⟨_, hfound, rfl⟩ | ⟨rfl, hnone⟩
  · rw [hfound, nameOfJson?]
  · rw [hnone, nameOfJson?]

theorem listOfJson?_of_lists
    {params : List Param} {listed : Json}
    (hlisted : Json.Lists IsPresentedBy params listed)
    (hparams : ∀ param ∈ params, ∀ value, IsPresentedBy param value →
      ofJson? value = some param) :
    listOfJson? listed = some params := by
  obtain ⟨values, rfl, hvalues⟩ := hlisted
  rw [listOfJson?]
  induction hvalues with
  | nil => rfl
  | cons hparam _ ih =>
      rw [List.forall_mem_cons] at hparams
      rw [itemsOfJson?, hparams.1 _ hparam, ih hparams.2]
      rfl

theorem ofJson?_of_isPresentedBy
    (param : Param) :
    ∀ value, IsPresentedBy param value → ofJson? value = some param := by
  induction param using paramInduction with
  | mk name type components ih =>
      intro value hpresented
      obtain ⟨members, rfl, hdistinct, hname, htype, hcomponents⟩ :=
        isPresentedBy_iff.mp hpresented
      have hread : componentsOfMembers? members = some components := by
        rw [componentsOfMembers?_eq]
        rcases hcomponents.find? hdistinct with ⟨listed, hfound, hlisted⟩ | ⟨rfl, hnone⟩
        · rw [hfound, Option.map_some, Option.getD_some]
          exact listOfJson?_of_lists hlisted ih
        · rw [hnone]
          rfl
      rw [ofJson?, nameOfJson?_of_hasMember hdistinct hname,
        (Json.find?_eq_some_iff_mem hdistinct).mpr htype, hread]
      rfl

end Param

/-! ## Descriptors and interfaces -/

/-- Whether a tag says this kind: any tag but two says that it is another. -/
def DescriptorKind.IsTag : DescriptorKind → String → Prop
  | .function, tag => tag = "function"
  | .constructor, tag => tag = "constructor"
  | .other, tag => tag ≠ "function" ∧ tag ≠ "constructor"

theorem DescriptorKind.ofTag_of_isTag
    {kind : DescriptorKind} {tag : String}
    (htag : kind.IsTag tag) :
    DescriptorKind.ofTag tag = kind := by
  cases kind with
  | function =>
      obtain rfl : tag = "function" := htag
      rfl
  | constructor =>
      obtain rfl : tag = "constructor" := htag
      rfl
  | other =>
      obtain ⟨hfunction, hconstructor⟩ : tag ≠ "function" ∧ tag ≠ "constructor" := htag
      rw [DescriptorKind.ofTag, if_neg hfunction, if_neg hconstructor]

namespace Descriptor

/-- Whether a value is an object with the members of a descriptor. -/
def IsPresentedBy (descriptor : Descriptor) (value : Json) : Prop :=
  ∃ members, value = .object members ∧ Json.HaveDistinctKeys members ∧
    Json.HasMember members "type"
      (fun value => ∃ tag, value = .string tag ∧ descriptor.kind.IsTag tag)
      (descriptor.kind = .function) ∧
    Json.HasMember members "name" (· = descriptor.name.elim .null .string)
      (descriptor.name = none) ∧
    Json.HasMember members "inputs" (Json.Lists Param.IsPresentedBy descriptor.inputs)
      (descriptor.inputs = [])

variable {members : List (String × Json)} {descriptor : Descriptor}

theorem ofJson?_of_isPresentedBy
    {value : Json}
    (hpresented : descriptor.IsPresentedBy value) :
    ofJson? value = some descriptor := by
  obtain ⟨members, rfl, hdistinct, hkind, hname, hinputs⟩ := hpresented
  have hkind : ((Json.find? "type" members).map kindOfJson?).getD (some .function) =
      some descriptor.kind := by
    rcases hkind.find? hdistinct with ⟨_, hfound, tag, rfl, htag⟩ | ⟨hdefault, hnone⟩
    · rw [hfound, Option.map_some, Option.getD_some, kindOfJson?,
        DescriptorKind.ofTag_of_isTag htag]
    · rw [hnone, hdefault]
      rfl
  have hname : ((Json.find? "name" members).map nameOfJson?).getD (some none) =
      some descriptor.name := by
    rcases hname.find? hdistinct with ⟨_, hfound, rfl⟩ | ⟨hdefault, hnone⟩
    · rw [hfound, Option.map_some, Option.getD_some]
      cases descriptor.name <;> rfl
    · rw [hnone, hdefault]
      rfl
  have hinputs : ((Json.find? "inputs" members).map Param.listOfJson?).getD (some []) =
      some descriptor.inputs := by
    rcases hinputs.find? hdistinct with ⟨_, hfound, hlisted⟩ | ⟨hdefault, hnone⟩
    · rw [hfound, Option.map_some, Option.getD_some]
      exact Param.listOfJson?_of_lists hlisted fun param _ =>
        Param.ofJson?_of_isPresentedBy param
    · rw [hnone, hdefault]
      rfl
  rw [ofJson?, ofParts?, hkind, hname, hinputs]
  rfl

end Descriptor

namespace Interface

/-- Whether a value presents an interface, on its own or as the member of an artifact. -/
def IsPresentedBy (interface : Interface) (value : Json) : Prop :=
  Json.Lists Descriptor.IsPresentedBy interface value ∨
    ∃ members listed, value = .object members ∧ Json.HaveDistinctKeys members ∧
      ("abi", listed) ∈ members ∧ Json.Lists Descriptor.IsPresentedBy interface listed

def IsPresentedIn (interface : Interface) (text : String) : Prop :=
  ∃ value, Json.IsWrittenAs text value ∧ IsPresentedBy interface value

theorem ofBareJson_of_lists
    {interface : Interface} {value : Json}
    (hlisted : Json.Lists Descriptor.IsPresentedBy interface value) :
    ofBareJson value = .ok interface := by
  obtain ⟨values, rfl, hvalues⟩ := hlisted
  have hitems : itemsOfJson? values = some interface := by
    induction hvalues with
    | nil => rfl
    | cons hdescriptor _ ih =>
        rw [itemsOfJson?, Descriptor.ofJson?_of_isPresentedBy hdescriptor, ih]
        rfl
  rw [ofBareJson, hitems]

theorem ofJson_of_isPresentedBy
    {interface : Interface} {value : Json}
    (hpresented : IsPresentedBy interface value) :
    ofJson value = .ok interface := by
  rcases hpresented with hbare | ⟨members, listed, rfl, hdistinct, habi, hlisted⟩
  · have hread := ofBareJson_of_lists hbare
    obtain ⟨values, rfl, _⟩ := hbare
    exact hread
  · rw [ofJson, (Json.find?_eq_some_iff_mem hdistinct).mpr habi]
    exact ofBareJson_of_lists hlisted

theorem read_of_isWrittenAs
    {text : String} {value : Json}
    (hwritten : Json.IsWrittenAs text value) :
    read text = ofJson value := by
  rw [read, Json.read?_eq_some_iff.mpr hwritten]

theorem read_of_isPresentedIn
    {interface : Interface} {text : String}
    (hpresented : IsPresentedIn interface text) :
    read text = .ok interface := by
  obtain ⟨value, hwritten, hvalue⟩ := hpresented
  rw [read_of_isWrittenAs hwritten, ofJson_of_isPresentedBy hvalue]

theorem read_of_wrapped_artifact
    {text : String} {members inner : List (String × Json)}
    (hwritten : Json.IsWrittenAs text (.object members))
    (habi : ("abi", .object inner) ∈ members) :
    read text = .error .unreadable := by
  have hdistinct : Json.HaveDistinctKeys members := hwritten.haveDistinctKeys
  rw [read_of_isWrittenAs hwritten, ofJson, (Json.find?_eq_some_iff_mem hdistinct).mpr habi]
  rfl

end Interface
end MintWatch

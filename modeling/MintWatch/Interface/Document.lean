import MintWatch.Json.Reader
import MintWatch.Interface.Descriptor
/-!
# Interface documents

An interface is written as a JSON array of descriptors, bare or as the member `abi`
of an artifact.  Descriptors and parameters are objects, or arrays that give the
members by position; members with a default may be missing and unknown ones are
ignored.
-/

namespace MintWatch

namespace Param

def nameOfJson? : Option Json → Option String
  | none => some ""
  | some (.string name) => some name
  | some _ => none

mutual

def ofJson? : Json → Option Param
  | .object members =>
    match nameOfJson? (Json.find? "name" members), (Json.find? "type" members).bind Json.text?,
      componentsOfMembers? members with
    | some name, some type, some components => some ⟨name, type, components⟩
    | _, _, _ => none
  | .array [.string name, .string type] => some ⟨name, type, []⟩
  | .array [.string name, .string type, components] =>
    (listOfJson? components).map fun components => ⟨name, type, components⟩
  | _ => none

/-- The components among the members of a parameter, none if they are not given. -/
def componentsOfMembers? : List (String × Json) → Option (List Param)
  | [] => some []
  | (key, value) :: rest =>
    if key = "components" then listOfJson? value else componentsOfMembers? rest

def listOfJson? : Json → Option (List Param)
  | .array items => itemsOfJson? items
  | _ => none

def itemsOfJson? : List Json → Option (List Param)
  | [] => some []
  | item :: rest =>
    match ofJson? item with
    | none => none
    | some param => (itemsOfJson? rest).map (param :: ·)

end

end Param

namespace Descriptor

/-- The kind a value stands for: a tag, or an object with the tag as its only key. -/
def kindOfJson? : Json → Option DescriptorKind
  | .string tag => some (.ofTag tag)
  | .object [(tag, .null)] => some (.ofTag tag)
  | _ => none

def nameOfJson? : Json → Option (Option String)
  | .null => some none
  | .string name => some (some name)
  | _ => none

/-- A descriptor from its members, each of which may be missing. -/
def ofParts? (kind name inputs : Option Json) : Option Descriptor := do
  let kind ← (kind.map kindOfJson?).getD (some .function)
  let name ← (name.map nameOfJson?).getD (some none)
  let inputs ← (inputs.map Param.listOfJson?).getD (some [])
  return ⟨kind, name, inputs⟩

def ofJson? : Json → Option Descriptor
  | .object members =>
    ofParts? (Json.find? "type" members) (Json.find? "name" members) (Json.find? "inputs" members)
  | .array [] => ofParts? none none none
  | .array [kind] => ofParts? (some kind) none none
  | .array [kind, name] => ofParts? (some kind) (some name) none
  | .array [kind, name, inputs] => ofParts? (some kind) (some name) (some inputs)
  | _ => none

end Descriptor

namespace Interface

def itemsOfJson? : List Json → Option Interface
  | [] => some []
  | item :: rest =>
    match Descriptor.ofJson? item with
    | none => none
    | some descriptor => (itemsOfJson? rest).map (descriptor :: ·)

def ofBareJson : Json → Except InterfaceFault Interface
  | .array items =>
    match itemsOfJson? items with
    | some interface => .ok interface
    | none => .error .unreadable
  | _ => .error .unreadable

/-- The interface a value or, if it is an artifact, its member `abi` stands for. -/
def ofJson : Json → Except InterfaceFault Interface
  | .object members =>
    match Json.find? "abi" members with
    | some value => ofBareJson value
    | none => .error .noAbiField
  | value => ofBareJson value

def read (text : String) : Except InterfaceFault Interface :=
  match Json.read? text with
  | some value => ofJson value
  | none => .error .unreadable

end Interface
end MintWatch

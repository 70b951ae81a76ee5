import MintWatch.Abi.TypeGrammar
import MintWatch.Interface.Param
/-!
# Interfaces

An interface lists descriptors.  Functions and the constructor take part in
decoding; all other entries (events, errors and the like) are kept and ignored.
-/

namespace MintWatch

inductive DescriptorKind where
  | function
  | constructor
  | other
deriving DecidableEq

def DescriptorKind.ofTag (tag : String) : DescriptorKind :=
  if tag = "function" then .function
  else if tag = "constructor" then .constructor
  else .other

def DescriptorKind.name : DescriptorKind → String
  | .function => "function"
  | .constructor => "constructor"
  | .other => "other"

structure Descriptor where
  kind : DescriptorKind
  name : Option String
  inputs : List Param

namespace Descriptor

def function (name : String) (inputs : List Param) : Descriptor :=
  ⟨.function, some name, inputs⟩

def constructor (inputs : List Param) : Descriptor :=
  ⟨.constructor, none, inputs⟩

def event (name : String) (inputs : List Param) : Descriptor :=
  ⟨.other, some name, inputs⟩

end Descriptor

abbrev Interface := List Descriptor

inductive InterfaceFault where
  /-- The text is not JSON, or not of the shape of an interface. -/
  | unreadable
  | noAbiField
  | namelessFunction
  | secondConstructor
  | expansion (fault : ExpansionFault)
  | badType (name type : String) (fault : Abi.TypeFault)
deriving DecidableEq

def InterfaceFault.message : InterfaceFault → String
  | .unreadable => "unreadable document"
  | .noAbiField => "artifact has no `abi` field"
  | .namelessFunction => "function descriptor without a name"
  | .secondConstructor => "interface declares more than one constructor"
  | .expansion fault => fault.message
  | .badType name type fault =>
    "parameter `" ++ name ++ "` has unparseable type `" ++ type ++ "`: " ++ fault.message

end MintWatch

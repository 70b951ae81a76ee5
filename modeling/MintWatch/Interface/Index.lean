import MintWatch.Abi.Address
import MintWatch.Interface.Descriptor
import MintWatch.Log
import MintWatch.Text.Characters
/-!
# The selector index

Calldata names the function it calls by a selector of four bytes, the start of the
hash of the function's signature.  The index finds functions by selector and knows
the constructor.  Indexing stops at the first descriptor that is malformed.  The
hash is a parameter: what the index holds depends on it only through the selectors.
-/

namespace MintWatch

/-- The four bytes that name a function in calldata. -/
abbrev Selector := Octets 4

def Selector.ofSignature (signature : String) : Selector :=
  (Keccak.hashText signature).take 4 (by decide)

structure ResolvedParam where
  name : String
  ty : Abi.Ty

namespace ResolvedParam

def kind (param : ResolvedParam) : String :=
  param.ty.name

/-- Resolves a declared parameter: its canonical type has to denote a type. -/
def ofParam (param : Param) : Except InterfaceFault ResolvedParam :=
  match param.canonicalType with
  | .error fault => .error (.expansion fault)
  | .ok text =>
    match Abi.Ty.ofText text with
    | .error fault => .error (.badType param.name text fault)
    | .ok ty => .ok ⟨param.name, ty⟩

def ofParams : List Param → Except InterfaceFault (List ResolvedParam)
  | [] => .ok []
  | param :: rest =>
    match ofParam param with
    | .error fault => .error fault
    | .ok resolved => (ofParams rest).map (resolved :: ·)

end ResolvedParam

def signatureText (name : String) (inputs : List ResolvedParam) : String :=
  name ++ "(" ++ String.intercalate "," (inputs.map ResolvedParam.kind) ++ ")"

structure IndexedFunction where
  selector : Selector
  name : String
  inputs : List ResolvedParam

def IndexedFunction.signature (function : IndexedFunction) : String :=
  signatureText function.name function.inputs

structure InterfaceIndex where
  functions : List IndexedFunction
  constructor? : Option (List ResolvedParam)

namespace InterfaceIndex

def empty : InterfaceIndex :=
  ⟨[], none⟩

def lookup (index : InterfaceIndex) (selector : Selector) : Option IndexedFunction :=
  index.functions.find? fun function => function.selector = selector

def size (index : InterfaceIndex) : Nat :=
  index.functions.length

/-- Adds a function in the place of any that has its selector. -/
def insert (index : InterfaceIndex) (function : IndexedFunction) : InterfaceIndex :=
  { index with
    functions := function :: index.functions.filter fun other => other.selector ≠ function.selector }

def functionName? (descriptor : Descriptor) : Option String :=
  match descriptor.name.map Text.trim with
  | none => none
  | some name => if name.isEmpty then none else some name

def functionOf (hash : String → Selector) (descriptor : Descriptor) :
    Except InterfaceFault IndexedFunction :=
  match functionName? descriptor with
  | none => .error .namelessFunction
  | some name =>
    (ResolvedParam.ofParams descriptor.inputs).map fun inputs =>
      ⟨hash (signatureText name inputs), name, inputs⟩

/-- Adds the entries of descriptors in order; also returns the functions that were replaced. -/
def extend (hash : String → Selector) (index : InterfaceIndex) :
    List Descriptor → Except InterfaceFault (InterfaceIndex × List IndexedFunction)
  | [] => .ok (index, [])
  | descriptor :: rest =>
    match descriptor.kind with
    | .function =>
      match functionOf hash descriptor with
      | .error fault => .error fault
      | .ok function =>
        (extend hash (index.insert function) rest).map fun built =>
          (built.1, (index.lookup function.selector).toList ++ built.2)
    | .constructor =>
      if index.constructor?.isSome then .error .secondConstructor
      else
        match ResolvedParam.ofParams descriptor.inputs with
        | .error fault => .error fault
        | .ok inputs => extend hash { index with constructor? := some inputs } rest
    | .other => extend hash index rest

def buildWith (hash : String → Selector) (interface : Interface) :
    Except InterfaceFault (InterfaceIndex × List IndexedFunction) :=
  extend hash empty interface

def build (interface : Interface) :
    Except InterfaceFault (InterfaceIndex × List IndexedFunction) :=
  buildWith Selector.ofSignature interface

end InterfaceIndex

def IndexedFunction.replacedEvent (function : IndexedFunction) : LogEvent :=
  .warn "selector collision, keeping the later function"
    [("selector", function.selector.hex), ("replaced", function.signature)]

end MintWatch

/-!
# Declared parameters

A parameter declares its type as a text.  A tuple is declared as `tuple`, with array
suffixes after it, and lists its components.  The canonical type of a parameter is
one text in which every tuple is written out as its components in parentheses.
-/

namespace MintWatch

structure Param where
  name : String
  type : String
  components : List Param
deriving Inhabited

inductive ExpansionFault where
  /-- Only tuples have components. -/
  | unexpectedComponents (name type : String)
  /-- A tuple's type is `tuple` and array suffixes. -/
  | malformedTuple (name type : String)
  /-- A tuple has at least one component. -/
  | noComponents (name : String)
deriving DecidableEq

def ExpansionFault.message : ExpansionFault → String
  | .unexpectedComponents name type =>
    "parameter `" ++ name ++ "` of type `" ++ type ++ "` has tuple components"
  | .malformedTuple name type =>
    "parameter `" ++ name ++ "` has malformed tuple type `" ++ type ++ "`"
  | .noComponents name => "tuple parameter `" ++ name ++ "` has no components"

mutual

def isArraySuffix : List Char → Bool
  | [] => true
  | '[' :: rest => closesBracket rest
  | _ => false

def closesBracket : List Char → Bool
  | [] => false
  | ']' :: rest => isArraySuffix rest
  | c :: rest => c.isDigit && closesBracket rest

end

def tupleSuffix? (type : String) : Option (List Char) :=
  match type.toList with
  | 't' :: 'u' :: 'p' :: 'l' :: 'e' :: suffix => some suffix
  | _ => none

namespace Param

def plain (name type : String) : Param :=
  ⟨name, type, []⟩

mutual

/-- The canonical type, or the first fault: of the parameter itself, then of its components. -/
def canonicalType : Param → Except ExpansionFault String
  | ⟨name, type, components⟩ =>
    match tupleSuffix? type with
    | none =>
      if components.isEmpty then .ok type else .error (.unexpectedComponents name type)
    | some suffix =>
      if !isArraySuffix suffix then .error (.malformedTuple name type)
      else if components.isEmpty then .error (.noComponents name)
      else
        (canonicalTypes components).map fun inner =>
          "(" ++ String.intercalate "," inner ++ ")" ++ String.ofList suffix

def canonicalTypes : List Param → Except ExpansionFault (List String)
  | [] => .ok []
  | param :: rest =>
    match canonicalType param with
    | .error fault => .error fault
    | .ok text => (canonicalTypes rest).map (text :: ·)

end

end Param
end MintWatch

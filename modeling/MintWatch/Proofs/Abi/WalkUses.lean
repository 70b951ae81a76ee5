import Mathlib
import MintWatch.Proofs.Abi.Walks
/-!
# What the check uses

The check of words computes the places of heads, tails and items, cuts byte strings there,
and computes the sizes of heads, all with numbers of 64 bits.  The walk below is the check,
keeping in order all that it uses numbers for up to where it ends; forgetting the uses gives
the check back.  A place that is looked up is only ever refused, while bytes that are cut
off or taken directly have to be there.
-/

namespace MintWatch
namespace Abi

/-! ## Uses of numbers -/

/-- What a position is for. -/
inductive Role where
  /-- The head of a value in a list. -/
  | head
  /-- What an offset leads to. -/
  | tail
  /-- Where positions start anew: behind the length of an array, or at a static tuple. -/
  | base
  /-- An item of a static array. -/
  | item
deriving DecidableEq

inductive Use where
  /-- A position in bytes of some length. -/
  | place (role : Role) (position length : Nat)
  /-- Bytes of some length that are cut in two without asking. -/
  | cut (position length : Nat)
  /-- A byte that is taken out of some without asking. -/
  | byte (position length : Nat)
  /-- A number that is computed. -/
  | number (value : Nat)
deriving DecidableEq

/-- Whether a position lies inside the bytes or at their end, what is taken directly is
there, and a number has no more than 64 bits. -/
def Use.IsSafe : Use → Prop
  | .place _ position length => position ≤ length
  | .cut position length => position ≤ length
  | .byte position length => position < length
  | .number value => value < 2 ^ 64

/-- The uses of a walk up to where it ends, and its result. -/
structure Walk (α : Type) where
  uses : List Use
  result : Except WordFault α

namespace Walk

variable {α β : Type}

def done : Walk Unit :=
  ⟨[], .ok ()⟩

def note (uses : List Use) : Walk Unit :=
  ⟨uses, .ok ()⟩

def andThen (first : Walk α) (next : α → Walk β) : Walk β :=
  match first.result with
  | .error fault => ⟨first.uses, .error fault⟩
  | .ok value => ⟨first.uses ++ (next value).uses, (next value).result⟩

/-- Walks at `count` positions that follow each other at a fixed distance. -/
def each (visit : Nat → Walk Unit) (stride : Nat) : Nat → Nat → Walk Unit
  | 0, _ => done
  | count + 1, position =>
    (visit position).andThen fun _ => each visit stride count (position + stride)

def word (data : Bytes) (position : Nat) : Walk Word :=
  ⟨[.number (position + 32)], wordAt data position⟩

def offset (data : Bytes) (position : Nat) : Walk Nat :=
  (word data position).andThen fun word =>
    ⟨[.cut 24 32],
      if (word.toList.take 24).all (· == 0) then .ok (bigEndian (word.toList.drop 24))
      else .error (.wideOffset position)⟩

def tail (data : Bytes) (position : Nat) : Walk Bytes :=
  (offset data position).andThen fun offset =>
    ⟨[.place .tail offset data.length],
      if data.length < offset then .error (.missing offset) else .ok (data.drop offset)⟩

theorem result_andThen
    (first : Walk α) (next : α → Walk β) :
    (first.andThen next).result = first.result.bind fun value => (next value).result := by
  unfold andThen
  cases first.result <;> rfl

theorem result_offset
    (data : Bytes) (position : Nat) :
    (offset data position).result = offsetAt data position := by
  rw [offset, result_andThen, offsetAt, word]
  cases wordAt data position <;> rfl

theorem result_tail
    (data : Bytes) (position : Nat) :
    (tail data position).result = tailAt data position := by
  rw [tail, result_andThen, tailAt, result_offset]
  cases offsetAt data position <;> rfl

end Walk

namespace Ty

/-- The parts of a word that are looked at. -/
def wordUses : Ty → List Use
  | .bool => [.cut 31 32, .byte 31 32]
  | .address => [.cut 12 32]
  | .uint width => [.cut ((256 - width.bits) / 8) 32]
  | .int width => [.byte ((256 - width.bits) / 8) 32, .cut ((256 - width.bits) / 8) 32]
  | .fixedBytes width => [.cut width.bytes 32]
  | _ => []

mutual

/-- The numbers that are computed to find the number of words of a static type. -/
def sizeUses : Ty → List Use
  | .fixedArray item count => sizeUses item ++ [.number (words item * count.val)]
  | .tuple items => sizeUsesFrom 0 items
  | _ => []

/-- The numbers that are computed to add the words of types to those before them. -/
def sizeUsesFrom (total : Nat) : List Ty → List Use
  | [] => []
  | ty :: rest =>
    sizeUses ty ++ .number (total + words ty) :: sizeUsesFrom (total + words ty) rest

end

/-- The numbers that are computed to find the head behind that of a value. -/
def advanceUses (ty : Ty) (position : Nat) : List Use :=
  if ty.isDynamic then [.number (position + 32)]
  else ty.sizeUses ++ [.number (32 * ty.words), .number (position + 32 * ty.words)]

/-- The numbers that are computed to find the distance of the items of a static array. -/
def strideUses (item : Ty) : List Use :=
  item.sizeUses ++ [.number (32 * item.words)]

/-- The numbers that are computed to find an item of a static array. -/
def itemUses (item : Ty) (data : Bytes) (position index : Nat) : List Use :=
  [.number (index * (32 * item.words)), .number (position + index * (32 * item.words)),
    .place .item (position + index * (32 * item.words)) data.length]

end Ty

/-- The walk through a value in a list of values, between finding its head and the next. -/
def Walk.listed (walk : Walk Unit) (ty : Ty) (data : Bytes) (position : Nat) : Walk Unit :=
  (Walk.note [.place .head position data.length]).andThen fun _ =>
    walk.andThen fun _ => .note (ty.advanceUses position)

namespace Ty

def walkWord (ty : Ty) (data : Bytes) (position : Nat) : Walk Unit :=
  (Walk.word data position).andThen fun word =>
    ⟨ty.wordUses, if isCanonical ty word then .ok () else .error (.invalid position ty.name)⟩

mutual

/-- Checks all words of a value, keeping what numbers are used for. -/
def walk : Ty → Bytes → Nat → Walk Unit
  | .function, _, _ => .done
  | .bytes, data, position => (Walk.tail data position).andThen fun _ => .done
  | .string, data, position => (Walk.tail data position).andThen fun _ => .done
  | .array item, data, position =>
    (Walk.tail data position).andThen fun tail =>
      (Walk.offset tail 0).andThen fun length =>
        (Walk.note [.cut 32 tail.length, .place .base 32 tail.length]).andThen fun _ =>
          Walk.each
            (fun place => (walk item (tail.drop 32) place).listed item (tail.drop 32) place)
            (headSize item) length 0
  | .fixedArray item count, data, position =>
    if isDynamic item then
      (Walk.tail data position).andThen fun tail =>
        Walk.each (fun place => (walk item tail place).listed item tail place)
          (headSize item) count.val 0
    else
      (Walk.note (strideUses item)).andThen fun _ =>
        Walk.each
          (fun index => (Walk.note (itemUses item data position index)).andThen fun _ =>
            walk item data (position + index * (32 * words item)))
          1 count.val 0
  | .tuple items, data, position =>
    if anyDynamic items then
      (Walk.tail data position).andThen fun tail => walkItems items tail 0
    else
      (Walk.note [.place .base position data.length]).andThen fun _ =>
        walkItems items (data.drop position) 0
  | .bool, data, position => walkWord .bool data position
  | .int width, data, position => walkWord (.int width) data position
  | .uint width, data, position => walkWord (.uint width) data position
  | .fixedBytes width, data, position => walkWord (.fixedBytes width) data position
  | .address, data, position => walkWord .address data position

/-- Checks all words of values whose heads follow each other, likewise. -/
def walkItems : List Ty → Bytes → Nat → Walk Unit
  | [], _, _ => .done
  | ty :: rest, data, position =>
    ((walk ty data position).listed ty data position).andThen fun _ =>
      walkItems rest data (position + headSize ty)

end

def walkParams (types : List Ty) (data : Bytes) : Walk Unit :=
  walkItems types data 0

theorem each_listed_eq_walkItems
    (ty : Ty) (data : Bytes) (count position : Nat) :
    Walk.each (fun place => (walk ty data place).listed ty data place) ty.headSize count position =
      walkItems (List.replicate count ty) data position := by
  induction count generalizing position with
  | zero => rfl
  | succ count ih => simp only [Walk.each, List.replicate_succ, walkItems, ih]

/-! ## Forgetting the uses -/

theorem result_walkWord
    (ty : Ty) (data : Bytes) (position : Nat) :
    (walkWord ty data position).result = checkWord ty data position := by
  rw [walkWord, Walk.result_andThen, checkWord, Walk.word]
  cases wordAt data position <;> rfl

theorem result_listed
    (walk : Walk Unit) (ty : Ty) (data : Bytes) (position : Nat) :
    (walk.listed ty data position).result = walk.result := by
  unfold Walk.listed
  simp only [Walk.result_andThen, Walk.note, Except.bind]
  cases walk.result <;> rfl

/-- Whether walking through a type comes to the result of its check. -/
def WalksAsItChecks (ty : Ty) : Prop :=
  ∀ data position, (walk ty data position).result = check ty data position

theorem result_walkItems_of
    {types : List Ty}
    (hwalks : ∀ ty ∈ types, ty.WalksAsItChecks)
    (data : Bytes) (position : Nat) :
    (walkItems types data position).result = checkItems types data position := by
  induction types generalizing position with
  | nil => rfl
  | cons ty rest ih =>
      rw [List.forall_mem_cons] at hwalks
      rw [walkItems, Walk.result_andThen, result_listed, hwalks.1, checkItems_cons]
      simp only [ih hwalks.2]

theorem result_each_item
    {item : Ty}
    (hwalks : item.WalksAsItChecks)
    (data : Bytes) (position count index : Nat) :
    (Walk.each
      (fun index => (Walk.note (itemUses item data position index)).andThen fun _ =>
        walk item data (position + index * (32 * words item))) 1 count index).result =
      checkEach (check item data) (32 * words item) count
        (position + index * (32 * words item)) := by
  induction count generalizing index with
  | zero => rfl
  | succ count ih =>
      have hnext : position + (index + 1) * (32 * words item) =
          position + index * (32 * words item) + 32 * words item := by
        ring
      rw [Walk.each, Walk.result_andThen, Walk.result_andThen, ih, hnext, checkEach, hwalks]
      simp only [Walk.note, Except.bind]
      cases check item data (position + index * (32 * words item)) <;> rfl

theorem result_walk
    (ty : Ty) :
    ty.WalksAsItChecks := by
  induction ty using layoutInduction with
  | word ty hword =>
      intro data position
      cases ty <;> first
        | exact result_walkWord _ data position
        | rfl
        | simp [isWord] at hword
  | bytes =>
      intro data position
      rw [walk, check, Walk.result_andThen, Walk.result_tail]
      rfl
  | string =>
      intro data position
      rw [walk, check, Walk.result_andThen, Walk.result_tail]
      rfl
  | array item ih =>
      intro data position
      rw [walk, check, Walk.result_andThen, Walk.result_tail]
      congr 1
      funext tail
      rw [Walk.result_andThen, Walk.result_offset]
      congr 1
      funext length
      rw [Walk.result_andThen, each_listed_eq_walkItems, checkEach_eq_checkItems]
      exact result_walkItems_of (fun ty hmember => List.eq_of_mem_replicate hmember ▸ ih) _ 0
  | fixedArray item count ih =>
      intro data position
      rw [walk, check]
      split
      · rw [Walk.result_andThen, Walk.result_tail]
        congr 1
        funext tail
        rw [each_listed_eq_walkItems, checkEach_eq_checkItems]
        exact result_walkItems_of (fun ty hmember => List.eq_of_mem_replicate hmember ▸ ih) _ 0
      · rename_i hstatic
        have hstride : headSize item = 32 * words item := if_neg hstatic
        have heach := result_each_item ih data position count.val 0
        rw [Nat.zero_mul, Nat.add_zero] at heach
        rw [Walk.result_andThen, hstride, ← heach]
        rfl
  | tuple items ih =>
      intro data position
      rw [walk, check]
      split
      · rw [Walk.result_andThen, Walk.result_tail]
        congr 1
        funext tail
        exact result_walkItems_of ih tail 0
      · rw [Walk.result_andThen]
        exact result_walkItems_of ih (data.drop position) 0

theorem result_walkItems
    (types : List Ty) (data : Bytes) (position : Nat) :
    (walkItems types data position).result = checkItems types data position :=
  result_walkItems_of (fun ty _ => result_walk ty) data position

end Ty
end Abi
end MintWatch

import Offside.Location

/-!
# Operations with a domain

A difference of naturals, an item at a place, a stretch of a list or of a text, a number held between limits: each of
them is defined for some operands and not for others. Here such an operation has no value outside of its domain, and
whatever is made with it has none either. The sections below run the scanner, the readers and the machine with these
operations, and show that there is always a value.
-/

namespace Offside.Strict

/-- A difference of naturals, which must not fall below zero. -/
def sub (a b : Nat) : Option Nat :=
  if b ≤ a then some (a - b) else none

/-- The first items of a list, all of which have to be there. -/
def front {α : Type} (xs : List α) (count : Nat) : Option (List α) :=
  if count ≤ xs.length then some (xs.take count) else none

/-- A list with another item at a place, which has to be there. -/
def replace {α : Type} (xs : List α) (place : Nat) (x : α) : Option (List α) :=
  if place < xs.length then some (xs.set place x) else none

/-- An integer held between two limits, which have to be in order. -/
def clamp (n low high : Int32) : Option Int32 :=
  if low ≤ high then some (if n < low then low else if high < n then high else n) else none

/-- A text cut behind so many bytes. The cut has to fall between two characters or at an end of the text. -/
def cutAt : Nat → List Char → Option (List Char × List Char)
  | 0, cs => some ([], cs)
  | _ + 1, [] => none
  | bytes + 1, c :: cs =>
    if c.utf8Size ≤ bytes + 1 then
      (cutAt (bytes + 1 - c.utf8Size) cs).map fun (before, behind) => (c :: before, behind)
    else none

/-- The stretch of a text from one offset to another, which must not lie before the first. -/
def slice (text : List Char) (start stop : Nat) : Option (List Char) := do
  let size ← sub stop start
  let (_, behind) ← cutAt start text
  let (inside, _) ← cutAt size behind
  return inside

theorem sub_of_le {a b : Nat} (h : b ≤ a) : sub a b = some (a - b) :=
  if_pos h

theorem front_of_le {α : Type} {xs : List α} {count : Nat} (h : count ≤ xs.length) :
    front xs count = some (xs.take count) :=
  if_pos h

theorem clamp_of_le {n low high : Int32} (h : low ≤ high) :
    clamp n low high = some (if n < low then low else if high < n then high else n) :=
  if_pos h

/-- A text is cut between any two of its parts. -/
theorem cutAt_append (before behind : List Char) :
    cutAt (byteSize before) (before ++ behind) = some (before, behind) := by
  induction before with
  | nil => rw [byteSize_nil, List.nil_append, cutAt]
  | cons c cs ih =>
    obtain ⟨n, hn⟩ : ∃ n, byteSize (c :: cs) = n + 1 :=
      Nat.exists_eq_succ_of_ne_zero (by have := c.utf8Size_pos; rw [byteSize_cons]; omega)
    have hrest : n + 1 - c.utf8Size = byteSize cs := by
      rw [byteSize_cons] at hn
      omega
    rw [hn, List.cons_append, cutAt, hrest, ih, if_pos (by rw [byteSize_cons] at hn; omega)]
    rfl

/-- The stretch of a text between the ends of two of its parts. -/
theorem slice_append (before inside behind : List Char) :
    slice (before ++ inside ++ behind) (byteSize before) (byteSize (before ++ inside)) = some inside := by
  have hsize : sub (byteSize before + byteSize inside) (byteSize before) = some (byteSize inside) := by
    rw [sub_of_le (by omega), Nat.add_sub_cancel_left]
  simp [slice, hsize, cutAt_append]

end Offside.Strict

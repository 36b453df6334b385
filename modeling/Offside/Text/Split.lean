/-!
# Splitting at separators
-/

namespace Offside.Text

variable {α : Type}

/-- The stretches between separators, empty ones included. -/
def split (separates : α → Bool) : List α → List (List α)
  | [] => [[]]
  | a :: rest =>
    match split separates rest with
    | [] => [[a]]
    | first :: more => if separates a then [] :: first :: more else (a :: first) :: more

theorem split_ne_nil (separates : α → Bool) (as : List α) : split separates as ≠ [] := by
  cases as with
  | nil => simp [split]
  | cons a rest =>
    rw [split]
    split
    · simp
    · split <;> simp

end Offside.Text

import Rhosus.Lib.Uvarint

/-!
# Slices

Indexing and slicing as Go checks them: nothing stands for a panic.
-/

namespace Rhosus.Util

variable {α : Type}

/-- `xs[i:j]` -/
def slice? (xs : List α) (i j : ℕ) : Option (List α) :=
  if i ≤ j ∧ j ≤ xs.length then some ((xs.take j).drop i) else none

/-- `copy(dst[i:], src)`, which copies as much as there is room for. -/
def copy? (dst : List α) (i : ℕ) (src : List α) : Option (List α) :=
  if i ≤ dst.length then
    some (dst.take i ++ src.take (dst.length - i) ++ dst.drop (i + src.length))
  else none

/-- `xs[i] = a` -/
def set? (xs : List α) (i : ℕ) (a : α) : Option (List α) :=
  if i < xs.length then some (xs.set i a) else none

theorem slice?_eq {xs : List α} {i j : ℕ} (hij : i ≤ j) (hj : j ≤ xs.length) :
    slice? xs i j = some ((xs.take j).drop i) := if_pos ⟨hij, hj⟩

theorem copy?_append (l rest src : List α) (h : src.length ≤ rest.length) :
    copy? (l ++ rest) l.length src = some (l ++ src ++ rest.drop src.length) := by
  rw [copy?, if_pos (by simp), List.take_left, List.length_append, Nat.add_sub_cancel_left,
    List.take_of_length_le h, List.drop_append, List.drop_of_length_le (by omega),
    Nat.add_sub_cancel_left, List.nil_append]

theorem set?_eq {xs : List α} {i : ℕ} (h : i < xs.length) (a : α) :
    set? xs i a = some (xs.set i a) := if_pos h

end Rhosus.Util

import Mathlib.Data.List.Rotate
import Mathlib.Data.Nat.ModEq

/-!
# Windows of a ring

The cells of a list as a ring, where the first comes again after the last: `window xs h n` are the
`n` of them from `h` on. A window grows at its end by a cell that is set, and loses its first cell
when it starts one further on. Up to the end of the list it is a slice of it, and past that two.
-/

namespace Rhosus

variable {α : Type} {xs : List α} {h n : ℕ}

def window (xs : List α) (h n : ℕ) : List α := (xs.rotate h).take n

@[simp]
theorem window_zero (xs : List α) (h : ℕ) : window xs h 0 = [] := List.take_zero

theorem length_window (hn : n ≤ xs.length) : (window xs h n).length = n := by
  rw [window, List.length_take, List.length_rotate, min_eq_left hn]

theorem getElem?_window {i : ℕ} (hi : i < n) (hn : n ≤ xs.length) :
    (window xs h n)[i]? = xs[(i + h) % xs.length]? := by
  rw [window, List.getElem?_take_of_lt hi, List.getElem?_rotate (hi.trans_le hn)]

theorem window_succ (hn : n < xs.length) {a : α} (ha : xs[h]? = some a) :
    window xs h (n + 1) = a :: window xs ((h + 1) % xs.length) n := by
  have hh : h < xs.length := (List.getElem?_eq_some_iff.mp ha).1
  refine List.ext_getElem? fun i => ?_
  rcases i with _ | i
  · rw [getElem?_window (Nat.succ_pos n) hn, Nat.zero_add, Nat.mod_eq_of_lt hh, ha]
    rfl
  · rw [List.getElem?_cons_succ]
    by_cases hi : i < n
    · rw [getElem?_window (Nat.succ_lt_succ hi) hn, getElem?_window hi hn.le, Nat.add_mod_mod,
        Nat.succ_add_eq_add_succ]
    · rw [List.getElem?_eq_none (by rw [length_window hn]; omega),
        List.getElem?_eq_none (by rw [length_window hn.le]; omega)]

theorem window_set (hn : n < xs.length) (a : α) :
    window (xs.set ((h + n) % xs.length) a) h (n + 1) = window xs h n ++ [a] := by
  have hlt : (h + n) % xs.length < xs.length := Nat.mod_lt _ (Nat.zero_lt_of_lt hn)
  refine List.ext_getElem? fun i => ?_
  by_cases hi : i < n + 1
  · rw [getElem?_window hi (by rwa [List.length_set]), List.length_set]
    rcases Nat.lt_succ_iff_lt_or_eq.mp hi with hi | rfl
    · have hne : (h + n) % xs.length ≠ (i + h) % xs.length := by
        intro heq
        have hmod : Nat.ModEq xs.length (h + n) (h + i) := by rwa [Nat.add_comm h i]
        exact hi.ne' (Nat.ModEq.eq_of_lt_of_lt (Nat.ModEq.add_left_cancel' h hmod) hn
          (hi.trans hn))
      rw [List.getElem?_set_ne hne, List.getElem?_append_left (by rwa [length_window hn.le]),
        getElem?_window hi hn.le]
    · rw [Nat.add_comm i h, List.getElem?_set_self hlt,
        List.getElem?_append_right (by rw [length_window hn.le]), length_window hn.le,
        Nat.sub_self]
      rfl
  · rw [List.getElem?_eq_none (by rw [length_window (by rwa [List.length_set])]; omega),
      List.getElem?_eq_none (by rw [List.length_append, length_window hn.le]; simp; omega)]

theorem window_eq_slice (hhn : h + n ≤ xs.length) : window xs h n = (xs.take (h + n)).drop h := by
  rw [window, List.rotate_eq_drop_append_take (by omega),
    List.take_append_of_le_length (by rw [List.length_drop]; omega), List.drop_take,
    Nat.add_sub_cancel_left]

theorem window_eq_slices (hh : h ≤ xs.length) (hhn : xs.length ≤ h + n) :
    window xs h n = xs.drop h ++ (xs.take h).take (h + n - xs.length) := by
  rw [window, List.rotate_eq_drop_append_take hh, List.take_append,
    List.take_of_length_le (by rw [List.length_drop]; omega), List.length_drop]
  congr 2
  omega

end Rhosus

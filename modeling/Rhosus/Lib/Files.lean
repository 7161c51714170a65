import Mathlib.Data.List.GetD
import Mathlib.Order.Lattice

/-!
# Files with random access

A file is read and written at any offset. Writes to places that do not meet are independent of
one another: what was read at one of them before is read there after a write at the other.
-/

namespace Rhosus

/-- The size of a file, and its bytes from the first on. -/
@[ext]
structure File where
  size : ℕ
  byte : ℕ → UInt8

/-- What befalls a file operation: nothing, or a failure, which for a write may come after some
bytes are written. -/
abbrev Mishap := Option ℕ

namespace File

variable (f : File) {data : List UInt8} {n off off' k : ℕ}

def writeAt (data : List UInt8) (off : ℕ) : File where
  size := if data = [] then f.size else max f.size (off + data.length)
  byte k := if off ≤ k then data.getD (k - off) (f.byte k) else f.byte k

/-- Fails where the file ends before the bytes are read. -/
def readAt (n off : ℕ) : Option (List UInt8) :=
  if n = 0 ∨ off + n ≤ f.size then some ((List.range n).map fun i => f.byte (off + i)) else none

/-- The file at this size: what is beyond it is cut off, what is missing reads as zeros. -/
def truncate (n : ℕ) : File := ⟨n, fun k => if k < f.size then f.byte k else 0⟩

theorem byte_writeAt_of_disjoint (h : k < off ∨ off + data.length ≤ k) :
    (f.writeAt data off).byte k = f.byte k := by
  rw [writeAt]
  dsimp only
  split_ifs with hle
  · rw [List.getD_eq_default _ _ (by omega)]
  · rfl

theorem byte_writeAt_add {i : ℕ} (h : i < data.length) :
    (f.writeAt data off).byte (off + i) = data[i] := by
  rw [writeAt]
  dsimp only
  rw [if_pos (Nat.le_add_right _ _), Nat.add_sub_cancel_left, List.getD_eq_getElem _ _ h]

theorem size_le_size_writeAt (data : List UInt8) (off : ℕ) :
    f.size ≤ (f.writeAt data off).size := by
  rw [writeAt]
  dsimp only
  split_ifs
  · exact le_rfl
  · exact le_max_left _ _

theorem readAt_writeAt : (f.writeAt data off).readAt data.length off = some data := by
  have hsize : data.length = 0 ∨ off + data.length ≤ (f.writeAt data off).size := by
    rcases data with _ | ⟨b, bs⟩
    · exact .inl rfl
    · exact .inr (le_max_right _ _)
  rw [readAt, if_pos hsize, Option.some.injEq]
  refine List.ext_getElem (by simp) fun i hi hi' => ?_
  rw [List.getElem_map, List.getElem_range, f.byte_writeAt_add hi']

theorem readAt_writeAt_of_disjoint {d : List UInt8} (hd : f.readAt n off' = some d)
    (h : off' + n ≤ off ∨ off + data.length ≤ off') :
    (f.writeAt data off).readAt n off' = some d := by
  unfold readAt at hd ⊢
  split_ifs at hd with hsize
  have hle := f.size_le_size_writeAt data off
  rw [if_pos (by omega), ← hd, Option.some.injEq]
  refine List.map_congr_left fun i hi => ?_
  have := List.mem_range.mp hi
  exact f.byte_writeAt_of_disjoint (by omega)

theorem size_writeAt_of_le (h : off + data.length ≤ f.size) :
    (f.writeAt data off).size = f.size := by
  rw [writeAt]
  dsimp only
  split_ifs
  · rfl
  · exact max_eq_left h

theorem readAt_truncate (h : f.size = n) (k off : ℕ) :
    (f.truncate n).readAt k off = f.readAt k off := by
  unfold readAt truncate
  rw [h]
  dsimp only
  split_ifs with hsize
  · rw [Option.some.injEq]
    refine List.map_congr_left fun i hi => ?_
    have := List.mem_range.mp hi
    rw [if_pos (by omega)]
  · rfl

theorem readAt_eq_replicate (hsize : off + n ≤ f.size) (h : ∀ k, k < n → f.byte (off + k) = 0) :
    f.readAt n off = some (List.replicate n 0) := by
  rw [readAt, if_pos (.inr hsize), Option.some.injEq]
  refine List.ext_getElem (by simp) fun i hi hi' => ?_
  rw [List.getElem_map, List.getElem_range, List.getElem_replicate]
  exact h i (by simpa using hi')

theorem readAt_congr {g : File} (hsize : g.size = f.size)
    (h : ∀ k, off ≤ k → k < off + n → g.byte k = f.byte k) : g.readAt n off = f.readAt n off := by
  unfold readAt
  rw [hsize]
  split_ifs
  · rw [Option.some.injEq]
    refine List.map_congr_left fun i hi => ?_
    have := List.mem_range.mp hi
    exact h _ (Nat.le_add_right _ _) (by omega)
  · rfl

end File

end Rhosus

import Mathlib.Data.List.TakeDrop
import Rhosus.Wal.Log

/-!
# What the log is for

A log in the abstract is the index of its first entry and the entries from it on. The first index
of an empty log is 1, so its last index is 0.
-/

namespace Rhosus.Wal

structure Log where
  first : ℕ
  entries : List Bytes
  deriving DecidableEq

namespace Log

def empty : Log := ⟨1, []⟩

def lastIndex (l : Log) : ℕ := l.first + l.entries.length - 1

def firstIndex (l : Log) : ℕ := if l.entries = [] then 0 else l.first

def get? (l : Log) (i : ℕ) : Option Bytes := if i < l.first then none else l.entries[i - l.first]?

def read (l : Log) (i : ℕ) : Except Err Bytes :=
  match l.get? i with
  | some d => .ok d
  | none => .error .notFound

def write (l : Log) (d : Bytes) : Log := ⟨l.first, l.entries ++ [d]⟩

def Has (l : Log) (i : ℕ) : Prop := l.entries ≠ [] ∧ l.first ≤ i ∧ i ≤ l.lastIndex

instance (l : Log) (i : ℕ) : Decidable (l.Has i) := inferInstanceAs (Decidable (_ ∧ _))

def dropBefore (l : Log) (i : ℕ) : Log := ⟨i, l.entries.drop (i - l.first)⟩

def dropAfter (l : Log) (i : ℕ) : Log := ⟨l.first, l.entries.take (i + 1 - l.first)⟩

/-- An index from 1 on, and 1 in an empty log. -/
structure Wf (l : Log) : Prop where
  pos : 1 ≤ l.first
  empty : l.entries = [] → l.first = 1

theorem Wf.write {l : Log} (h : l.Wf) (d : Bytes) : (l.write d).Wf :=
  ⟨h.pos, fun he => absurd he (by simp [Log.write])⟩

theorem Has.lt {l : Log} {i : ℕ} (h : l.Has i) : i < l.first + l.entries.length := by
  have hpos := List.length_pos_iff.mpr h.1
  have := h.2.2
  unfold lastIndex at this
  omega

theorem has_iff {l : Log} {i : ℕ} :
    l.Has i ↔ l.first ≤ i ∧ i < l.first + l.entries.length := by
  refine ⟨fun h => ⟨h.2.1, h.lt⟩, fun h => ?_⟩
  have hpos : 0 < l.entries.length := by omega
  exact ⟨List.length_pos_iff.mp hpos, h.1, by unfold lastIndex; omega⟩

theorem get?_isSome {l : Log} {i : ℕ} : (l.get? i).isSome ↔ l.Has i := by
  rw [has_iff]
  unfold get?
  split_ifs with h
  · simp only [Option.isSome_none, Bool.false_eq_true, false_iff]
    omega
  · rw [isSome_getElem?]
    omega

theorem Wf.dropBefore {l : Log} {i : ℕ} (h : l.Wf) (hi : l.Has i) : (l.dropBefore i).Wf := by
  refine ⟨h.pos.trans hi.2.1, fun he => ?_⟩
  have hlt := hi.lt
  have hle := hi.2.1
  simp only [Log.dropBefore, List.drop_eq_nil_iff] at he
  omega

theorem Wf.dropAfter {l : Log} {i : ℕ} (h : l.Wf) (hi : l.Has i) : (l.dropAfter i).Wf := by
  refine ⟨h.pos, fun he => ?_⟩
  have hle := hi.2.1
  simp only [Log.dropAfter, List.take_eq_nil_iff] at he
  rcases he with he | he
  · omega
  · exact h.empty he

end Log

end Rhosus.Wal

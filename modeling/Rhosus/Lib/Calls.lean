import Mathlib.Algebra.GroupWithZero.Nat
import Mathlib.Data.List.Basic

/-!
# Calls on their way

The calls on a component are kept in a list, in the order they came in. A call that goes on is
replaced where it stands, and a new one comes at the end. What the calls have between them then
changes by what that one gains or loses.
-/

namespace Rhosus

variable {α : Type} {calls : List α} {c i : ℕ} {a b : α}

theorem getElem?_set_iff (hc : c < calls.length) :
    (calls.set c a)[i]? = some b ↔ i = c ∧ b = a ∨ i ≠ c ∧ calls[i]? = some b := by
  by_cases hi : i = c
  · subst hi
    rw [List.getElem?_set_self hc, Option.some.injEq]
    simp [eq_comm]
  · rw [List.getElem?_set_ne (Ne.symm hi)]
    simp [hi]

theorem getElem?_concat_iff :
    (calls ++ [a])[i]? = some b ↔ i = calls.length ∧ b = a ∨ calls[i]? = some b := by
  rcases Nat.lt_trichotomy i calls.length with hi | rfl | hi
  · rw [List.getElem?_append_left hi]
    simp [Nat.ne_of_lt hi]
  · simp [eq_comm]
  · rw [List.getElem?_eq_none (by rw [List.length_append]; exact hi),
      List.getElem?_eq_none (Nat.le_of_lt hi)]
    simp [Nat.ne_of_gt hi]

section Parts

variable {β : Type} {f : α → List β}

theorem flatMap_set_sublist : ∀ {xs : List α} {k : ℕ} {x y : α}, xs[k]? = some x →
    (f y).Sublist (f x) → ((xs.set k y).flatMap f).Sublist (xs.flatMap f)
  | x :: xs, 0, _, y, hk, h => by
    obtain rfl := Option.some.inj hk
    exact h.append (List.Sublist.refl _)
  | x :: xs, k + 1, _, y, hk, h => (List.Sublist.refl _).append (flatMap_set_sublist hk h)

theorem flatMap_set_eq : ∀ {xs : List α} {k : ℕ} {x y : α}, xs[k]? = some x → f y = f x →
    (xs.set k y).flatMap f = xs.flatMap f
  | x :: xs, 0, _, y, hk, h => by
    obtain rfl := Option.some.inj hk
    rw [List.set_cons_zero, List.flatMap_cons, List.flatMap_cons, h]
  | x :: xs, k + 1, z, y, hk, h => by
    have hk : xs[k]? = some z := hk
    rw [List.set_cons_succ, List.flatMap_cons, List.flatMap_cons, flatMap_set_eq hk h]

/-- What one of the lists loses from its beginning is in none of them any more. -/
theorem notMem_flatMap_set {b : β} : ∀ {xs : List α} {k : ℕ} {x y : α}, xs[k]? = some x →
    f x = b :: f y → (xs.flatMap f).Nodup → b ∉ (xs.set k y).flatMap f
  | x :: xs, 0, _, y, hk, h, hnd => by
    obtain rfl := Option.some.inj hk
    rw [List.flatMap_cons, h, List.cons_append, List.nodup_cons] at hnd
    exact hnd.1
  | x :: xs, k + 1, z, y, hk, h, hnd => by
    rw [List.flatMap_cons, List.nodup_append] at hnd
    rw [List.set_cons_succ, List.flatMap_cons, List.mem_append, not_or]
    refine ⟨fun hb => ?_, notMem_flatMap_set hk h hnd.2.1⟩
    refine hnd.2.2 b hb b (List.mem_flatMap.mpr ⟨z, List.mem_of_getElem? hk, ?_⟩) rfl
    rw [h]
    exact List.mem_cons_self

theorem flatMap_set_perm : ∀ {xs : List α} {k : ℕ} {x y : α}, xs[k]? = some x → f y = [] →
    (f x ++ (xs.set k y).flatMap f).Perm (xs.flatMap f)
  | x :: xs, 0, _, y, hk, h => by
    obtain rfl := Option.some.inj hk
    rw [List.set_cons_zero, List.flatMap_cons, List.flatMap_cons, h, List.nil_append]
  | x :: xs, k + 1, z, y, hk, h => by
    have hk : xs[k]? = some z := hk
    rw [List.set_cons_succ, List.flatMap_cons, List.flatMap_cons, ← List.append_assoc]
    refine (List.perm_append_comm.append_right _).trans ?_
    rw [List.append_assoc]
    exact (flatMap_set_perm hk h).append_left _

end Parts

theorem sum_map_set_lt {g : α → ℕ} : ∀ {xs : List α} {k : ℕ} {x y : α}, xs[k]? = some x →
    g y < g x → ((xs.set k y).map g).sum < (xs.map g).sum
  | x :: xs, 0, _, y, hk, h => by
    obtain rfl := Option.some.inj hk
    simpa using h
  | x :: xs, k + 1, z, y, hk, h => by
    have hk : xs[k]? = some z := hk
    simpa using sum_map_set_lt hk h

end Rhosus

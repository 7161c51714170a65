import Mathlib.Data.List.Nodup

/-!
# Bounded caches

A cache of at most `n` pairs, listed from the most recently used. Storing a pair puts it first
and, where the cache is full, drops one other pair and reports it. `Lawful` is what a user of such
a cache relies on; which pair is dropped is left open. `lruSet` drops the least recently used.
-/

namespace Rhosus

/-- Storing `k` with `v` in a cache of size `n`: the cache after it, and the pair it dropped. -/
abbrev SetEvicted (K V : Type) := ℕ → List (K × V) → K → V → List (K × V) × Option (K × V)

structure SetEvicted.Lawful {K V : Type} (f : SetEvicted K V) : Prop where
  /-- The pair stored comes first, and what follows it was there, under other keys. -/
  stored : ∀ n c k v, ∃ rest, (f n c k v).1 = (k, v) :: rest ∧ ∀ kv ∈ rest, kv ∈ c ∧ kv.1 ≠ k
  /-- A pair is dropped only if it is the one reported, or its key is stored anew. -/
  kept : ∀ n c k v, ∀ kv ∈ c, kv.1 ≠ k → (f n c k v).2 ≠ some kv → kv ∈ (f n c k v).1
  /-- The pair reported was there under another key, in a full cache, and is gone. -/
  evicted : ∀ n c k v kv, (c.map Prod.fst).Nodup → (f n c k v).2 = some kv →
    n ≤ c.length ∧ kv ∈ c ∧ kv.1 ≠ k ∧ ∀ kv' ∈ (f n c k v).1, kv'.1 ≠ kv.1
  /-- The cache stays within its size, and its keys stay distinct. -/
  size : ∀ n c k v, 1 ≤ n → c.length ≤ n → (f n c k v).1.length ≤ n
  keys : ∀ n c k v, (c.map Prod.fst).Nodup → ((f n c k v).1.map Prod.fst).Nodup

section LeastRecent

variable {K V : Type} [DecidableEq K]

def lruSet : SetEvicted K V := fun n c k v =>
  if k ∈ c.map Prod.fst then ((k, v) :: c.filter (·.1 ≠ k), none)
  else if n ≤ c.length then ((k, v) :: c.dropLast, c.getLast?)
  else ((k, v) :: c, none)

theorem lruSet_lawful : (lruSet : SetEvicted K V).Lawful := by
  have hne : ∀ {c : List (K × V)} {k : K}, k ∉ c.map Prod.fst → ∀ kv ∈ c, kv.1 ≠ k :=
    fun h kv hkv he => h (List.mem_map.mpr ⟨kv, hkv, he⟩)
  refine ⟨fun n c k v => ?_, fun n c k v kv hkv hk he => ?_, fun n c k v kv hnd he => ?_,
    fun n c k v hn hc => ?_, fun n c k v hnd => ?_⟩
  · unfold lruSet
    split_ifs with hk hf
    · exact ⟨_, rfl, fun kv hkv => by simpa using List.mem_filter.mp hkv⟩
    · exact ⟨_, rfl, fun kv hkv => ⟨(List.dropLast_sublist c).mem hkv,
        hne hk kv ((List.dropLast_sublist c).mem hkv)⟩⟩
    · exact ⟨_, rfl, fun kv hkv => ⟨hkv, hne hk kv hkv⟩⟩
  · unfold lruSet at he ⊢
    split_ifs at he ⊢ with hm hf
    · exact List.mem_cons_of_mem _ (List.mem_filter.mpr ⟨hkv, by simpa using hk⟩)
    · have hc : c ≠ [] := List.ne_nil_of_mem hkv
      rw [List.getLast?_eq_getLast_of_ne_nil hc] at he
      rw [← List.dropLast_append_getLast hc, List.mem_append, List.mem_singleton] at hkv
      rcases hkv with hkv | rfl
      · exact List.mem_cons_of_mem _ hkv
      · exact absurd rfl he
    · exact List.mem_cons_of_mem _ hkv
  · unfold lruSet at he ⊢
    split_ifs at he ⊢ with hm hf
    · obtain ⟨l, rfl⟩ := List.getLast?_eq_some_iff.mp he
      refine ⟨hf, by simp, hne hm kv (by simp), fun kv' hkv' => ?_⟩
      rw [List.dropLast_concat, List.mem_cons] at hkv'
      rcases hkv' with rfl | hkv'
      · exact (hne hm kv (by simp)).symm
      · intro hkk
        rw [List.map_append, List.map_singleton, List.nodup_append] at hnd
        exact hnd.2.2 _ (List.mem_map_of_mem hkv') _ (by simp) hkk
  · unfold lruSet
    split_ifs with hk hf
    · obtain ⟨kv, hkv, rfl⟩ := List.mem_map.mp hk
      have hlt : (c.filter (·.1 ≠ kv.1)).length < c.length :=
        List.length_filter_lt_length_iff_exists.mpr ⟨kv, hkv, by simp⟩
      simp only [List.length_cons]
      omega
    · simp only [List.length_cons, List.length_dropLast]
      omega
    · simp only [List.length_cons]
      omega
  · unfold lruSet
    split_ifs with hk hf
    · rw [List.map_cons, List.nodup_cons]
      refine ⟨fun h => ?_, hnd.sublist (List.Sublist.map _ List.filter_sublist)⟩
      obtain ⟨kv, hkv, hk'⟩ := List.mem_map.mp h
      simpa [hk'] using (List.mem_filter.mp hkv).2
    · rw [List.map_cons, List.nodup_cons]
      refine ⟨fun h => hk ?_, hnd.sublist (List.Sublist.map _ (List.dropLast_sublist c))⟩
      obtain ⟨kv, hkv, hk'⟩ := List.mem_map.mp h
      exact List.mem_map.mpr ⟨kv, (List.dropLast_sublist c).mem hkv, hk'⟩
    · rw [List.map_cons, List.nodup_cons]
      exact ⟨hk, hnd⟩

end LeastRecent

end Rhosus

import Mathlib.Data.List.Perm.Basic
import Mathlib.Logic.Basic
import Mathlib.Order.Defs.Unbundled

/-!
# Sorting with a comparison that may panic

What a caller of `sort.Slice` may rely on: the result is a permutation, the sort returns if every
comparison of two positions does, and it is in order if the comparison is one of a strict weak
order. Nothing is said about the order of a result under any other comparison; each permutation is
that of some sort (`exists_sort`). The insertion sort, which is what `sort.Slice` does with a few
items, is such a sort.
-/

namespace Rhosus

variable {α : Type} {less : α → α → Option Bool} {lt : α → α → Bool} {x : α} {xs ys done : List α}

/-- No comparison of two positions panics. -/
def Compares (less : α → α → Option Bool) (xs : List α) : Prop :=
  xs.Pairwise fun a b => (less a b).isSome ∧ (less b a).isSome

/-- Of two positions the comparison says what `lt` says. -/
def AgreesWith (less : α → α → Option Bool) (lt : α → α → Bool) (xs : List α) : Prop :=
  xs.Pairwise fun a b => less a b = some (lt a b) ∧ less b a = some (lt b a)

/-- The comparison of two positions is that of a strict weak order. -/
def Orders (less : α → α → Option Bool) (xs : List α) : Prop :=
  ∃ lt : α → α → Bool, IsStrictWeakOrder α (fun a b => lt a b = true) ∧ AgreesWith less lt xs

structure SliceSort (α : Type) where
  /-- Nothing where the comparison panics. -/
  sort : (α → α → Option Bool) → List α → Option (List α)
  perm : ∀ {less xs ys}, sort less xs = some ys → ys.Perm xs
  returns : ∀ {less xs}, Compares less xs → (sort less xs).isSome
  sorted : ∀ {less xs ys}, Orders less xs → sort less xs = some ys →
    ys.Pairwise fun a b => less b a = some false

theorem AgreesWith.perm (h : AgreesWith less lt xs) (hperm : xs.Perm ys) : AgreesWith less lt ys :=
  hperm.pairwise h And.symm

theorem Compares.perm (h : Compares less xs) (hperm : xs.Perm ys) : Compares less ys :=
  hperm.pairwise h And.symm

theorem AgreesWith.sorted (h : AgreesWith less lt xs)
    (hlt : xs.Pairwise fun a b => lt b a = false) : xs.Pairwise fun a b => less b a = some false :=
  (h.and hlt).imp fun ⟨⟨_, hba⟩, hlt⟩ => by rw [hba, hlt]

section StrictWeak

variable [order : IsStrictWeakOrder α fun a b => lt a b = true] {a b c : α}

theorem lt_asymm_of (h : lt a b = true) : lt b a = false := by
  rw [← Bool.not_eq_true]
  exact fun h' => order.irrefl a (order.trans a b a h h')

theorem not_lt_trans_of (h : lt b a = false) (h' : lt c b = false) : lt c a = false := by
  rw [← Bool.not_eq_true] at h h' ⊢
  intro hca
  have hab : ¬ lt a b = true := fun hab => h' (order.trans c a b hca hab)
  have hbc : ¬ lt b c = true := fun hbc => h (order.trans b c a hbc hca)
  exact (order.incomp_trans a b c ⟨hab, h⟩ ⟨hbc, h'⟩).2 hca

end StrictWeak

section Insertion

/-- Back from the end of the sorted part, which is held from its end. -/
def insertBack (less : α → α → Option Bool) (x : α) : List α → Option (List α)
  | [] => some [x]
  | y :: ys =>
    match less x y with
    | none => none
    | some true => (insertBack less x ys).map (y :: ·)
    | some false => some (x :: y :: ys)

def insertEach (less : α → α → Option Bool) : List α → List α → Option (List α)
  | [], done => some done.reverse
  | x :: xs, done => (insertBack less x done).bind (insertEach less xs)

theorem insertBack_perm : ∀ {done ys : List α}, insertBack less x done = some ys →
    ys.Perm (x :: done)
  | [], ys, h => .of_eq (Option.some.inj h).symm
  | y :: done, ys, h => by
    rw [insertBack] at h
    rcases hxy : less x y with _ | _ | _ <;> rw [hxy] at h
    · cases h
    · exact .of_eq (Option.some.inj h).symm
    · obtain ⟨zs, hzs, rfl⟩ := Option.map_eq_some_iff.mp h
      exact ((insertBack_perm hzs).cons y).trans (.swap x y done)

theorem insertEach_perm : ∀ {xs done ys : List α}, insertEach less xs done = some ys →
    ys.Perm (done ++ xs)
  | [], done, ys, h => by
    rw [← Option.some.inj h, List.append_nil]
    exact List.reverse_perm done
  | x :: xs, done, ys, h => by
    obtain ⟨done', hdone, h⟩ := Option.bind_eq_some_iff.mp h
    exact (insertEach_perm h).trans (((insertBack_perm hdone).append_right xs).trans
      List.perm_middle.symm)

theorem insertBack_isSome : ∀ {done : List α}, (∀ y ∈ done, (less x y).isSome) →
    (insertBack less x done).isSome
  | [], _ => rfl
  | y :: done, h => by
    obtain ⟨b, hb⟩ := Option.isSome_iff_exists.mp (h y List.mem_cons_self)
    rw [insertBack, hb]
    cases b
    · rfl
    · rw [Option.isSome_map]
      exact insertBack_isSome fun z hz => h z (List.mem_cons_of_mem y hz)

theorem insertEach_isSome : ∀ {xs done : List α}, Compares less (done ++ xs) →
    (insertEach less xs done).isSome
  | [], _, _ => rfl
  | x :: xs, done, h => by
    have hx : ∀ y ∈ done, (less x y).isSome := fun y hy =>
      ((List.pairwise_append.mp h).2.2 y hy x List.mem_cons_self).2
    obtain ⟨done', hdone⟩ := Option.isSome_iff_exists.mp (insertBack_isSome hx)
    rw [insertEach, hdone, Option.bind_some]
    refine insertEach_isSome (h.perm ?_)
    exact List.perm_middle.trans ((insertBack_perm hdone).append_right xs).symm

/-- What comes behind an item in the list, which is held from its end, is not above it. -/
theorem insertBack_sorted [IsStrictWeakOrder α fun a b => lt a b = true] :
    ∀ {done ys : List α}, (∀ y ∈ done, less x y = some (lt x y)) →
      (done.Pairwise fun a b => lt a b = false) → insertBack less x done = some ys →
      ys.Pairwise fun a b => lt a b = false
  | [], ys, _, _, h => by
    rw [← Option.some.inj h]
    exact List.pairwise_singleton _ x
  | y :: done, ys, hx, hdone, h => by
    obtain ⟨hy, hdone'⟩ := List.pairwise_cons.mp hdone
    rw [insertBack, hx y List.mem_cons_self] at h
    rcases hxy : lt x y <;> rw [hxy] at h
    · rw [← Option.some.inj h]
      refine List.pairwise_cons.mpr ⟨fun z hz => ?_, hdone⟩
      rcases List.mem_cons.mp hz with rfl | hz
      · exact hxy
      · exact not_lt_trans_of (hy z hz) hxy
    · obtain ⟨zs, hzs, rfl⟩ := Option.map_eq_some_iff.mp h
      refine List.pairwise_cons.mpr ⟨fun z hz => ?_, insertBack_sorted
        (fun z hz => hx z (List.mem_cons_of_mem y hz)) hdone' hzs⟩
      rcases List.mem_cons.mp ((insertBack_perm hzs).mem_iff.mp hz) with rfl | hz
      · exact lt_asymm_of hxy
      · exact hy z hz

theorem insertEach_sorted [IsStrictWeakOrder α fun a b => lt a b = true] :
    ∀ {xs done ys : List α}, AgreesWith less lt (done ++ xs) →
      (done.Pairwise fun a b => lt a b = false) → insertEach less xs done = some ys →
      ys.Pairwise fun a b => lt b a = false
  | [], done, ys, _, hdone, h => by
    rw [← Option.some.inj h]
    exact List.pairwise_reverse.mpr hdone
  | x :: xs, done, ys, hagree, hdone, h => by
    obtain ⟨done', hback, h⟩ := Option.bind_eq_some_iff.mp h
    have hx : ∀ y ∈ done, less x y = some (lt x y) := fun y hy =>
      ((List.pairwise_append.mp hagree).2.2 y hy x List.mem_cons_self).2
    refine insertEach_sorted (hagree.perm ?_) (insertBack_sorted hx hdone hback) h
    exact List.perm_middle.trans ((insertBack_perm hback).append_right xs).symm

/-- What `sort.Slice` does with a few items. -/
def insertionSort (α : Type) : SliceSort α where
  sort less xs := insertEach less xs []
  perm h := insertEach_perm h
  returns h := insertEach_isSome h
  sorted := fun ⟨_, _, hagree⟩ h => (hagree.perm (insertEach_perm h).symm).sorted
    (insertEach_sorted hagree .nil h)

end Insertion

/-- Whatever is not ruled out for a list is what some sort does with it. -/
theorem exists_sort (hperm : ys.Perm xs)
    (hsorted : Orders less xs → ys.Pairwise fun a b => less b a = some false) :
    ∃ s : SliceSort α, s.sort less xs = some ys := by
  classical
  refine ⟨{ sort := fun less' xs' => if less' = less ∧ xs' = xs then some ys
              else (insertionSort α).sort less' xs'
            perm := fun {less' xs' ys'} h => ?_
            returns := fun {less' xs'} h => ?_
            sorted := fun {less' xs' ys'} horders h => ?_ }, if_pos ⟨rfl, rfl⟩⟩
  · split_ifs at h with hif
    · rw [← Option.some.inj h, hif.2]
      exact hperm
    · exact (insertionSort α).perm h
  · split_ifs with hif
    · rfl
    · exact (insertionSort α).returns h
  · split_ifs at h with hif
    · rw [hif.1, hif.2] at horders
      rw [← Option.some.inj h, hif.1]
      exact hsorted horders
    · exact (insertionSort α).sorted horders h

/-- Two items that no order forbids to stay as they are, some sort leaves as they are. -/
theorem exists_sort_pair {a b : α} {rest : List α} (hperm : xs.Perm (a :: b :: rest))
    (hab : ∀ lt : α → α → Bool, IsStrictWeakOrder α (fun a b => lt a b = true) →
      AgreesWith less lt xs → lt b a = false) :
    ∃ (s : SliceSort α) (ys : List α), s.sort less xs = some ys ∧ [a, b].Sublist ys := by
  by_cases horders : Orders less xs
  · obtain ⟨lt, order, hagree⟩ := horders
    have htrans : ∀ a b c, (!lt b a) = true → (!lt c b) = true → (!lt c a) = true :=
      fun a b c h h' => by
        rw [Bool.not_eq_true'] at h h' ⊢
        exact not_lt_trans_of h h'
    have htotal : ∀ a b, ((!lt b a) || !lt a b) = true := fun a b => by
      rcases hba : lt b a
      · rfl
      · rw [lt_asymm_of hba]
        rfl
    have hys := (List.mergeSort_perm (a :: b :: rest) fun a b => !lt b a).trans hperm.symm
    have hsorted := List.pairwise_mergeSort htrans htotal (a :: b :: rest)
    obtain ⟨s, hs⟩ := exists_sort hys fun _ => (hagree.perm hys.symm).sorted
      (hsorted.imp fun h => by rwa [Bool.not_eq_true'] at h)
    refine ⟨s, _, hs, List.pair_sublist_mergeSort htrans htotal ?_ ?_⟩
    · rw [hab lt order hagree, Bool.not_false]
    · exact (List.nil_sublist rest).cons_cons b |>.cons_cons a
  · obtain ⟨s, hs⟩ := exists_sort hperm.symm fun h => absurd h horders
    exact ⟨s, _, hs, (List.nil_sublist rest).cons_cons b |>.cons_cons a⟩

end Rhosus

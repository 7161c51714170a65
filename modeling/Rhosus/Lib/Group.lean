import Rhosus.Lib.Table

/-!
# Items grouped by keys

A map from keys to lists gets items one after the other, each at the end of the list of its key. A
key is then in the map if it has an item, with the items that have it, and the lists together are
the items in another order.
-/

namespace Rhosus.OrdMap

variable {K V : Type} [Ord K] [Std.TransOrd K] [Std.LawfulEqOrd K] [DecidableEq K]

/-- An item comes to the list of its key. -/
def push (m : OrdMap K (List V)) (e : K × V) : OrdMap K (List V) :=
  m.insert e.1 ((m[e.1]?).getD [] ++ [e.2])

def group (es : List (K × V)) : OrdMap K (List V) := es.foldl push ∅

variable {k : K} {v : V}

theorem getD_foldl_push : ∀ (es : List (K × V)) {m : OrdMap K (List V)},
    ((es.foldl push m)[k]?).getD [] = (m[k]?).getD [] ++ (es.filter (·.1 = k)).map Prod.snd
  | [], _ => by simp
  | e :: es, m => by
    rw [List.foldl_cons, getD_foldl_push es, push, get_insert]
    split_ifs with hk
    · subst hk
      simp
    · rw [List.filter_cons_of_neg (by simpa using hk)]

theorem getD_group (es : List (K × V)) (k : K) :
    ((group es)[k]?).getD [] = (es.filter (·.1 = k)).map Prod.snd := by
  rw [group, getD_foldl_push]
  simp

theorem mem_group {es : List (K × V)} : v ∈ ((group es)[k]?).getD [] ↔ (k, v) ∈ es := by
  rw [getD_group]
  simp

theorem isSome_foldl_push : ∀ (es : List (K × V)) {m : OrdMap K (List V)},
    ((es.foldl push m)[k]?).isSome ↔ (m[k]?).isSome ∨ k ∈ es.map Prod.fst
  | [], _ => by simp
  | e :: es, m => by
    rw [List.foldl_cons, isSome_foldl_push es, push, get_insert, List.map_cons, List.mem_cons]
    split_ifs with hk
    · simp [hk]
    · simp [Ne.symm hk]

theorem mem_keys_group {es : List (K × V)} : k ∈ (group es).keys ↔ k ∈ es.map Prod.fst := by
  rw [Std.ExtTreeMap.mem_keys, Std.ExtTreeMap.mem_iff_isSome_getElem?, group, isSome_foldl_push]
  simp

theorem group_ne_nil {es : List (K × V)} {vs : List V} (h : (group es)[k]? = some vs) :
    vs ≠ [] := by
  have hk : k ∈ (group es).keys := by
    rw [Std.ExtTreeMap.mem_keys, Std.ExtTreeMap.mem_iff_isSome_getElem?, h]
    rfl
  obtain ⟨⟨_, v⟩, he, rfl⟩ := List.mem_map.mp (mem_keys_group.mp hk)
  have hv := mem_group.mpr he
  rw [h] at hv
  exact List.ne_nil_of_mem hv

section Insert

variable {α : Type} {key : α → K} {val : α → V}

theorem get_foldl_insert_of_notMem : ∀ {as : List α} {m : OrdMap K V}, k ∉ as.map key →
    (as.foldl (fun m a => m.insert (key a) (val a)) m)[k]? = m[k]?
  | [], _, _ => rfl
  | a :: as, m, hk => by
    rw [List.map_cons, List.mem_cons, not_or] at hk
    rw [List.foldl_cons, get_foldl_insert_of_notMem hk.2, get_insert_of_ne (Ne.symm hk.1)]

theorem get_foldl_insert : ∀ {as : List α} {m : OrdMap K V}, (as.map key).Nodup → ∀ a ∈ as,
    (as.foldl (fun m a => m.insert (key a) (val a)) m)[key a]? = some (val a)
  | a :: as, m, hnd, b, hb => by
    obtain ⟨hnot, hnd⟩ := List.nodup_cons.mp hnd
    rw [List.foldl_cons]
    rcases List.mem_cons.mp hb with rfl | hb
    · rw [get_foldl_insert_of_notMem hnot, get_insert, if_pos rfl]
    · exact get_foldl_insert hnd b hb

end Insert

section Perm

omit [DecidableEq K]

theorem nodup_toList (m : OrdMap K V) : m.toList.Nodup :=
  (Std.ExtTreeMap.distinct_keys_toList (t := m)).imp fun h he =>
    h (Std.LawfulEqCmp.compare_eq_iff_eq.mpr (congrArg Prod.fst he))

theorem toList_perm [DecidableEq K] {m : OrdMap K V} (h : m[k]? = some v) :
    m.toList.Perm ((k, v) :: m.toList.filter fun e => e.1 ≠ k) := by
  refine (List.perm_ext_iff_of_nodup m.nodup_toList ?_).mpr fun ⟨k', v'⟩ => ?_
  · exact List.nodup_cons.mpr ⟨by simp, m.nodup_toList.filter _⟩
  · simp only [List.mem_cons, List.mem_filter, Prod.mk.injEq, decide_eq_true_eq,
      Std.ExtTreeMap.mem_toList_iff_getElem?_eq_some]
    by_cases hk : k' = k
    · subst hk
      simp [h, eq_comm]
    · simp [hk]

theorem toList_push_perm [DecidableEq K] (m : OrdMap K (List V)) (e : K × V) :
    ((m.push e).toList.flatMap Prod.snd).Perm (m.toList.flatMap Prod.snd ++ [e.2]) := by
  have hnew : (m.push e)[e.1]? = some ((m[e.1]?).getD [] ++ [e.2]) := by
    rw [push, get_insert, if_pos rfl]
  have hrest : ((m.push e).toList.filter fun x => x.1 ≠ e.1).Perm
      (m.toList.filter fun x => x.1 ≠ e.1) := by
    refine (List.perm_ext_iff_of_nodup ((nodup_toList _).filter _)
      ((nodup_toList _).filter _)).mpr fun ⟨k', v'⟩ => ?_
    simp only [List.mem_filter, decide_eq_true_eq, Std.ExtTreeMap.mem_toList_iff_getElem?_eq_some,
      and_congr_left_iff]
    intro hk
    rw [push, get_insert_of_ne (Ne.symm hk)]
  have hold : (m.toList.flatMap Prod.snd).Perm
      ((m[e.1]?).getD [] ++ (m.toList.filter fun x => x.1 ≠ e.1).flatMap Prod.snd) := by
    rcases hm : m[e.1]? with _ | vs
    · have hall : (m.toList.filter fun x => x.1 ≠ e.1) = m.toList := by
        refine List.filter_eq_self.mpr fun x hx => decide_eq_true fun hxe => ?_
        rw [← hxe, Std.ExtTreeMap.mem_toList_iff_getElem?_eq_some.mp hx] at hm
        cases hm
      rw [hall]
      exact .refl _
    · exact (toList_perm hm).flatMap_right Prod.snd
  refine ((toList_perm hnew).flatMap_right Prod.snd).trans ?_
  rw [List.flatMap_cons]
  refine .trans ?_ (hold.symm.append_right _)
  rw [List.append_assoc, List.append_assoc]
  refine .append_left _ ?_
  exact List.perm_append_comm.trans ((hrest.flatMap_right _).append_right _)

theorem toList_foldl_push_perm [DecidableEq K] : ∀ (es : List (K × V)) (m : OrdMap K (List V)),
    ((es.foldl push m).toList.flatMap Prod.snd).Perm
      (m.toList.flatMap Prod.snd ++ es.map Prod.snd)
  | [], _ => by simp
  | e :: es, m => by
    refine (toList_foldl_push_perm es (m.push e)).trans ?_
    rw [List.map_cons, ← List.singleton_append, ← List.append_assoc]
    exact (toList_push_perm m e).append_right _

theorem toList_group_perm [DecidableEq K] (es : List (K × V)) :
    ((group es).toList.flatMap Prod.snd).Perm (es.map Prod.snd) := by
  have hempty : (∅ : OrdMap K (List V)).toList = [] := rfl
  have h := toList_foldl_push_perm es ∅
  rwa [hempty] at h

end Perm

end Rhosus.OrdMap

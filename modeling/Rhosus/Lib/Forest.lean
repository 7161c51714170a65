import Mathlib.Data.List.Nodup
import Mathlib.Logic.Relation
import Mathlib.Order.WellFounded

/-!
# Forests

A relation of parents and children in which a child has one parent and is of greater rank. What is
below one child is not below another of the same parent, so that a walk that goes down from each
child in turn comes to nothing twice (`Visits`).
-/

namespace Rhosus

variable {α : Type} {child : α → α → Prop} {rank : α → ℕ}

structure Forest (child : α → α → Prop) (rank : α → ℕ) : Prop where
  rank_lt : ∀ {d c}, child d c → rank d < rank c
  parent : ∀ {d d' c}, child d c → child d' c → d = d'

/-- A walk down from `cs` may come to `vs`, to each at most once. -/
structure Visits (child : α → α → Prop) (cs vs : List α) : Prop where
  nodup : vs.Nodup
  below : ∀ v ∈ vs, ∃ c ∈ cs, Relation.ReflTransGen child c v

namespace Forest

variable {d c c' v : α} {cs vs ws : List α}

theorem rank_le (h : Forest child rank) (hv : Relation.ReflTransGen child d v) :
    rank d ≤ rank v := by
  induction hv with
  | refl => exact Nat.le_refl _
  | tail _ hc ih => exact ih.trans (h.rank_lt hc).le

theorem not_below_child (h : Forest child rank) (hc : child d c) :
    ¬ Relation.ReflTransGen child c d :=
  fun hd => absurd (h.rank_le hd) (h.rank_lt hc).not_ge

theorem eq_of_below (h : Forest child rank) (hc : child d c) (hc' : child d c')
    (hv : Relation.ReflTransGen child c c') : c = c' := by
  rcases hv.cases_tail with rfl | ⟨u, hu, hu'⟩
  · rfl
  · rw [h.parent hu' hc'] at hu
    exact absurd hu (h.not_below_child hc)

theorem eq_of_siblings (h : Forest child rank) (hc : child d c) (hc' : child d c')
    (hv : Relation.ReflTransGen child c v) (hv' : Relation.ReflTransGen child c' v) : c = c' := by
  induction hv with
  | refl => exact (h.eq_of_below hc' hc hv').symm
  | tail hu hvu ih =>
    rcases hv'.cases_tail with rfl | ⟨w, hw, hvw⟩
    · exact h.eq_of_below hc hc' (hu.tail hvu)
    · rw [h.parent hvw hvu] at hw
      exact ih hw

/-- There is no way down without an end where the ranks are bounded. -/
theorem wellFounded (h : Forest child rank) {n : ℕ} (hn : ∀ {d c}, child d c → rank c < n) :
    WellFounded fun c d => child d c := by
  refine Subrelation.wf (fun {c d} hc => ?_) (measure fun c => n - rank c).wf
  have := h.rank_lt hc
  have := hn hc
  change n - rank c < n - rank d
  omega

end Forest

namespace Visits

variable {d c : α} {cs vs ws : List α}

theorem nil (cs : List α) : Visits child cs [] := ⟨List.nodup_nil, fun _ hv => by cases hv⟩

theorem single (d : α) : Visits child [d] [d] :=
  ⟨List.nodup_singleton d, fun _ hv => ⟨d, List.mem_cons_self, by rw [List.mem_singleton.mp hv]⟩⟩

theorem mono (h : Visits child cs vs) {cs' : List α} (hcs : cs ⊆ cs') : Visits child cs' vs :=
  ⟨h.nodup, fun v hv => (h.below v hv).imp fun _ hc => ⟨hcs hc.1, hc.2⟩⟩

theorem append (h : Forest child rank) (hcs : ∀ x ∈ c :: cs, child d x) (hc : c ∉ cs)
    (hvs : Visits child [c] vs) (hws : Visits child cs ws) :
    Visits child (c :: cs) (vs ++ ws) := by
  refine ⟨List.nodup_append'.mpr ⟨hvs.nodup, hws.nodup, fun v hv hw => ?_⟩, fun v hv => ?_⟩
  · obtain ⟨x, hx, hxv⟩ := hvs.below v hv
    obtain ⟨y, hy, hyv⟩ := hws.below v hw
    obtain rfl := List.mem_singleton.mp hx
    have hxy := h.eq_of_siblings (hcs x List.mem_cons_self) (hcs y (List.mem_cons_of_mem _ hy))
      hxv hyv
    exact hc (hxy ▸ hy)
  · rcases List.mem_append.mp hv with hv | hv
    · exact (hvs.mono (List.cons_subset_cons c (List.nil_subset cs))).below v hv
    · exact (hws.mono (List.subset_cons_self c cs)).below v hv

theorem cons (h : Forest child rank) (hcs : ∀ c ∈ cs, child d c) (hvs : Visits child cs vs) :
    Visits child [d] (d :: vs) := by
  refine ⟨List.nodup_cons.mpr ⟨fun hd => ?_, hvs.nodup⟩, fun v hv => ⟨d, List.mem_cons_self, ?_⟩⟩
  · obtain ⟨c, hc, hcd⟩ := hvs.below d hd
    exact h.not_below_child (hcs c hc) hcd
  · rcases List.mem_cons.mp hv with rfl | hv
    · exact .refl
    · obtain ⟨c, hc, hcv⟩ := hvs.below v hv
      exact .head (hcs c hc) hcv

end Visits

end Rhosus

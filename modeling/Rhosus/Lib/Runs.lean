import Mathlib.Data.List.Basic

/-!
# Runs of a system

A system takes steps, each named by a label; a step that is not possible in a state gives nothing.
`Along` says that every step of a run meets a condition in the state it is taken in, and an
invariant that such steps keep holds of the state the run ends in.
-/

namespace Rhosus

variable {S L : Type} (step : L → S → Option S)

/-- The state after the steps in turn. -/
def runSteps : List L → S → Option S
  | [], s => some s
  | l :: ls, s =>
    match step l s with
    | some s' => runSteps ls s'
    | none => none

theorem runSteps_append : ∀ (ls ls' : List L) (s : S),
    runSteps step (ls ++ ls') s = (runSteps step ls s).bind (runSteps step ls')
  | [], _, _ => rfl
  | l :: ls, ls', s => by
    rw [List.cons_append, runSteps, runSteps]
    rcases step l s with _ | s'
    · rfl
    · exact runSteps_append ls ls' s'

theorem runSteps_trans {step : L → S → Option S} {ls ls' : List L} {s s' s'' : S}
    (h : runSteps step ls s = some s') (h' : runSteps step ls' s' = some s'') :
    runSteps step (ls ++ ls') s = some s'' := by
  rw [runSteps_append, h, Option.bind_some, h']

/-- The steps meet `P`, as far as they are possible. -/
def Along (P : L → S → Prop) : List L → S → Prop
  | [], _ => True
  | l :: ls, s =>
    P l s ∧ match step l s with
      | some s' => Along P ls s'
      | none => True

instance Along.decidable (P : L → S → Prop) [∀ l s, Decidable (P l s)] :
    ∀ ls s, Decidable (Along step P ls s)
  | [], _ => isTrue trivial
  | l :: ls, s =>
    match h : step l s with
    | some s' =>
      have := Along.decidable P ls s'
      decidable_of_iff (P l s ∧ Along step P ls s') (by rw [Along, h])
    | none => decidable_of_iff (P l s ∧ True) (by rw [Along, h])

variable {step} {P Q : L → S → Prop} {I : S → Prop}

/-- Steps that meet `P` keep `I`, which gives them `Q`. -/
theorem Along.imp_of_invariant (hstep : ∀ l s s', I s → P l s → step l s = some s' → I s')
    (hQ : ∀ l s, I s → P l s → Q l s) :
    ∀ (ls : List L) {s : S}, I s → Along step P ls s → Along step Q ls s
  | [], _, _, _ => trivial
  | l :: ls, s, hI, h => by
    refine ⟨hQ l s hI h.1, ?_⟩
    have hrest := h.2
    rcases hs : step l s with _ | s' <;> rw [hs] at hrest
    · trivial
    · exact imp_of_invariant hstep hQ ls (hstep l s s' hI h.1 hs) hrest

theorem Along.congr (h : ∀ l s, P l s ↔ Q l s) (ls : List L) (s : S) :
    Along step P ls s ↔ Along step Q ls s := by
  obtain rfl : P = Q := funext fun l => funext fun s => propext (h l s)
  exact Iff.rfl

theorem Along.and : ∀ {ls : List L} {s : S}, Along step P ls s → Along step Q ls s →
    Along step (fun l s => P l s ∧ Q l s) ls s
  | [], _, _, _ => trivial
  | l :: ls, s, hP, hQ => by
    have hP' := hP.2
    have hQ' := hQ.2
    refine ⟨⟨hP.1, hQ.1⟩, ?_⟩
    rcases hs : step l s with _ | s' <;> rw [hs] at hP' hQ'
    · trivial
    · exact Along.and hP' hQ'

theorem Along.append_left : ∀ {ls ls' : List L} {s : S}, Along step P (ls ++ ls') s →
    Along step P ls s
  | [], _, _, _ => trivial
  | l :: ls, ls', s, h => by
    refine ⟨h.1, ?_⟩
    have hrest := h.2
    rcases hs : step l s with _ | s₁ <;> rw [hs] at hrest
    · trivial
    · exact append_left hrest

theorem Along.append_right : ∀ {ls ls' : List L} {s s' : S}, Along step P (ls ++ ls') s →
    runSteps step ls s = some s' → Along step P ls' s'
  | [], _, _, _, h, hrun => by
    obtain rfl := Option.some.inj hrun
    exact h
  | l :: ls, ls', s, s', h, hrun => by
    have hrest := h.2
    rw [runSteps] at hrun
    rcases hs : step l s with _ | s₁ <;> rw [hs] at hrest hrun
    · cases hrun
    · exact append_right hrest hrun

theorem Along.append {ls' : List L} {s' : S} : ∀ {ls : List L} {s : S}, Along step P ls s →
    runSteps step ls s = some s' → Along step P ls' s' → Along step P (ls ++ ls') s
  | [], s, _, hrun, h' => by
    obtain rfl := Option.some.inj hrun
    exact h'
  | l :: ls, s, h, hrun, h' => by
    refine ⟨h.1, ?_⟩
    have hrest := h.2
    rw [runSteps] at hrun
    rcases hs : step l s with _ | s₁ <;> rw [hs] at hrun hrest
    · trivial
    · exact Along.append hrest hrun h'

theorem Along.of_forall : ∀ {ls : List L} {s : S}, (∀ l ∈ ls, ∀ s, P l s) → Along step P ls s
  | [], _, _ => trivial
  | l :: ls, s, h => by
    refine ⟨h l List.mem_cons_self s, ?_⟩
    split
    · exact Along.of_forall fun l' hl' => h l' (List.mem_cons_of_mem _ hl')
    · trivial

/-- Where each step does to an abstract state what its label says, so does the run. -/
theorem Along.simulation {A : Type} {R : S → A → Prop} {f : L → A → A}
    (hstep : ∀ l s s' a, R s a → P l s → step l s = some s' → R s' (f l a)) :
    ∀ (ls : List L) {s s' : S} {a : A}, R s a → Along step P ls s →
      runSteps step ls s = some s' → R s' (ls.foldl (fun a l => f l a) a)
  | [], s, s', a, hR, _, hrun => by
    obtain rfl := Option.some.inj hrun
    exact hR
  | l :: ls, s, s', a, hR, h, hrun => by
    have hrest := h.2
    rw [runSteps] at hrun
    rcases hs : step l s with _ | s₁ <;> rw [hs] at hrest hrun
    · cases hrun
    · exact simulation hstep ls (hstep l s s₁ a hR h.1 hs) hrest hrun

/-- An invariant that the steps keep holds at the end of the run. -/
theorem Along.invariant (hstep : ∀ l s s', I s → P l s → step l s = some s' → I s')
    (ls : List L) {s s' : S} (hI : I s) (h : Along step P ls s)
    (hrun : runSteps step ls s = some s') : I s' :=
  Along.simulation (R := fun s (_ : Unit) => I s) (f := fun _ a => a) (a := ())
    (fun l s s' _ hI => hstep l s s' hI) ls hI h hrun

theorem runSteps_invariant (hstep : ∀ l s s', I s → step l s = some s' → I s')
    (ls : List L) {s s' : S} (hI : I s) (hrun : runSteps step ls s = some s') : I s' :=
  Along.invariant (P := fun _ _ => True) (fun l s s' hI _ => hstep l s s' hI) ls hI
    (Along.of_forall fun _ _ _ => trivial) hrun

/-- Where a step that does not meet `P` leads to states that no run comes out of, the steps of a run
that ends outside of them do. -/
theorem Along.of_escapes {B : S → Prop} (hstep : ∀ l s s', I s → P l s → step l s = some s' → I s')
    (hfall : ∀ l s s', I s → ¬ P l s → step l s = some s' → B s')
    (hkeep : ∀ l s s', B s → step l s = some s' → B s') :
    ∀ (ls : List L) {s s' : S}, I s → runSteps step ls s = some s' → ¬ B s' → Along step P ls s
  | [], _, _, _, _, _ => trivial
  | l :: ls, s, s', hI, hrun, hB => by
    rw [runSteps] at hrun
    rcases hs : step l s with _ | s₁ <;> rw [hs] at hrun
    · cases hrun
    · have hP : P l s := by
        by_contra hP
        exact hB (runSteps_invariant hkeep ls (hfall l s s₁ hI hP hs) hrun)
      refine ⟨hP, ?_⟩
      rw [hs]
      exact of_escapes hstep hfall hkeep ls (hstep l s s₁ hI hP hs) hrun hB

end Rhosus

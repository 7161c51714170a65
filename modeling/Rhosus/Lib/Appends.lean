import Rhosus.Lib.Runs

/-!
# Appends without a lock

Several writers add their items to one list, each by a load of the list and a store of what it has
loaded with its items at the end. One writer, or writers that come in turn, leave all the items
(`gather_single`, `gather_inTurn`); of two that load before either stores, the first loses its own
(`gather_overlapping`).
-/

namespace Rhosus.Appends

variable {α : Type}

inductive Stage (α : Type)
  | start
  | loaded (seen : List α)
  | done

def Stage.isDone : Stage α → Bool
  | .done => true
  | _ => false

structure Writer (α : Type) where
  items : List α
  stage : Stage α

structure Shared (α : Type) where
  list : List α
  writers : List (Writer α)

inductive Label
  | load (i : ℕ)
  | store (i : ℕ)

def step : Label → Shared α → Option (Shared α)
  | .load i, s =>
    match s.writers[i]? with
    | some ⟨items, .start⟩ =>
      some { s with writers := s.writers.set i ⟨items, .loaded s.list⟩ }
    | _ => none
  | .store i, s =>
    match s.writers[i]? with
    | some ⟨items, .loaded seen⟩ => some ⟨seen ++ items, s.writers.set i ⟨items, .done⟩⟩
    | _ => none

/-- The writers with these items, before they begin. -/
def begin (itemss : List (List α)) : Shared α := ⟨[], itemss.map fun items => ⟨items, .start⟩⟩

/-- What the list is when all writers have done; nothing where they have not. -/
def gather (itemss : List (List α)) (sched : List Label) : Option (List α) :=
  (runSteps step sched (begin itemss)).bind fun s =>
    if s.writers.all (·.stage.isDone) then some s.list else none

/-- A single writer, as far as it has come. -/
def Alone (items : List α) (s : Shared α) : Prop :=
  s = ⟨[], [⟨items, .start⟩]⟩ ∨ s = ⟨[], [⟨items, .loaded []⟩]⟩ ∨ s = ⟨items, [⟨items, .done⟩]⟩

theorem Alone.step {items : List α} {s s' : Shared α} {l : Label} (h : Alone items s)
    (hstep : step l s = some s') : Alone items s' := by
  rcases h with rfl | rfl | rfl
  all_goals
    rcases l with (_ | i) | (_ | i) <;> simp only [Appends.step, List.getElem?_cons_zero,
      List.getElem?_cons_succ, List.getElem?_nil, reduceCtorEq] at hstep
  · obtain rfl := Option.some.inj hstep
    exact .inr (.inl rfl)
  · obtain rfl := Option.some.inj hstep
    exact .inr (.inr rfl)

theorem gather_single {itemss : List (List α)} (hone : itemss.length ≤ 1) {sched : List Label}
    {list : List α} (h : gather itemss sched = some list) : list = itemss.flatten := by
  obtain ⟨s, hrun, hs⟩ := Option.bind_eq_some_iff.mp h
  split_ifs at hs with hdone
  obtain rfl := Option.some.inj hs
  match itemss, hone with
  | [], _ =>
    rcases sched with _ | ⟨l, sched⟩
    · obtain rfl := Option.some.inj hrun
      rfl
    · rcases l with i | i <;> simp [runSteps, step, begin] at hrun
  | [items], _ =>
    have halone : Alone items s :=
      runSteps_invariant (fun _ _ _ h => h.step) sched (.inl rfl) hrun
    rcases halone with rfl | rfl | rfl
    · simp [Stage.isDone] at hdone
    · simp [Stage.isDone] at hdone
    · simp

/-- The writers from `k` on, `n` of them, one after the other. -/
def inTurn : ℕ → ℕ → List Label
  | _, 0 => []
  | k, n + 1 => .load k :: .store k :: inTurn (k + 1) n

theorem runSteps_inTurn : ∀ (itemss : List (List α)) (ws : List (Writer α)) (list : List α),
    runSteps step (inTurn ws.length itemss.length)
        ⟨list, ws ++ itemss.map fun items => ⟨items, .start⟩⟩
      = some ⟨list ++ itemss.flatten, ws ++ itemss.map fun items => ⟨items, .done⟩⟩
  | [], ws, list => by simp [inTurn, runSteps]
  | items :: itemss, ws, list => by
    have hrest := runSteps_inTurn itemss (ws ++ [⟨items, .done⟩]) (list ++ items)
    rw [List.length_append, List.length_singleton] at hrest
    simpa [inTurn, runSteps, step, List.append_assoc] using hrest

theorem gather_of_run {itemss : List (List α)} {sched : List Label} {s : Shared α}
    (hrun : runSteps step sched (begin itemss) = some s)
    (hdone : ∀ w ∈ s.writers, w.stage = .done) : gather itemss sched = some s.list := by
  have hall : s.writers.all (·.stage.isDone) = true :=
    List.all_eq_true.mpr fun w hw => by rw [hdone w hw]; rfl
  rw [gather, hrun, Option.bind_some, if_pos hall]

theorem gather_inTurn (itemss : List (List α)) :
    gather itemss (inTurn 0 itemss.length) = some itemss.flatten :=
  gather_of_run (runSteps_inTurn itemss [] []) (by simp)

/-- The first two writers load, and then they store. -/
def overlapping (n : ℕ) : List Label := [.load 0, .load 1, .store 0, .store 1] ++ inTurn 2 n

theorem gather_overlapping (as bs : List α) (itemss : List (List α)) :
    gather (as :: bs :: itemss) (overlapping itemss.length) = some (bs ++ itemss.flatten) := by
  have hrest := runSteps_inTurn itemss [⟨as, .done⟩, ⟨bs, .done⟩] bs
  refine gather_of_run (runSteps_trans ?_ hrest) (by simp)
  simp [runSteps, step, begin]

end Rhosus.Appends

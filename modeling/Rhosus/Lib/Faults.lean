import Mathlib.Data.List.AList
import Mathlib.Data.List.Sort

/-!
# Programs over a directory whose file operations may fail or be cut short

A program runs over its own memory and one directory of files, and asks a plan what befalls each
file operation: nothing, an error, or a stop of the whole machine just before it. A stop keeps
the directory and loses the memory. `Ends` says how a program ends: in a result, or stopped on a
directory from which a later program is to recover; and in no panic.
-/

namespace Rhosus

abbrev Dir (N : Type) := AList fun _ : N => List UInt8

/-- What befalls the next file operation. A write that fails may leave the first `n` bytes. -/
inductive Fault
  | none
  | fail (n : ℕ)
  | crash
  deriving DecidableEq

/-- The program's memory, the directory, and the faults to come: none past the end of the plan. -/
structure World (N σ : Type) where
  mem : σ
  dir : Dir N
  plan : List Fault

inductive Outcome (ε α : Type)
  | ok (a : α)
  | err (e : ε)
  | panic
  | crash
  deriving DecidableEq

def Outcome.ofExcept {ε α : Type} : Except ε α → Outcome ε α
  | .ok a => .ok a
  | .error e => .err e

def Prog (N σ ε α : Type) := World N σ → Outcome ε α × World N σ

namespace Prog

variable {N σ ε α β : Type}

instance : Monad (Prog N σ ε) where
  pure a := fun w => (.ok a, w)
  bind m f := fun w =>
    match m w with
    | (.ok a, w') => f a w'
    | (.err e, w') => (.err e, w')
    | (.panic, w') => (.panic, w')
    | (.crash, w') => (.crash, w')

instance : LawfulMonad (Prog N σ ε) := by
  refine LawfulMonad.mk' _ (fun x => ?_) (fun _ _ => rfl) (fun x f g => ?_)
  · funext w
    change (match x w with
      | (.ok a, w') => (Outcome.ok a, w')
      | (.err e, w') => (.err e, w')
      | (.panic, w') => (.panic, w')
      | (.crash, w') => (.crash, w')) = x w
    rcases x w with ⟨_ | _ | _ | _, _⟩ <;> rfl
  · funext w
    simp only [Bind.bind]
    rcases x w with ⟨_ | _ | _ | _, _⟩ <;> rfl

def throw (e : ε) : Prog N σ ε α := fun w => (.err e, w)

def panic : Prog N σ ε α := fun w => (.panic, w)

def getMem : Prog N σ ε σ := fun w => (.ok w.mem, w)

def modifyMem (f : σ → σ) : Prog N σ ε Unit := fun w => (.ok (), { w with mem := f w.mem })

/-- An index or a slice bound that is checked at run time. -/
def orPanic : Option α → Prog N σ ε α
  | some a => pure a
  | none => panic

/-- Runs `m` and forgets an error it returns. -/
def ignoreErr (m : Prog N σ ε Unit) : Prog N σ ε Unit := fun w =>
  match m w with
  | (.err _, w') => (.ok (), w')
  | r => r

/-- A deferred `recover`: a panic of `m` becomes the error `e`, and `f` runs on the memory. -/
def recovering (e : ε) (f : σ → σ) (m : Prog N σ ε α) : Prog N σ ε α := fun w =>
  match m w with
  | (.panic, w') => (.err e, { w' with mem := f w'.mem })
  | r => r

/-- Runs `m` on each item in turn, to the first that does not return. -/
def each (m : α → Prog N σ ε Unit) : List α → Prog N σ ε Unit
  | [] => pure ()
  | a :: as => do
    m a
    each m as

/-- One file operation: `f` says what it does to the directory, `none` where it cannot be done,
and `torn n` what a failed one that wrote `n` bytes leaves. -/
def fileOp (e : ε) (f : Dir N → Option (α × Dir N)) (torn : ℕ → Dir N → Dir N) :
    Prog N σ ε α := fun w =>
  match w.plan.headD .none with
  | .none =>
    match f w.dir with
    | some (a, d) => (.ok a, { w with dir := d, plan := w.plan.tail })
    | none => (.err e, { w with plan := w.plan.tail })
  | .fail n => (.err e, { w with dir := torn n w.dir, plan := w.plan.tail })
  | .crash => (.crash, w)

/-- An operation that leaves the files as they are: a sync, a close, a seek. -/
def touch (e : ε) : Prog N σ ε Unit := fileOp e (fun d => some ((), d)) fun _ d => d

section Files

variable [DecidableEq N]

/-- Opens a file to write, created if it is not there and cut to nothing if it is. -/
def create (e : ε) (n : N) : Prog N σ ε Unit :=
  fileOp e (fun d => some ((), d.insert n [])) fun _ d => d

def append (e : ε) (n : N) (bs : List UInt8) : Prog N σ ε Unit :=
  fileOp e (fun d => (d.lookup n).map fun c => ((), d.insert n (c ++ bs)))
    fun k d => match d.lookup n with
      | some c => d.insert n (c ++ bs.take k)
      | none => d

def rename (e : ε) (a b : N) : Prog N σ ε Unit :=
  fileOp e (fun d => (d.lookup a).map fun c => ((), (d.erase a).insert b c)) fun _ d => d

def remove (e : ε) (n : N) : Prog N σ ε Unit :=
  fileOp e (fun d => (d.lookup n).map fun _ => ((), d.erase n)) fun _ d => d

/-- Reads a file whole; opening one to append comes to the same, for what it needs. -/
def readFile (e : ε) (n : N) : Prog N σ ε (List UInt8) :=
  fileOp e (fun d => (d.lookup n).map fun c => (c, d)) fun _ d => d

end Files

/-- The names of the directory, in order. -/
def readDir [LinearOrder N] (e : ε) : Prog N σ ε (List N) :=
  fileOp e (fun d => some (d.keys.insertionSort (· ≤ ·), d)) fun _ d => d

end Prog

/-- The plan fails no operation; it may stop the machine. -/
def NoFail (p : List Fault) : Prop := ∀ n, Fault.fail n ∉ p

theorem NoFail.nil : NoFail [] := by simp [NoFail]

theorem NoFail.tail {p : List Fault} (h : NoFail p) : NoFail p.tail :=
  fun n hn => h n (List.mem_of_mem_tail hn)

/-- How `m` ends from `w`: with a result or an error and a world in `Q`, or stopped, where the plan
says so, on a directory in `C`. It takes its faults from the front of the plan. -/
def Ends {N σ ε α : Type} (m : Prog N σ ε α) (w : World N σ)
    (Q : Except ε α → World N σ → Prop) (C : Dir N → Prop) : Prop :=
  match m w with
  | (.ok a, w') => w'.plan <:+ w.plan ∧ Q (.ok a) w'
  | (.err e, w') => w'.plan <:+ w.plan ∧ Q (.error e) w'
  | (.panic, _) => False
  | (.crash, w') => .crash ∈ w.plan ∧ C w'.dir

namespace Ends

variable {N σ ε α β : Type} {w : World N σ} {C : Dir N → Prop}

theorem pure {a : α} {Q : Except ε α → World N σ → Prop} (h : Q (.ok a) w) :
    Ends (Pure.pure a : Prog N σ ε α) w Q C := ⟨List.suffix_rfl, h⟩

theorem throw {e : ε} {Q : Except ε α → World N σ → Prop} (h : Q (.error e) w) :
    Ends (Prog.throw e : Prog N σ ε α) w Q C := ⟨List.suffix_rfl, h⟩

theorem bind {m : Prog N σ ε α} {f : α → Prog N σ ε β} {Q : Except ε β → World N σ → Prop}
    (h : Ends m w (fun r w' => match r with
      | .ok a => Ends (f a) w' Q C
      | .error e => Q (.error e) w') C) : Ends (m >>= f) w Q C := by
  unfold Ends at h ⊢
  simp only [Bind.bind]
  rcases hm : m w with ⟨o, w'⟩
  rw [hm] at h
  cases o with
  | ok a =>
    obtain ⟨hs, h⟩ := h
    dsimp only at h ⊢
    rcases hf : f a w' with ⟨o, w''⟩
    rw [hf] at h
    cases o with
    | ok b => exact ⟨h.1.trans hs, h.2⟩
    | err e => exact ⟨h.1.trans hs, h.2⟩
    | panic => exact h
    | crash => exact ⟨hs.mem h.1, h.2⟩
  | err e => exact h
  | panic => exact h
  | crash => exact h

/-- As `bind`, where `m` cannot return an error. -/
theorem bind_ok {m : Prog N σ ε α} {f : α → Prog N σ ε β} {Q : Except ε β → World N σ → Prop}
    (h : Ends m w (fun r w' => ∃ a, r = .ok a ∧ Ends (f a) w' Q C) C) : Ends (m >>= f) w Q C := by
  apply bind
  unfold Ends at h ⊢
  rcases hm : m w with ⟨o, w'⟩
  rw [hm] at h
  cases o with
  | ok a =>
    obtain ⟨hs, a', ha, h⟩ := h
    cases ha
    exact ⟨hs, h⟩
  | err e =>
    obtain ⟨-, a', ha, -⟩ := h
    cases ha
  | panic => exact h
  | crash => exact h

theorem mono {m : Prog N σ ε α} {Q Q' : Except ε α → World N σ → Prop} {C' : Dir N → Prop}
    (h : Ends m w Q C) (hQ : ∀ r w', Q r w' → Q' r w') (hC : ∀ d, C d → C' d) :
    Ends m w Q' C' := by
  unfold Ends at h ⊢
  rcases hm : m w with ⟨o, w'⟩
  rw [hm] at h
  cases o with
  | ok a => exact ⟨h.1, hQ _ _ h.2⟩
  | err e => exact ⟨h.1, hQ _ _ h.2⟩
  | panic => exact h
  | crash => exact ⟨h.1, hC _ h.2⟩

theorem bind_of {m : Prog N σ ε α} {f : α → Prog N σ ε β} {P : Except ε α → World N σ → Prop}
    {D : Dir N → Prop} {Q : Except ε β → World N σ → Prop} (h : Ends m w P D)
    (hC : ∀ d, D d → C d) (hP : ∀ r w', P r w' → ∃ a, r = .ok a ∧ Ends (f a) w' Q C) :
    Ends (m >>= f) w Q C :=
  bind_ok (h.mono hP hC)

theorem getMem {Q : Except ε σ → World N σ → Prop} (h : Q (.ok w.mem) w) :
    Ends (Prog.getMem : Prog N σ ε σ) w Q C := ⟨List.suffix_rfl, h⟩

theorem modifyMem {f : σ → σ} {Q : Except ε Unit → World N σ → Prop}
    (h : Q (.ok ()) { w with mem := f w.mem }) :
    Ends (Prog.modifyMem f : Prog N σ ε Unit) w Q C := ⟨List.suffix_rfl, h⟩

theorem orPanic {o : Option α} {a : α} {Q : Except ε α → World N σ → Prop} (ho : o = some a)
    (h : Q (.ok a) w) : Ends (Prog.orPanic o : Prog N σ ε α) w Q C := by
  subst ho
  exact pure h

theorem ignoreErr {m : Prog N σ ε Unit} {Q : Except ε Unit → World N σ → Prop}
    (h : Ends m w (fun _ w' => Q (.ok ()) w') C) : Ends (Prog.ignoreErr m) w Q C := by
  unfold Ends Prog.ignoreErr at *
  rcases hm : m w with ⟨o, w'⟩
  rw [hm] at h
  cases o <;> simp_all

theorem fileOp {e : ε} {f : Dir N → Option (α × Dir N)} {torn : ℕ → Dir N → Dir N} {a : α}
    {d : Dir N} {Q : Except ε α → World N σ → Prop} (hp : NoFail w.plan)
    (hf : f w.dir = some (a, d))
    (hC : C w.dir) (h : ∀ p, NoFail p → Q (.ok a) { w with dir := d, plan := p }) :
    Ends (Prog.fileOp e f torn : Prog N σ ε α) w Q C := by
  unfold Ends Prog.fileOp
  rcases hh : w.plan with _ | ⟨g, p⟩
  · simp only [List.headD_nil, hf, List.tail_nil]
    exact ⟨List.suffix_rfl, h [] NoFail.nil⟩
  · rw [hh] at hp
    cases g with
    | none =>
      simp only [List.headD_cons, hf, List.tail_cons]
      exact ⟨List.suffix_cons _ _, h p hp.tail⟩
    | fail n => exact absurd List.mem_cons_self (hp n)
    | crash => exact ⟨List.mem_cons_self, hC⟩

theorem touch {e : ε} {Q : Except ε Unit → World N σ → Prop} (hp : NoFail w.plan) (hC : C w.dir)
    (h : ∀ p, NoFail p → Q (.ok ()) { w with plan := p }) :
    Ends (Prog.touch e : Prog N σ ε Unit) w Q C :=
  fileOp hp rfl hC h

theorem returns {m : Prog N σ ε α} {Q : Except ε α → World N σ → Prop} (h : Ends m w Q C)
    (hp : w.plan = []) : ∃ r w', m w = (Outcome.ofExcept r, w') ∧ w'.plan = [] ∧ Q r w' := by
  unfold Ends at h
  rcases hm : m w with ⟨o, w'⟩
  rw [hm, hp] at h
  cases o with
  | ok a => exact ⟨.ok a, w', rfl, List.suffix_nil.mp h.1, h.2⟩
  | err e => exact ⟨.error e, w', rfl, List.suffix_nil.mp h.1, h.2⟩
  | panic => exact h.elim
  | crash => simp at h

/-- The directory it leaves, whether it returns or is stopped. -/
theorem dir {m : Prog N σ ε α} {Q : Except ε α → World N σ → Prop} (h : Ends m w Q C)
    (hQ : ∀ r w', Q r w' → C w'.dir) : C (m w).2.dir := by
  unfold Ends at h
  rcases hm : m w with ⟨o, w'⟩
  rw [hm] at h
  cases o with
  | ok a => exact hQ _ _ h.2
  | err e => exact hQ _ _ h.2
  | panic => exact h.elim
  | crash => exact h.2

end Ends

/-- The program never returns this error, whatever befalls it. -/
def Prog.Avoids {N σ ε α : Type} (e : ε) (m : Prog N σ ε α) : Prop := ∀ w, (m w).1 ≠ .err e

namespace Prog.Avoids

variable {N σ ε α β : Type} {e e' : ε}

theorem pure (a : α) : Avoids e (Pure.pure a : Prog N σ ε α) := fun _ h => by cases h

theorem throw (h : e' ≠ e) : Avoids e (Prog.throw e' : Prog N σ ε α) := fun _ he => by
  cases he
  exact h rfl

theorem getMem : Avoids e (Prog.getMem : Prog N σ ε σ) := fun _ h => by cases h

theorem modifyMem (f : σ → σ) : Avoids e (Prog.modifyMem f : Prog N σ ε Unit) :=
  fun _ h => by cases h

theorem orPanic (o : Option α) : Avoids e (Prog.orPanic o : Prog N σ ε α) := by
  intro w h
  cases o <;> cases h

theorem bind {m : Prog N σ ε α} {f : α → Prog N σ ε β} (hm : Avoids e m)
    (hf : ∀ a, Avoids e (f a)) : Avoids e (m >>= f) := by
  intro w h
  simp only [Bind.bind] at h
  rcases hw : m w with ⟨o, w'⟩
  rw [hw] at h
  cases o with
  | ok a => exact hf a w' h
  | err e' =>
    cases h
    exact hm w (by rw [hw])
  | panic => cases h
  | crash => cases h

theorem fileOp {f : Dir N → Option (α × Dir N)} {torn : ℕ → Dir N → Dir N} (h : e' ≠ e) :
    Avoids e (Prog.fileOp e' f torn : Prog N σ ε α) := by
  intro w he
  unfold Prog.fileOp at he
  split at he
  · split at he
    · cases he
    · cases he
      exact h rfl
  · cases he
    exact h rfl
  · cases he

end Prog.Avoids

/-- Whatever befalls the program, it leaves `I` true of its memory. -/
def Prog.Keeps {N σ ε α : Type} (I : σ → Prop) (m : Prog N σ ε α) : Prop :=
  ∀ w, I w.mem → I (m w).2.mem

namespace Prog.Keeps

variable {N σ ε α β : Type} {I : σ → Prop}

theorem pure (a : α) : Keeps I (Pure.pure a : Prog N σ ε α) := fun _ h => h

theorem throw (e : ε) : Keeps I (Prog.throw e : Prog N σ ε α) := fun _ h => h

theorem getMem : Keeps I (Prog.getMem : Prog N σ ε σ) := fun _ h => h

theorem modifyMem {f : σ → σ} (h : ∀ s, I s → I (f s)) :
    Keeps I (Prog.modifyMem f : Prog N σ ε Unit) := fun w => h w.mem

theorem orPanic (o : Option α) : Keeps I (Prog.orPanic o : Prog N σ ε α) := by
  intro w h
  cases o <;> exact h

theorem bind {m : Prog N σ ε α} {f : α → Prog N σ ε β} (hm : Keeps I m) (hf : ∀ a, Keeps I (f a)) :
    Keeps I (m >>= f) := by
  intro w h
  have hw := hm w h
  simp only [Bind.bind]
  rcases hmw : m w with ⟨o, w'⟩
  rw [hmw] at hw
  cases o with
  | ok a => exact hf a w' hw
  | err e => exact hw
  | panic => exact hw
  | crash => exact hw

theorem fileOp {e : ε} {f : Dir N → Option (α × Dir N)} {torn : ℕ → Dir N → Dir N} :
    Keeps I (Prog.fileOp e f torn : Prog N σ ε α) := by
  intro w h
  unfold Prog.fileOp
  split
  · split <;> exact h
  · exact h
  · exact h

theorem ignoreErr {m : Prog N σ ε Unit} (hm : Keeps I m) : Keeps I (Prog.ignoreErr m) := by
  intro w h
  have hw := hm w h
  unfold Prog.ignoreErr
  split
  · rename_i hmw
    rwa [hmw] at hw
  · exact hw

theorem recovering {e : ε} {f : σ → σ} {m : Prog N σ ε α} (hf : ∀ s, I s → I (f s))
    (hm : Keeps I m) : Keeps I (Prog.recovering e f m) := by
  intro w h
  have hw := hm w h
  unfold Prog.recovering
  split
  · rename_i hmw
    rw [hmw] at hw
    exact hf _ hw
  · exact hw

theorem each {m : α → Prog N σ ε Unit} (hm : ∀ a, Keeps I (m a)) :
    ∀ as : List α, Keeps I (Prog.each m as)
  | [] => pure ()
  | a :: as => bind (hm a) fun _ => each hm as

end Prog.Keeps

end Rhosus

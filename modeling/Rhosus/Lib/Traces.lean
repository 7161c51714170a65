import Rhosus.Lib.Faults

/-!
# The file operations of a program, one by one

A trace of a program from a world is the file operations it makes there when none of them fails,
each with the memory and the directory before it. It tells what the program does under any plan
(`Leads.runs`, `Leads.passes`, `Leads.stops`, `Leads.fails`): a stop leaves the directory before
the operation, and so does an error that is returned, but for what a failed write has written.
`Leads` is the same for the first operations of a program, up to where it goes on as another one.

`Reports` are the programs that return the error of every operation they make, none of which is a
write: where they fail they leave the directory they would leave if they were stopped.
-/

namespace Rhosus

/-- The plan that lets `k` operations pass, and then has the fault `f`. -/
def faultAt (k : ℕ) (f : Fault) : List Fault := List.replicate k .none ++ [f]

/-- A file operation on a program's way: the memory and the directory before it, and, if the
program returns its error, the directory that a failure leaves, by the bytes it has written. -/
structure Point (N σ : Type) where
  mem : σ
  dir : Dir N
  left : Option (ℕ → Dir N)

namespace Point

variable {N σ : Type}

/-- An operation that changes nothing where it fails, and whose error is returned. -/
def clean (mem : σ) (dir : Dir N) : Point N σ := ⟨mem, dir, some fun _ => dir⟩

theorem eq_clean {pt : Point N σ} {mem : σ} {dir : Dir N} (h : pt = .clean mem dir) :
    pt = .clean pt.mem pt.dir := by
  subst h
  rfl

def unreported (pt : Point N σ) : Point N σ := { pt with left := none }

end Point

/-- The result `r` under the plan `q`, if the operations `ps` come first and then what is left of
the plan decides, by `g`. -/
def Agrees {N σ ε α : Type} (g : List Fault → Outcome ε α × World N σ) :
    List (Point N σ) → List Fault → Outcome ε α × World N σ → Prop
  | [], q, r => r = g q
  | pt :: ps, q, r =>
    match q.headD .none with
    | .none => Agrees g ps q.tail r
    | .fail n => ∀ t, pt.left = some t → ∃ e, r = (.err e, ⟨pt.mem, t n, q.tail⟩)
    | .crash => r = (.crash, ⟨pt.mem, pt.dir, q⟩)

/-- From `w` the program makes the operations `ps`, and then does what `g` says. -/
def Leads {N σ ε α : Type} (m : Prog N σ ε α) (w : World N σ) (ps : List (Point N σ))
    (g : List Fault → Outcome ε α × World N σ) : Prop :=
  ∀ q, Agrees g ps q (m { w with plan := q })

/-- From `w` the program makes the operations `ps` and ends in `o` with `w'`. -/
def Trace {N σ ε α : Type} (m : Prog N σ ε α) (w : World N σ) (ps : List (Point N σ))
    (o : Outcome ε α) (w' : World N σ) : Prop :=
  o ≠ .crash ∧ Leads m w ps fun q => (o, { w' with plan := q })

section Agrees

variable {N σ ε α β : Type} {g : List Fault → Outcome ε α × World N σ}
variable {v : List Fault → Outcome ε β × World N σ}
variable {f : Outcome ε α × World N σ → Outcome ε β × World N σ}

/-- What goes on after a result, but keeps errors and stops as they are. -/
theorem Agrees.trans {s : List (Point N σ)} (herr : ∀ e w, f (.err e, w) = (.err e, w))
    (hcrash : ∀ w, f (.crash, w) = (.crash, w)) (hf : ∀ q, Agrees v s q (f (g q))) :
    ∀ {ps : List (Point N σ)} {q : List Fault} {r : Outcome ε α × World N σ},
      Agrees g ps q r → Agrees v (ps ++ s) q (f r)
  | [], q, r, h => by
    rw [Agrees] at h
    rw [h]
    exact hf q
  | pt :: ps, q, r, h => by
    rw [List.cons_append, Agrees]
    rw [Agrees] at h
    rcases hq : q.headD .none with _ | n | _ <;> rw [hq] at h
    · exact trans herr hcrash hf h
    · intro t ht
      obtain ⟨e, rfl⟩ := h t ht
      exact ⟨e, herr e _⟩
    · rw [h]
      exact hcrash _

/-- Errors on the way are forgotten. -/
theorem Agrees.unreported (hcrash : ∀ w, f (.crash, w) = (.crash, w)) (hf : ∀ q, f (g q) = v q) :
    ∀ {ps : List (Point N σ)} {q : List Fault} {r : Outcome ε α × World N σ},
      Agrees g ps q r → Agrees v (ps.map Point.unreported) q (f r)
  | [], q, r, h => by
    rw [Agrees] at h
    rw [h]
    exact hf q
  | pt :: ps, q, r, h => by
    rw [List.map_cons, Agrees]
    rw [Agrees] at h
    rcases hq : q.headD .none with _ | n | _ <;> rw [hq] at h
    · exact unreported hcrash hf h
    · intro t ht
      cases ht
    · rw [h]
      exact hcrash _

/-- Where no operation fails, all of them are made or the machine stops at one. -/
theorem Agrees.of_noFail : ∀ {ps : List (Point N σ)} {q : List Fault}
    {r : Outcome ε α × World N σ}, NoFail q → Agrees g ps q r →
      (∃ p, p <:+ q ∧ NoFail p ∧ r = g p)
        ∨ ∃ pt ∈ ps, .crash ∈ q ∧ ∃ p, r = (.crash, ⟨pt.mem, pt.dir, p⟩)
  | [], q, r, hq, h => .inl ⟨q, List.suffix_rfl, hq, h⟩
  | pt :: ps, q, r, hq, h => by
    rw [Agrees] at h
    rcases q with _ | ⟨f, q⟩
    · refine (of_noFail hq h).imp_right ?_
      rintro ⟨pt', hpt', hmem, -⟩
      simp at hmem
    · cases f with
      | none =>
        refine (of_noFail hq.tail h).imp ?_ ?_
        · rintro ⟨p, hs, hp, hr⟩
          exact ⟨p, hs.trans (List.suffix_cons _ _), hp, hr⟩
        · rintro ⟨pt', hpt', hmem, hr⟩
          exact ⟨pt', List.mem_cons_of_mem _ hpt', List.mem_cons_of_mem _ hmem, hr⟩
      | fail n => exact absurd List.mem_cons_self (hq n)
      | crash => exact .inr ⟨pt, List.mem_cons_self, List.mem_cons_self, _, h⟩

/-- A result that is no error and no stop comes after all operations, if their errors are
returned. -/
theorem Agrees.of_ok {a : α} : ∀ {ps : List (Point N σ)} {q : List Fault}
    {r : Outcome ε α × World N σ}, (∀ pt ∈ ps, pt.left.isSome) → r.1 = .ok a → Agrees g ps q r →
      ∃ q', r = g q'
  | [], q, _, _, _, h => ⟨q, h⟩
  | pt :: ps, q, r, hleft, hok, h => by
    rw [Agrees] at h
    rcases hq : q.headD .none with _ | n | _ <;> rw [hq] at h
    · exact of_ok (fun pt' hpt' => hleft pt' (List.mem_cons_of_mem _ hpt')) hok h
    · obtain ⟨t, ht⟩ := Option.isSome_iff_exists.mp (hleft pt List.mem_cons_self)
      obtain ⟨e, rfl⟩ := h t ht
      cases hok
    · rw [h] at hok
      cases hok

end Agrees

namespace Leads

variable {N σ ε α β : Type} {m : Prog N σ ε α} {f : α → Prog N σ ε β} {w w' : World N σ}
variable {ps qs : List (Point N σ)} {g : List Fault → Outcome ε α × World N σ}

theorem refl (m : Prog N σ ε α) (w : World N σ) : Leads m w [] fun q => m { w with plan := q } :=
  fun _ => rfl

theorem trans {m' : Prog N σ ε α} (h : Leads m w ps fun q => m' { w' with plan := q })
    (h' : Leads m' w' qs g) : Leads m w (ps ++ qs) g :=
  fun q => Agrees.trans (f := id) (fun _ _ => rfl) (fun _ => rfl) h' (h q)

theorem runs (h : Leads m w ps g) : m { w with plan := [] } = g [] := by
  have key : ∀ (ps : List (Point N σ)) {r : Outcome ε α × World N σ}, Agrees g ps [] r →
      r = g [] := by
    intro ps
    induction ps with
    | nil => exact fun h => h
    | cons pt ps ih => exact fun h => ih h
  exact key ps (h [])

theorem passes (h : Leads m w ps g) (p : List Fault) :
    m { w with plan := List.replicate ps.length .none ++ p } = g p := by
  have key : ∀ (ps : List (Point N σ)) {r : Outcome ε α × World N σ},
      Agrees g ps (List.replicate ps.length .none ++ p) r → r = g p := by
    intro ps
    induction ps with
    | nil => exact fun h => h
    | cons pt ps ih => exact fun h => ih h
  exact key ps (h _)

/-- A fault that comes after the operations is left for what follows. -/
theorem passes_faultAt (h : Leads m w ps g) {k : ℕ} (hk : ps.length ≤ k) (f : Fault) :
    m { w with plan := faultAt k f } = g (faultAt (k - ps.length) f) := by
  obtain ⟨j, rfl⟩ := Nat.exists_eq_add_of_le hk
  rw [Nat.add_sub_cancel_left, faultAt, List.replicate_add, List.append_assoc]
  exact h.passes _

theorem stops (h : Leads m w ps g) {k : ℕ} {pt : Point N σ} (hk : ps[k]? = some pt) :
    m { w with plan := faultAt k .crash } = (.crash, ⟨pt.mem, pt.dir, [.crash]⟩) := by
  have key : ∀ (ps : List (Point N σ)) (k : ℕ) {r : Outcome ε α × World N σ}, ps[k]? = some pt →
      Agrees g ps (faultAt k .crash) r → r = (.crash, ⟨pt.mem, pt.dir, [.crash]⟩) := by
    intro ps
    induction ps with
    | nil => simp
    | cons pt' ps ih =>
      rintro (_ | k) r hk h
      · cases hk
        exact h
      · exact ih k hk h
  exact key ps k hk (h _)

theorem fails (h : Leads m w ps g) {k : ℕ} {pt : Point N σ} (hk : ps[k]? = some pt) {n : ℕ}
    {t : ℕ → Dir N} (ht : pt.left = some t) :
    ∃ e, m { w with plan := faultAt k (.fail n) } = (.err e, ⟨pt.mem, t n, []⟩) := by
  have key : ∀ (ps : List (Point N σ)) (k : ℕ) {r : Outcome ε α × World N σ}, ps[k]? = some pt →
      Agrees g ps (faultAt k (.fail n)) r → ∃ e, r = (.err e, ⟨pt.mem, t n, []⟩) := by
    intro ps
    induction ps with
    | nil => simp
    | cons pt' ps ih =>
      rintro (_ | k) r hk h
      · cases hk
        exact h t ht
      · exact ih k hk h
  exact key ps k hk (h _)

/-- Under a plan that fails no operation, by how the program that follows ends. -/
theorem ends {m' : Prog N σ ε α} (h : Leads m w ps fun q => m' { w' with plan := q })
    (hp : NoFail w.plan) {Q : Except ε α → World N σ → Prop} {C : Dir N → Prop}
    (hC : ∀ pt ∈ ps, C pt.dir) (hQ : ∀ p, NoFail p → Ends m' { w' with plan := p } Q C) :
    Ends m w Q C := by
  unfold Ends
  rcases (h w.plan).of_noFail hp with ⟨p, hs, hnf, hr⟩ | ⟨pt, hpt, hmem, p, hr⟩
  · have hend := hQ p hnf
    unfold Ends at hend
    rw [hr]
    rcases hm : m' { w' with plan := p } with ⟨o, v⟩
    rw [hm] at hend
    cases o with
    | ok a => exact ⟨hend.1.trans hs, hend.2⟩
    | err e => exact ⟨hend.1.trans hs, hend.2⟩
    | panic => exact hend
    | crash => exact ⟨hs.mem hend.1, hend.2⟩
  · rw [hr]
    exact ⟨hmem, hC pt hpt⟩

theorem getMem {f : σ → Prog N σ ε α} (h : Leads (f w.mem) w ps g) :
    Leads (Prog.getMem >>= f) w ps g := h

theorem orPanic {x : Option β} {a : β} {f : β → Prog N σ ε α} (hx : x = some a)
    (h : Leads (f a) w ps g) : Leads (Prog.orPanic x >>= f) w ps g := by
  subst hx
  exact h

end Leads

/-- What `>>=` does with the result of the first program. -/
def Prog.andThen {N σ ε α β : Type} (f : α → Prog N σ ε β) :
    Outcome ε α × World N σ → Outcome ε β × World N σ
  | (.ok a, w) => f a w
  | (.err e, w) => (.err e, w)
  | (.panic, w) => (.panic, w)
  | (.crash, w) => (.crash, w)

/-- What `ignoreErr` does with the result. -/
def Prog.ignoring {N σ ε : Type} : Outcome ε Unit × World N σ → Outcome ε Unit × World N σ
  | (.err _, w) => (.ok (), w)
  | r => r

namespace Trace

variable {N σ ε α β : Type} {m : Prog N σ ε α} {f : α → Prog N σ ε β}
variable {w w' w'' : World N σ} {ps qs : List (Point N σ)}

section Read

variable {o : Outcome ε α}

theorem lt_of_stops (h : Trace m w ps o w') {k : ℕ}
    (hk : (m { w with plan := faultAt k .crash }).1 = .crash) : k < ps.length := by
  by_contra hle
  rw [h.2.passes_faultAt (not_lt.mp hle)] at hk
  exact h.1 hk

/-- Under a plan that fails no operation. -/
theorem ends {r : Except ε α} (h : Trace m w ps (Outcome.ofExcept r) w') (hp : NoFail w.plan)
    {Q : Except ε α → World N σ → Prop} {C : Dir N → Prop} (hC : ∀ pt ∈ ps, C pt.dir)
    (hQ : ∀ p, NoFail p → Q r { w' with plan := p }) : Ends m w Q C := by
  have hret : Leads m w ps fun q => (fun w => (Outcome.ofExcept r, w) : Prog N σ ε α)
      { w' with plan := q } := h.2
  refine hret.ends hp hC fun p hnf => ?_
  cases r with
  | ok a => exact ⟨List.suffix_rfl, hQ p hnf⟩
  | error e => exact ⟨List.suffix_rfl, hQ p hnf⟩

end Read

section Rules

theorem pure {a : α} : Trace (Pure.pure a : Prog N σ ε α) w [] (.ok a) w :=
  ⟨by simp, fun _ => rfl⟩

theorem throw {e : ε} : Trace (Prog.throw e : Prog N σ ε α) w [] (.err e) w :=
  ⟨by simp, fun _ => rfl⟩

/-- What is done with the result, but keeps errors and stops as they are. -/
theorem after {o : Outcome ε α} {o' : Outcome ε β} (h : Trace m w ps o w')
    (g : Outcome ε α × World N σ → Outcome ε β × World N σ)
    (herr : ∀ e w, g (.err e, w) = (.err e, w)) (hcrash : ∀ w, g (.crash, w) = (.crash, w))
    (ho : o' ≠ .crash) (hg : ∀ q, g (o, { w' with plan := q }) = (o', { w'' with plan := q })) :
    Trace (fun w => g (m w)) w ps o' w'' := by
  refine ⟨ho, fun q => ?_⟩
  have := Agrees.trans (v := fun q => (o', { w'' with plan := q })) (s := []) herr hcrash hg (h.2 q)
  rwa [List.append_nil] at this

/-- After `m` the program is what follows it. -/
theorem leads_bind {a : α} (h : Trace m w ps (.ok a) w') :
    Leads (m >>= f) w ps fun q => f a { w' with plan := q } := by
  intro q
  have := Agrees.trans (v := fun q => f a { w' with plan := q }) (s := []) (f := Prog.andThen f)
    (g := fun q => (.ok a, { w' with plan := q })) (fun _ _ => rfl) (fun _ => rfl) (fun _ => rfl)
    (h.2 q)
  rwa [List.append_nil] at this

theorem leads {a : α} {g : List Fault → Outcome ε β × World N σ} (h : Trace m w ps (.ok a) w')
    (hf : Leads (f a) w' [] g) : Leads (m >>= f) w ps g := by
  have := h.leads_bind.trans hf
  rwa [List.append_nil] at this

theorem bind {a : α} {o : Outcome ε β} (h : Trace m w ps (.ok a) w')
    (hf : Trace (f a) w' qs o w'') : Trace (m >>= f) w (ps ++ qs) o w'' :=
  ⟨hf.1, h.leads_bind.trans hf.2⟩

theorem bind_one {pt : Point N σ} {a : α} {o : Outcome ε β} (h : Trace m w [pt] (.ok a) w')
    (hf : Trace (f a) w' qs o w'') : Trace (m >>= f) w (pt :: qs) o w'' := h.bind hf

theorem bind_nil {a : α} {o : Outcome ε β} (h : Trace m w [] (.ok a) w')
    (hf : Trace (f a) w' qs o w'') : Trace (m >>= f) w qs o w'' := h.bind hf

theorem bind_last {a : α} {o : Outcome ε β} (h : Trace m w ps (.ok a) w')
    (hf : Trace (f a) w' [] o w'') : Trace (m >>= f) w ps o w'' := by
  have := h.bind hf
  rwa [List.append_nil] at this

/-- What does not return a result is not gone on from. -/
theorem bind_stop {o : Outcome ε α} {o' : Outcome ε β} (h : Trace m w ps o w')
    (ho : (∃ e, o = .err e ∧ o' = .err e) ∨ o = .panic ∧ o' = .panic) :
    Trace (m >>= f) w ps o' w' := by
  refine h.after (Prog.andThen f) (fun _ _ => rfl) (fun _ => rfl) ?_ fun q => ?_
  · rcases ho with ⟨e, -, rfl⟩ | ⟨-, rfl⟩ <;> simp
  · rcases ho with ⟨e, rfl, rfl⟩ | ⟨rfl, rfl⟩ <;> rfl

theorem getMem {f : σ → Prog N σ ε β} {o : Outcome ε β} (h : Trace (f w.mem) w ps o w') :
    Trace (Prog.getMem >>= f) w ps o w' := h

theorem modifyMem {g : σ → σ} {f : Unit → Prog N σ ε β} {o : Outcome ε β}
    (h : Trace (f ()) { w with mem := g w.mem } ps o w') :
    Trace (Prog.modifyMem g >>= f) w ps o w' := h

theorem orPanic {x : Option α} {a : α} {o : Outcome ε β} (hx : x = some a)
    (h : Trace (f a) w ps o w') : Trace (Prog.orPanic x >>= f) w ps o w' := by
  subst hx
  exact h

theorem fileOp {e : ε} {F : Dir N → Option (α × Dir N)} {t : ℕ → Dir N → Dir N} {a : α}
    {d : Dir N} (hF : F w.dir = some (a, d)) :
    Trace (Prog.fileOp e F t : Prog N σ ε α) w [⟨w.mem, w.dir, some fun n => t n w.dir⟩]
      (.ok a) { w with dir := d } := by
  refine ⟨by simp, fun q => ?_⟩
  simp only [Agrees, Prog.fileOp]
  rcases q.headD .none with _ | n | _
  · simp only [hF]
  · intro t ht
    cases ht
    exact ⟨e, rfl⟩
  · rfl

theorem append [DecidableEq N] {e : ε} {n : N} {c : List UInt8} (hn : w.dir.lookup n = some c)
    (bs : List UInt8) :
    Trace (Prog.append e n bs : Prog N σ ε Unit) w
      [⟨w.mem, w.dir, some fun k => w.dir.insert n (c ++ bs.take k)⟩] (.ok ())
      { w with dir := w.dir.insert n (c ++ bs) } := by
  have h : Trace (Prog.append e n bs : Prog N σ ε Unit) w _ (.ok ())
    { w with dir := w.dir.insert n (c ++ bs) } := fileOp (by rw [hn]; rfl)
  simpa only [hn] using h

theorem touch {e : ε} : Trace (Prog.touch e : Prog N σ ε Unit) w [.clean w.mem w.dir] (.ok ()) w :=
  fileOp rfl

theorem ignoreErr {m : Prog N σ ε Unit} (h : Trace m w ps (.ok ()) w') :
    Trace (Prog.ignoreErr m) w (ps.map Point.unreported) (.ok ()) w' :=
  ⟨by simp, fun q => Agrees.unreported (f := Prog.ignoring) (fun _ => rfl) (fun _ => rfl) (h.2 q)⟩

theorem recovering {o o' : Outcome ε α} {e : ε} {g : σ → σ} (h : Trace m w ps o w')
    (ho : o' ≠ .crash) (hg : ∀ q, (match (o, { w' with plan := q }) with
      | (.panic, w') => (.err e, { w' with mem := g w'.mem })
      | r => r) = (o', { w'' with plan := q })) : Trace (Prog.recovering e g m) w ps o' w'' :=
  h.after (fun r => match r with
    | (.panic, w') => (.err e, { w' with mem := g w'.mem })
    | r => r) (fun _ _ => rfl) (fun _ => rfl) ho hg

end Rules

end Trace

/-- The program returns the error of every operation it makes, and such an operation changes
nothing. -/
def Prog.Reports {N σ ε α : Type} (m : Prog N σ ε α) : Prop :=
  ∀ w, ∃ ps o w', Trace m w ps o w' ∧ ∀ pt ∈ ps, pt = .clean pt.mem pt.dir

namespace Prog.Reports

variable {N σ ε α β : Type}

theorem pure (a : α) : Reports (Pure.pure a : Prog N σ ε α) :=
  fun w => ⟨[], _, w, .pure, by simp⟩

theorem throw (e : ε) : Reports (Prog.throw e : Prog N σ ε α) :=
  fun w => ⟨[], _, w, .throw, by simp⟩

theorem getMem : Reports (Prog.getMem : Prog N σ ε σ) :=
  fun w => ⟨[], .ok w.mem, w, ⟨by simp, fun _ => rfl⟩, by simp⟩

theorem modifyMem (f : σ → σ) : Reports (Prog.modifyMem f : Prog N σ ε Unit) :=
  fun w => ⟨[], .ok (), { w with mem := f w.mem }, ⟨by simp, fun _ => rfl⟩, by simp⟩

theorem bind {m : Prog N σ ε α} {f : α → Prog N σ ε β} (hm : Reports m)
    (hf : ∀ a, Reports (f a)) : Reports (m >>= f) := by
  intro w
  obtain ⟨ps, o, w', h, hps⟩ := hm w
  cases o with
  | ok a =>
    obtain ⟨qs, o, w'', h', hqs⟩ := hf a w'
    refine ⟨ps ++ qs, o, w'', h.bind h', fun pt hpt => ?_⟩
    exact (List.mem_append.mp hpt).elim (hps pt) (hqs pt)
  | err e => exact ⟨ps, .err e, w', h.bind_stop (.inl ⟨e, rfl, rfl⟩), hps⟩
  | panic => exact ⟨ps, .panic, w', h.bind_stop (.inr ⟨rfl, rfl⟩), hps⟩
  | crash => exact absurd rfl h.1

theorem fileOp (e : ε) (F : Dir N → Option (α × Dir N)) :
    Reports (Prog.fileOp e F fun _ d => d : Prog N σ ε α) := by
  intro w
  rcases hF : F w.dir with _ | ⟨a, d⟩
  · refine ⟨[.clean w.mem w.dir], .err e, w, ⟨by simp, fun q => ?_⟩, by simp [Point.clean]⟩
    simp only [Agrees, Prog.fileOp, Point.clean]
    rcases q.headD .none with _ | n | _
    · simp only [hF]
    · intro t ht
      cases ht
      exact ⟨e, rfl⟩
    · rfl
  · exact ⟨_, _, _, .fileOp hF, by simp [Point.clean]⟩

theorem touch (e : ε) : Reports (Prog.touch e : Prog N σ ε Unit) := fileOp e _

theorem recovering {m : Prog N σ ε α} (e : ε) (f : σ → σ) (hm : Reports m) :
    Reports (Prog.recovering e f m) := by
  intro w
  obtain ⟨ps, o, w', h, hps⟩ := hm w
  cases o with
  | ok a => exact ⟨ps, .ok a, w', h.recovering (by simp) fun _ => rfl, hps⟩
  | err e' => exact ⟨ps, .err e', w', h.recovering (by simp) fun _ => rfl, hps⟩
  | panic =>
    exact ⟨ps, .err e, { w' with mem := f w'.mem }, h.recovering (by simp) fun _ => rfl, hps⟩
  | crash => exact absurd rfl h.1

theorem each {m : α → Prog N σ ε Unit} (hm : ∀ a, Reports (m a)) :
    ∀ as : List α, Reports (Prog.each m as)
  | [] => pure ()
  | a :: as => bind (hm a) fun _ => each hm as

end Prog.Reports

end Rhosus

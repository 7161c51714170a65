import Rhosus.Wal.Truncate

/-!
# The write-ahead log refines the abstract log

Whatever is done to a log that `Create` opened, its results are those of the abstract log
(`wal_refines_log`): one step keeps `Rep` and gives the abstract result (`exec_spec`), and a run is
its steps. Stopped at any file operation, and stopped again while it is being reopened, the log
that `Create` then opens is the one before the operation or the one after it (`crash_recovery`).
-/

namespace Rhosus.Wal

/-- An entry whose length an `int` can hold. -/
abbrev Record := { d : Bytes // Fits d }

def Record.byte (b : UInt8) : Record := ⟨[b], by simp [Fits]⟩

inductive Op
  /-- `Write` at the index after `LastIndex`. -/
  | append (d : Record)
  | read (i : ℕ)
  | clearCache
  | truncateFront (i : ℕ)
  | truncateBack (i : ℕ)
  | firstIndex
  | lastIndex

inductive Res
  | done
  | data (d : Bytes)
  | index (n : ℕ)
  | error (e : Err)
  deriving DecidableEq

def Res.ofExcept : Except Err Res → Res
  | .ok r => r
  | .error e => .error e

/-- An operation on the abstract log: its result, and the log after it. -/
def Log.step (l : Log) : Op → Res × Log
  | .append d => (.done, l.write d)
  | .read i =>
    match l.read i with
    | .ok d => (.data d, l)
    | .error e => (.error e, l)
  | .clearCache => (.done, l)
  | .truncateFront i => if l.Has i then (.done, l.dropBefore i) else (.error .outOfRange, l)
  | .truncateBack i => if l.Has i then (.done, l.dropAfter i) else (.error .outOfRange, l)
  | .firstIndex => (.index l.firstIndex, l)
  | .lastIndex => (.index l.lastIndex, l)

/-- The results of some operations in turn, and the log after them. -/
def Log.run : Log → List Op → List Res × Log
  | l, [] => ([], l)
  | l, op :: ops =>
    let (r, l') := l.step op
    let (rs, l'') := l'.run ops
    (r :: rs, l'')

section Run

variable (lru : SetEvicted ℕ Ptr)

def Op.exec : Op → WalM Res
  | .append d => do
    let n ← Wal.lastIndex
    write lru (n + 1) d
    return .done
  | .read i => do
    let d ← Wal.read lru i
    return .data d
  | .clearCache => do
    Wal.clearCache
    return .done
  | .truncateFront i => do
    Wal.truncateFront lru i
    return .done
  | .truncateBack i => do
    Wal.truncateBack lru i
    return .done
  | .firstIndex => do
    let n ← Wal.firstIndex
    return .index n
  | .lastIndex => do
    let n ← Wal.lastIndex
    return .index n

/-- The results of some operations on an open log in turn, and the world after them; nothing if
one of them panics or the machine stops. -/
def runOps : List Op → World Name WAL → Option (List Res × World Name WAL)
  | [], w => some ([], w)
  | op :: ops, w =>
    match op.exec lru w with
    | (.ok r, w') => (runOps ops w').map fun (rs, w'') => (r :: rs, w'')
    | (.err e, w') => (runOps ops w').map fun (rs, w'') => (.error e :: rs, w'')
    | (.panic, _) | (.crash, _) => none

/-- As `runOps`, on a log newly created in an empty directory, where no file operation fails. -/
def runFresh (opts : Options) (ops : List Op) : Option (List Res × World Name WAL) :=
  match create opts ⟨WAL.new opts, ∅, []⟩ with
  | (.ok _, w) => runOps lru ops w
  | _ => none

end Run

variable {lru : SetEvicted ℕ Ptr} {W : World Name WAL} {l : Log}

theorem Log.Wf.step (h : l.Wf) (op : Op) : (l.step op).2.Wf := by
  cases op with
  | append d => exact h.write d
  | read i =>
    simp only [Log.step]
    split <;> exact h
  | truncateFront i =>
    simp only [Log.step]
    split_ifs with hi
    · exact h.dropBefore hi
    · exact h
  | truncateBack i =>
    simp only [Log.step]
    split_ifs with hi
    · exact h.dropAfter hi
    · exact h
  | clearCache | firstIndex | lastIndex => exact h

/-- Not a truncation. -/
def Op.Keeps : Op → Prop
  | .truncateFront _ | .truncateBack _ => False
  | _ => True

/-- The open log is `l`, and its directory has the files `rest` beside it. -/
def RepBeside (W : World Name WAL) (l : Log) (rest : List (FileName × Bytes)) : Prop :=
  ∃ cs, Opened W l.first cs rest ∧ records cs = l.entries

namespace RepBeside

variable {rest : List (FileName × Bytes)}

theorem clean (h : RepBeside W l rest) : CleanBeside W.dir l rest := by
  obtain ⟨cs, ho, hrecs⟩ := h
  exact ⟨cs, ho.layout, hrecs, ho.files⟩

theorem lastIndex_eq (h : RepBeside W l rest) : W.mem.lastIndex = l.lastIndex := by
  obtain ⟨cs, ho, hrecs⟩ := h
  have := ho.mem.lastIndex
  have := ho.layout.pos
  rw [Log.lastIndex, ← hrecs]
  omega

theorem firstIndex_eq (h : RepBeside W l rest) (hl : l.Wf) :
    (if W.mem.lastIndex = 0 then 0 else W.mem.firstIndex) = l.firstIndex := by
  have hlast := h.lastIndex_eq
  obtain ⟨cs, ho, hrecs⟩ := h
  have hpos := hl.pos
  rw [hlast, ho.mem.firstIndex, Log.firstIndex, Log.lastIndex]
  by_cases he : l.entries = []
  · simp [he, hl.empty he]
  · have := List.length_pos_iff.mpr he
    rw [if_neg (by omega), if_neg he]

theorem guarded {α : Type} (h : RepBeside W l rest) {m : WalM α}
    {Q : Except Err α → World Name WAL → Prop} {C : Dir Name → Prop} (hm : Ends m W Q C) :
    Ends (guarded m) W Q C := by
  obtain ⟨cs, ho, -⟩ := h
  exact guarded_ends ho.mem.corrupt ho.mem.closed hm

theorem clearCache (h : RepBeside W l rest) :
    RepBeside { W with mem := W.mem.clearCache } l rest := by
  obtain ⟨cs, ho, hrecs⟩ := h
  have hs := ho.mem.segs.clearCache
  rw [WAL.clearCache_eq] at hs ⊢
  exact ⟨cs, ⟨ho.layout, ⟨hs, ho.mem.corrupt, ho.mem.closed, ho.mem.firstIndex, ho.mem.lastIndex,
    ho.mem.sfile⟩, ho.files, ho.other, ho.plan⟩, hrecs⟩

theorem write (hlru : lru.Lawful) (h : RepBeside W l rest) (hl : l.Wf) {d : Bytes} (hd : Fits d) :
    Ends (write lru (l.lastIndex + 1) d) W
      (fun r W' => r = .ok () ∧ RepBeside W' (l.write d) rest ∧ (Tidy W.mem → Tidy W'.mem))
      (fun dir => CleanBeside dir l rest ∨ CleanBeside dir (l.write d) rest) := by
  obtain ⟨cs, ho, hrecs⟩ := h
  have hpos := hl.pos
  have hi : l.lastIndex + 1 = l.first + (records cs).length := by
    rw [hrecs, Log.lastIndex]
    omega
  rw [hi]
  refine .mono (ho.write_spec hlru hd) ?_ fun dir hdir => by rwa [hrecs] at hdir
  rintro r W' ⟨rfl, htidy, cs', hW', hrecs'⟩
  exact ⟨rfl, ⟨cs', hW', by rw [hrecs', hrecs]; rfl⟩, htidy⟩

theorem read (hlru : lru.Lawful) (h : RepBeside W l rest) (i : ℕ) :
    Ends (read lru i) W
      (fun r W' => r = l.read i ∧ RepBeside W' l rest ∧ (Tidy W.mem → Tidy W'.mem))
      (· = W.dir) := by
  obtain ⟨cs, ho, hrecs⟩ := h
  refine .mono (ho.read_spec hlru i) ?_ fun d hd => hd
  rintro r W' ⟨rfl, hW', htidy⟩
  rw [hrecs]
  exact ⟨rfl, ⟨cs, hW', hrecs⟩, htidy⟩

theorem exec (hlru : lru.Lawful) (h : RepBeside W l rest) (hl : l.Wf) {op : Op} (hop : op.Keeps) :
    Ends (op.exec lru) W
      (fun r W' => Res.ofExcept r = (l.step op).1 ∧ RepBeside W' (l.step op).2 rest
        ∧ (Tidy W.mem → Tidy W'.mem))
      (fun d => CleanBeside d l rest ∨ CleanBeside d (l.step op).2 rest) := by
  cases op with
  | append d =>
    refine .bind (h.guarded (.bind (.getMem (.pure ?_))))
    rw [h.lastIndex_eq]
    refine .bind_of (h.write hlru hl d.2) (fun dir hdir => hdir) ?_
    rintro r W' ⟨rfl, hW'⟩
    exact ⟨(), rfl, .pure ⟨rfl, hW'⟩⟩
  | read i =>
    refine .bind (.mono (h.read hlru i) ?_ fun d hd => .inl (hd ▸ h.clean))
    rintro r W' ⟨rfl, hW'⟩
    simp only [Log.step]
    cases hr : l.read i with
    | ok d => exact .pure ⟨rfl, hW'⟩
    | error e => exact ⟨rfl, hW'⟩
  | clearCache =>
    refine .bind (h.guarded (.modifyMem (.pure ⟨rfl, h.clearCache, fun ht k p hp hk hload => ?_⟩)))
    rw [WAL.clearCache_eq] at hp hk
    exact absurd (ht.clearCache hp hk) hload
  | truncateFront i | truncateBack i => exact hop.elim
  | firstIndex =>
    refine .bind (h.guarded (.bind (.getMem (.pure (.pure ⟨?_, h, id⟩)))))
    rw [h.firstIndex_eq hl]
    rfl
  | lastIndex =>
    refine .bind (h.guarded (.bind (.getMem (.pure (.pure ⟨?_, h, id⟩)))))
    rw [h.lastIndex_eq]
    rfl

end RepBeside

theorem repBeside_nil : RepBeside W l [] ↔ Rep W l := by
  refine exists_congr fun cs => and_congr_left fun _ => ⟨Good.of_opened, Good.opened⟩

namespace Rep

theorem beside (h : Rep W l) : RepBeside W l [] := repBeside_nil.mpr h

theorem lastIndex_eq (h : Rep W l) : W.mem.lastIndex = l.lastIndex := h.beside.lastIndex_eq

theorem recovers (h : Rep W l) (hb : l.first + l.entries.length < 2 ^ 64) : Recovers W.dir l :=
  (cleanBeside_nil.mp h.beside.clean).recovers hb

theorem write (hlru : lru.Lawful) (h : Rep W l) (hl : l.Wf) {d : Bytes} (hd : Fits d) :
    Ends (write lru (l.lastIndex + 1) d) W (fun r W' => r = .ok () ∧ Rep W' (l.write d))
      (fun dir => Clean dir l ∨ Clean dir (l.write d)) := by
  refine .mono (h.beside.write hlru hl hd) ?_ fun dir hdir => ?_
  · rintro r W' ⟨rfl, hW', -⟩
    exact ⟨rfl, repBeside_nil.mp hW'⟩
  · exact hdir.imp cleanBeside_nil.mp cleanBeside_nil.mp

theorem read (hlru : lru.Lawful) (h : Rep W l) (i : ℕ) :
    Ends (read lru i) W (fun r W' => r = l.read i ∧ Rep W' l) (· = W.dir) := by
  refine .mono (h.beside.read hlru i) ?_ fun d hd => hd
  rintro r W' ⟨rfl, hW', -⟩
  exact ⟨rfl, repBeside_nil.mp hW'⟩

end Rep

theorem Log.stop_step (l : Log) (op : Op) : (l.step op).2.first + (l.step op).2.entries.length
    ≤ l.first + l.entries.length + 1 := by
  cases op with
  | append d =>
    simp only [Log.step, Log.write, List.length_append, List.length_singleton]
    omega
  | read i =>
    simp only [Log.step]
    split <;> simp
  | truncateFront i =>
    simp only [Log.step]
    split_ifs with hi
    · have := hi.lt
      have := hi.2.1
      simp only [Log.dropBefore, List.length_drop]
      omega
    · simp
  | truncateBack i =>
    simp only [Log.step]
    split_ifs with hi
    · simp only [Log.dropAfter, List.length_take]
      omega
    · simp
  | clearCache | firstIndex | lastIndex => simp [Log.step]

/-- One operation: the abstract result, and the log it leaves, also where the machine stops. -/
theorem exec_spec (hlru : lru.Lawful) (h : Rep W l) (hl : l.Wf) (op : Op) :
    Ends (op.exec lru) W
      (fun r W' => Res.ofExcept r = (l.step op).1 ∧ Rep W' (l.step op).2
        ∧ (Tidy W.mem → Tidy W'.mem))
      (fun d => l.lastIndex + 2 < 2 ^ 64 → Recovers d l ∨ Recovers d (l.step op).2) := by
  have hpos := hl.pos
  have hlast : l.lastIndex + 2 = l.first + l.entries.length + 1 := by
    unfold Log.lastIndex
    omega
  have hstep := l.stop_step op
  have hkeeps : op.Keeps → Ends (op.exec lru) W
      (fun r W' => Res.ofExcept r = (l.step op).1 ∧ Rep W' (l.step op).2
        ∧ (Tidy W.mem → Tidy W'.mem))
      (fun d => l.lastIndex + 2 < 2 ^ 64 → Recovers d l ∨ Recovers d (l.step op).2) := by
    intro hop
    refine .mono (h.beside.exec hlru hl hop) ?_ ?_
    · rintro r W' ⟨hr, hW', htidy⟩
      exact ⟨hr, repBeside_nil.mp hW', htidy⟩
    · exact fun d hd hb => hd.imp (fun hd => (cleanBeside_nil.mp hd).recovers (by omega))
        fun hd => (cleanBeside_nil.mp hd).recovers (by omega)
  cases op with
  | truncateFront i =>
    refine .bind (.mono (truncateFront_spec hlru h i) ?_ ?_)
    · rintro r W' ⟨hr, htidy⟩
      simp only [Log.step]
      split_ifs at hr ⊢ with hi
      · obtain ⟨rfl, hW'⟩ := hr
        exact .pure ⟨rfl, hW', htidy⟩
      · obtain ⟨rfl, hW'⟩ := hr
        exact ⟨rfl, hW', htidy⟩
    · intro d hd hb
      refine (hd (by omega)).imp_right fun hh => ?_
      simpa only [Log.step, if_pos hh.1] using hh.2
  | truncateBack i =>
    refine .bind (.mono (truncateBack_spec hlru h i) ?_ ?_)
    · rintro r W' ⟨hr, htidy⟩
      simp only [Log.step]
      split_ifs at hr ⊢ with hi
      · obtain ⟨rfl, hW'⟩ := hr
        exact .pure ⟨rfl, hW', htidy⟩
      · obtain ⟨rfl, hW'⟩ := hr
        exact ⟨rfl, hW', htidy⟩
    · intro d hd hb
      refine (hd (by omega)).imp_right fun hh => ?_
      simpa only [Log.step, if_pos hh.1] using hh.2
  | append d | read i | clearCache | firstIndex | lastIndex => exact hkeeps trivial

/-- What every step keeps, a run keeps; its results are those of the abstract log if each step's
are. -/
theorem runOps_rule (lru : SetEvicted ℕ Ptr) {I : World Name WAL → Log → Prop} {P : Op → Prop}
    (hstep : ∀ {W l op}, P op → I W l → ∃ r W', op.exec lru W = (Outcome.ofExcept r, W')
      ∧ Res.ofExcept r = (l.step op).1 ∧ I W' (l.step op).2) :
    ∀ (ops : List Op) {W : World Name WAL} {l : Log}, I W l → (∀ op ∈ ops, P op) →
      ∃ W', runOps lru ops W = some ((l.run ops).1, W') ∧ I W' (l.run ops).2
  | [], W, l, h, _ => ⟨W, rfl, h⟩
  | op :: ops, W, l, h, hops => by
    obtain ⟨r, W', hrun, hr, hW'⟩ := hstep (hops op List.mem_cons_self) h
    obtain ⟨W'', hrun', hW''⟩ :=
      runOps_rule lru hstep ops hW' fun op' hop' => hops op' (List.mem_cons_of_mem _ hop')
    refine ⟨W'', ?_, hW''⟩
    simp only [runOps, hrun, Log.run, ← hr]
    cases r <;> simp only [Outcome.ofExcept, hrun', Option.map_some, Res.ofExcept]

theorem runOps_spec (hlru : lru.Lawful) (ops : List Op) (h : Rep W l) (hl : l.Wf)
    (hp : W.plan = []) : ∃ W', runOps lru ops W = some ((l.run ops).1, W')
      ∧ Rep W' (l.run ops).2 ∧ (l.run ops).2.Wf ∧ W'.plan = [] ∧ (Tidy W.mem → Tidy W'.mem) := by
  refine runOps_rule lru (I := fun W' l => Rep W' l ∧ l.Wf ∧ W'.plan = []
    ∧ (Tidy W.mem → Tidy W'.mem)) (P := fun _ => True) ?_ ops ⟨h, hl, hp, id⟩ fun _ _ => trivial
  rintro W₁ l op - ⟨h, hl, hp, ht⟩
  obtain ⟨r, W', hrun, hp', hr, hW', htidy⟩ := (exec_spec hlru h hl op).returns hp
  exact ⟨r, W', hrun, hr, hW', hl.step op, hp', fun h => htidy (ht h)⟩

theorem Log.empty_wf : Log.empty.Wf := ⟨le_rfl, fun _ => rfl⟩

theorem recovers_empty : Recovers ∅ Log.empty := by
  refine ⟨[⟨1, []⟩], ⟨le_rfl, by simp, ⟨rfl, trivial⟩, by simp, by simp⟩, rfl, [], ?_, ?_, .fresh⟩
  · exact ⟨by simp, fun n hn => by simp at hn⟩
  · exact ⟨.nil, by simp, by simp, by simp⟩

theorem create_rep (opts : Options) {d : Dir Name} (h : Recovers d l) {plan : List Fault}
    (hp : NoFail plan) (m : WAL) :
    Ends (create opts) ⟨m, d, plan⟩ (fun r W' => r = .ok () ∧ Rep W' l ∧ Tidy W'.mem)
      (Recovers · l) := by
  obtain ⟨cs, hl, hrecs, hR⟩ := h
  refine .mono (create_spec opts hl hR hp) ?_ fun d hd => ⟨cs, hl, hrecs, hd⟩
  rintro r W' ⟨rfl, hW', htidy⟩
  exact ⟨rfl, ⟨cs, hW', hrecs⟩, htidy⟩

theorem runFresh_spec (hlru : lru.Lawful) (opts : Options) (ops : List Op) :
    ∃ W, runFresh lru opts ops = some ((Log.empty.run ops).1, W)
      ∧ Rep W (Log.empty.run ops).2 ∧ (Log.empty.run ops).2.Wf ∧ W.plan = [] ∧ Tidy W.mem := by
  obtain ⟨r, W, hrun, hp, rfl, hW, ht⟩ :=
    (create_rep opts recovers_empty NoFail.nil (WAL.new opts)).returns rfl
  simp only [runFresh, hrun, Outcome.ofExcept]
  obtain ⟨W', hrun', hW', hwf, hp', htidy⟩ := runOps_spec hlru ops hW Log.empty_wf hp
  exact ⟨W', hrun', hW', hwf, hp', htidy ht⟩

/-- Every sequence of operations on a new log has the results of the abstract log; none panics. -/
theorem wal_refines_log (hlru : lru.Lawful) (opts : Options) (ops : List Op) :
    (runFresh lru opts ops).map Prod.fst = some (Log.empty.run ops).1 := by
  obtain ⟨W, hrun, -⟩ := runFresh_spec hlru opts ops
  rw [hrun]
  rfl

/-- A log of three segments, cut at both ends, with a cache of one. -/
theorem wal_refines_log_lruSet : (lruSet : SetEvicted ℕ Ptr).Lawful
    ∧ (runFresh lruSet ⟨1, 1⟩ [.append ⟨[7], by decide⟩, .append ⟨[8, 9], by decide⟩,
      .append ⟨[], by decide⟩, .read 1, .truncateFront 2, .read 1, .truncateBack 2, .truncateBack 3,
      .read 2, .firstIndex, .lastIndex]).map Prod.fst
      = some [.done, .done, .done, .data [7], .done, .error .notFound, .done, .error .outOfRange,
        .data [8, 9], .index 2, .index 2] :=
  ⟨lruSet_lawful, wal_refines_log lruSet_lawful _ _⟩

/-- `Create` opens the directory, and the log it opens behaves as `l`. -/
def Opens (lru : SetEvicted ℕ Ptr) (d : Dir Name) (l : Log) : Prop :=
  ∀ opts, ∃ W, create opts ⟨WAL.new opts, d, []⟩ = (.ok (), W)
    ∧ ∀ ops, (runOps lru ops W).map Prod.fst = some (l.run ops).1

theorem Recovers.opens (hlru : lru.Lawful) {d : Dir Name} (h : Recovers d l) (hl : l.Wf) :
    Opens lru d l := by
  intro opts
  obtain ⟨r, W, hc, hp, rfl, hW, -⟩ := (create_rep opts h NoFail.nil (WAL.new opts)).returns rfl
  refine ⟨W, hc, fun ops => ?_⟩
  obtain ⟨W', hrun, -⟩ := runOps_spec hlru ops hW hl hp
  rw [hrun]
  rfl

section Reached

variable (lru)

/-- An open log with the contents `l`: `Create` has opened it on a directory to recover, and
operations followed. No file operation has failed since. -/
def Reached (W : World Name WAL) (l : Log) : Prop :=
  ∃ opts d l₀ W₀ ops rs, Recovers d l₀ ∧ l₀.Wf ∧ create opts ⟨WAL.new opts, d, []⟩ = (.ok (), W₀)
    ∧ runOps lru ops W₀ = some (rs, W) ∧ l = (l₀.run ops).2

variable {lru}

theorem runFresh_reached {opts : Options} {ops : List Op} {rs : List Res}
    (h : runFresh lru opts ops = some (rs, W)) : Reached lru W (Log.empty.run ops).2 := by
  unfold runFresh at h
  rcases hc : create opts ⟨WAL.new opts, ∅, []⟩ with ⟨_ | _ | _ | _, W₀⟩ <;> rw [hc] at h
  · exact ⟨opts, ∅, Log.empty, W₀, ops, rs, recovers_empty, Log.empty_wf, hc, h, rfl⟩
  all_goals cases h

theorem Reached.inv (hlru : lru.Lawful) (h : Reached lru W l) :
    Rep W l ∧ l.Wf ∧ W.plan = [] ∧ Tidy W.mem := by
  obtain ⟨opts, d, l₀, W₀, ops, rs, hd, hl₀, hc, hrun, rfl⟩ := h
  obtain ⟨r, W₁, hc', hp, rfl, hrep, htidy⟩ :=
    (create_rep opts hd NoFail.nil (WAL.new opts)).returns rfl
  obtain rfl : W₀ = W₁ := congrArg Prod.snd (hc.symm.trans hc')
  obtain ⟨W₂, hrun', hrep', hwf, hp', htidy'⟩ := runOps_spec hlru ops hrep hl₀ hp
  obtain ⟨-, rfl⟩ := Prod.mk.inj (Option.some.inj (hrun.symm.trans hrun'))
  exact ⟨hrep', hwf, hp', htidy' htidy⟩

end Reached

section Disk

/-- The records that the files of some segments hold, in turn. -/
def diskRecords (W : World Name WAL) : List Ptr → Option (List Bytes)
  | [] => some []
  | p :: ps => do
    let data ← W.dir.lookup (W.mem.heap p).path
    let ds ← decodeRecords data.length data
    let rest ← diskRecords W ps
    return ds ++ rest

theorem diskRecords_eq {ps : List Ptr} {cs : List Chunk}
    (h : List.Forall₂ (fun p c => W.dir.lookup (W.mem.heap p).path = some (encode c.recs)
      ∧ ∀ d ∈ c.recs, Fits d) ps cs) : diskRecords W ps = some (records cs) := by
  induction h with
  | nil => rfl
  | cons hp _ ih =>
    rw [diskRecords, hp.1, ih]
    simp [decodeRecords_encode _ _ hp.2 le_rfl, records]

theorem Rep.diskRecords (h : Rep W l) : diskRecords W W.mem.segments = some l.entries := by
  obtain ⟨cs, hg, hrecs⟩ := h
  rw [← hrecs]
  refine diskRecords_eq (List.forall₂_iff_get.mpr ⟨hg.mem.segs.length, fun k hk hk' => ?_⟩)
  have hc : cs[k]? = some cs[k] := List.getElem?_eq_getElem hk'
  have hs := hg.mem.segs.seg k _ _ (List.getElem?_eq_getElem hk) hc
  simp only [List.get_eq_getElem]
  rw [hs.path]
  exact ⟨hg.file hc, hg.layout.fits_at hc⟩

end Disk

section Crash

/-- A plan that stops the machine before the operation `k`. -/
def cut (k : ℕ) : List Fault := List.replicate k .none ++ [.crash]

theorem noFail_cut (k : ℕ) : NoFail (cut k) := by
  intro n hn
  simp [cut] at hn

/-- The directory left by one opening of the log after the other, each cut short. -/
def reopened : Dir Name → List (Options × ℕ) → Dir Name
  | d, [] => d
  | d, (opts, k) :: rest => reopened (create opts ⟨WAL.new opts, d, cut k⟩).2.dir rest

theorem reopened_recovers (hb : l.first + l.entries.length < 2 ^ 64) :
    ∀ (again : List (Options × ℕ)) {d : Dir Name}, Recovers d l → Recovers (reopened d again) l
  | [], _, h => h
  | (opts, k) :: rest, d, h => by
    refine reopened_recovers hb rest ((create_rep opts h (noFail_cut k) (WAL.new opts)).dir ?_)
    rintro r W ⟨-, hW, -⟩
    exact hW.recovers hb

/-- Let an operation on a log be stopped before any of its file operations, and the openings after
it as well. The log `Create` then opens behaves as the one before the operation, or as the one
after it. -/
theorem crash_recovery (hlru : lru.Lawful) {opts : Options} {ops : List Op} {rs : List Res}
    (hrun : runFresh lru opts ops = some (rs, W))
    (hb : (Log.empty.run ops).2.lastIndex + 2 < 2 ^ 64) (op : Op) (k : ℕ)
    (again : List (Options × ℕ)) (opts' : Options) :
    ∃ l, (l = (Log.empty.run ops).2 ∨ l = ((Log.empty.run ops).2.step op).2) ∧ ∃ W',
      create opts' ⟨WAL.new opts', reopened (op.exec lru { W with plan := cut k }).2.dir again, []⟩
        = (.ok (), W')
      ∧ ∀ ops', (runOps lru ops' W').map Prod.fst = some (l.run ops').1 := by
  obtain ⟨W₀, hrun₀, ⟨cs, hg, hrecs⟩, hwf, -⟩ := runFresh_spec hlru opts ops
  obtain ⟨-, rfl⟩ := Prod.mk.inj (Option.some.inj (hrun.symm.trans hrun₀))
  set before := (Log.empty.run ops).2
  have hstop : before.first + before.entries.length + 1 < 2 ^ 64 := by
    unfold Log.lastIndex at hb
    have := hwf.pos
    omega
  have hstop' := before.stop_step op
  have hrep : Rep { W with plan := cut k } before := ⟨cs, hg.withPlan (noFail_cut k), hrecs⟩
  have hdir : Recovers (op.exec lru { W with plan := cut k }).2.dir before
      ∨ Recovers (op.exec lru { W with plan := cut k }).2.dir (before.step op).2 := by
    refine ((exec_spec hlru hrep hwf op).mono (fun r W' h => h) fun d hd => hd hb).dir ?_
    exact fun r W' h => .inr (h.2.1.recovers (by omega))
  rcases hdir with hdir | hdir
  · exact ⟨before, .inl rfl, (reopened_recovers (by omega) again hdir).opens hlru hwf opts'⟩
  · exact ⟨_, .inr rfl, (reopened_recovers (by omega) again hdir).opens hlru (hwf.step op) opts'⟩

/-- Truncating a log of two segments, stopped after its fifth file operation, and recovery after its
second. -/
theorem crash_recovery_lruSet : ∃ W, runFresh lruSet ⟨1, 1⟩ [.append ⟨[7], by decide⟩,
    .append ⟨[8, 9], by decide⟩] = some ([.done, .done], W)
    ∧ ∃ l : Log, (l = ⟨1, [[7], [8, 9]]⟩ ∨ l = ⟨2, [[8, 9]]⟩) ∧ ∃ W',
      create ⟨1, 1⟩ ⟨WAL.new ⟨1, 1⟩, reopened
        (Op.exec lruSet (.truncateFront 2) { W with plan := cut 5 }).2.dir [(⟨1, 1⟩, 2)], []⟩
        = (.ok (), W')
      ∧ ∀ ops', (runOps lruSet ops' W').map Prod.fst = some (l.run ops').1 := by
  obtain ⟨W, hrun, -⟩ := runFresh_spec lruSet_lawful ⟨1, 1⟩
    [.append ⟨[7], by decide⟩, .append ⟨[8, 9], by decide⟩]
  exact ⟨W, hrun, crash_recovery lruSet_lawful hrun (by decide) (.truncateFront 2) 5 [(⟨1, 1⟩, 2)]
    ⟨1, 1⟩⟩

end Crash

end Rhosus.Wal

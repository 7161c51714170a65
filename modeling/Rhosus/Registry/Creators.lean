import Rhosus.Lib.Calls
import Rhosus.Registry.Namespace

/-!
# Concurrent requests for new files

`HandleMakeDir` and `RegisterFile` look whether their path is free, look for the directory, and
store the file, each by a call on the storage of its own. `RegisterFile` holds the registry's mutex
meanwhile and `HandleMakeDir` does not. Here each of these is a step, and any number of requests
take them in any order; the steps of one request in turn are the handler (`handleMakeDir_run`,
`registerFile_run`). A path is given to one file only as long as no `HandleMakeDir` looks for it, or
is on its way from there to the storage, when another request for the path looks for it
(`one_file_per_path`).
-/

namespace Rhosus.Registry

inductive Creating
  | called
  /-- It holds the mutex. -/
  | locked
  /-- It has found the path free. -/
  | checked
  | found (parentID : Bytes)
  | stored (file : FileInfo)
  | done (success : Bool)
  deriving DecidableEq

/-- A request for a file; that of `HandleMakeDir` does not lock. -/
structure Creation where
  file : FileInfo
  locks : Bool
  stage : Creating

structure Creators where
  leader : Leader
  /-- The request that holds the mutex. -/
  holder : Option ℕ
  calls : List Creation

inductive CreateLabel
  | makeDir (path uid : Bytes)
  | registerFile (file : FileInfo)
  /-- The request `c` goes on; a write to the backend or to the log succeeds or not. -/
  | go (c : ℕ) (ok : Bool)

namespace Creators

variable (w : Creators) (c : ℕ) (a : Creation)

def move (stage : Creating) (leader : Leader) (holder : Option ℕ) : Creators :=
  ⟨leader, holder, w.calls.set c { a with stage }⟩

/-- The request returns, and gives the mutex back. -/
def finish (success : Bool) (leader : Leader) : Creators :=
  w.move c a (.done success) leader (if a.locks then none else w.holder)

def check : Creators :=
  match w.leader.storage.getFileByPath a.file.path with
  | some _ => w.finish c a false w.leader
  | none => w.move c a .checked w.leader w.holder

variable (env : Env)

def go (ok : Bool) : Option Creators :=
  match a.stage with
  | .called =>
    if a.locks then
      match w.holder with
      | some _ => none
      | none => some (w.move c a .locked w.leader (some c))
    else some (w.check c a)
  | .locked => some (w.check c a)
  | .checked =>
    match w.leader.storage.parentID a.file.path with
    | none => some (w.finish c a false w.leader)
    | some parentID => some (w.move c a (.found parentID) w.leader w.holder)
  | .found parentID =>
    let file := { a.file with parentID }
    match w.leader.storage.storeFile env.pb.toCodecs file ok with
    | (.error _, storage) => some (w.finish c a false { w.leader with storage })
    | (.ok _, storage) => some (w.move c a (.stored file) { w.leader with storage } w.holder)
  | .stored file =>
    let (success, leader) :=
      w.leader.writeEntry .assignFile (env.pb.assignFile.marshal (env.id, file)) ok
    some (w.finish c a success leader)
  | .done _ => none

def step : CreateLabel → Creators → Option Creators
  | .makeDir path uid, w =>
    some { w with calls := w.calls ++ [⟨newDir (trim path) uid [], false, .called⟩] }
  | .registerFile file, w => some { w with calls := w.calls ++ [⟨file, true, .called⟩] }
  | .go c ok, w =>
    match w.calls[c]? with
    | none => none
    | some a => w.go c a env ok

end Creators

section Alone

variable (env : Env) (fate : Fate) (r : Leader)

/-- What a request for a file comes to. -/
def created (file : FileInfo) : Bool × Leader :=
  match r.storage.getFileByPath file.path, r.storage.parentID file.path with
  | none, some parentID =>
    match storeAndWrite env fate { file with parentID } r with
    | (.error _, r) => (false, r)
    | (.ok _, r) => (true, r)
  | _, _ => (false, r)

theorem created_run (file : FileInfo) (locks : Bool) : ∃ ls,
    runSteps (Creators.step env) ls ⟨r, none, [⟨file, locks, .called⟩]⟩
      = some ⟨(created env fate r file).2, none,
        [⟨file, locks, .done (created env fate r file).1⟩]⟩ := by
  -- as far as the search for the path
  obtain ⟨ls, stage, holder, hls, hholder⟩ : ∃ ls stage holder,
      runSteps (Creators.step env) ls ⟨r, none, [⟨file, locks, .called⟩]⟩
        = some (Creators.check ⟨r, holder, [⟨file, locks, stage⟩]⟩ 0 ⟨file, locks, stage⟩)
      ∧ (if locks then none else holder) = none := by
    cases locks with
    | false => exact ⟨[.go 0 true], .called, none, rfl, rfl⟩
    | true => exact ⟨[.go 0 true, .go 0 true], .locked, some 0, rfl, rfl⟩
  unfold Creators.check at hls
  unfold created
  rcases hf : r.storage.getFileByPath file.path with _ | f <;> rw [hf] at hls <;>
    dsimp only at hls ⊢
  · rcases hp : r.storage.parentID file.path with _ | parentID <;> dsimp only
    · refine ⟨ls ++ [.go 0 true], ?_⟩
      rw [runSteps_append, hls]
      simp only [Option.bind_some, runSteps, Creators.step, Creators.go, Creators.move,
        Creators.finish, List.getElem?_cons_zero, List.set_cons_zero, hp, hholder]
    · unfold storeAndWrite
      rcases hs : r.storage.storeFile env.pb.toCodecs { file with parentID } fate.put with
        ⟨_ | _, storage⟩ <;> dsimp only
      · refine ⟨ls ++ [.go 0 true, .go 0 fate.put], ?_⟩
        rw [runSteps_append, hls]
        simp only [Option.bind_some, runSteps, Creators.step, Creators.go, Creators.move,
          Creators.finish, List.getElem?_cons_zero, List.set_cons_zero, hp, hs, hholder]
      · refine ⟨ls ++ [.go 0 true, .go 0 fate.put, .go 0 fate.write], ?_⟩
        rw [runSteps_append, hls]
        simp only [Option.bind_some, runSteps, Creators.step, Creators.go, Creators.move,
          Creators.finish, List.getElem?_cons_zero, List.set_cons_zero, hp, hs, hholder]
        unfold Leader.writeEntry
        cases fate.write <;> rfl
  · refine ⟨ls, ?_⟩
    rw [hls]
    simp only [Creators.move, Creators.finish, List.set_cons_zero, hholder]

/-- The steps of one request in turn do what `HandleMakeDir` does. -/
theorem handleMakeDir_run (path uid : Bytes) : ∃ ls success,
    runSteps (Creators.step env) ls ⟨r, none, []⟩ = some ⟨(handleMakeDir env fate path uid r).2,
      none, [⟨newDir (trim path) uid [], false, .done success⟩]⟩
    ∧ (success = true ↔ (handleMakeDir env fate path uid r).1 = .ok ⟨true, ""⟩) := by
  obtain ⟨ls, hls⟩ := created_run env fate r (newDir (trim path) uid []) false
  have hsame : (created env fate r (newDir (trim path) uid [])).2
        = (handleMakeDir env fate path uid r).2
      ∧ ((created env fate r (newDir (trim path) uid [])).1 = true
        ↔ (handleMakeDir env fate path uid r).1 = .ok ⟨true, ""⟩) := by
    unfold created handleMakeDir
    dsimp only [newDir]
    rcases r.storage.getFileByPath (trim path) with _ | f <;> dsimp only
    · rcases r.storage.parentID (trim path) with _ | parentID <;> dsimp only
      · simp
      · rcases storeAndWrite env fate _ r with ⟨_ | _, r'⟩ <;> simp
    · simp
  rw [← hsame.1]
  exact ⟨.makeDir path uid :: ls, _, hls, hsame.2⟩

theorem registerFile_run (file : FileInfo) : ∃ ls success,
    runSteps (Creators.step env) ls ⟨r, none, []⟩ = some ⟨(registerFile env fate file r).2,
      none, [⟨file, true, .done success⟩]⟩
    ∧ (success = true ↔ (registerFile env fate file r).1 = .ok ()) := by
  obtain ⟨ls, hls⟩ := created_run env fate r file true
  have hsame : (created env fate r file).2 = (registerFile env fate file r).2
      ∧ ((created env fate r file).1 = true ↔ (registerFile env fate file r).1 = .ok ()) := by
    unfold created registerFile
    rcases r.storage.getFileByPath file.path with _ | f <;> dsimp only
    · rcases r.storage.parentID file.path with _ | parentID <;> dsimp only
      · simp
      · rcases storeAndWrite env fate _ r with ⟨_ | _, r'⟩ <;> simp
    · simp
  rw [← hsame.1]
  exact ⟨.registerFile file :: ls, _, hls, hsame.2⟩

end Alone

/-- A file that lacks a value is not stored; any other is, also where the backend fails. -/
theorem storeFile_cases {pb : Codecs} {s s' : Storage} {file : FileInfo} {ok : Bool}
    {res : Except Err Unit} (h : s.storeFile pb file ok = (res, s')) :
    res = .error .missing ∧ s' = s ∨ s.files.insert filesTable file = some s'.files := by
  unfold Storage.storeFile at h
  split at h
  · exact .inl ⟨(Prod.mk.inj h).1.symm, (Prod.mk.inj h).2.symm⟩
  · rename_i files hi
    rw [hi]
    unfold Storage.put at h
    cases ok <;> obtain rfl := (Prod.mk.inj h).2 <;> exact .inr rfl

def Creating.early : Creating → Bool
  | .called | .locked | .checked | .found _ => true
  | .stored _ | .done _ => false

/-- Between the search for the path and the storage. -/
def Creating.inside : Creating → Bool
  | .checked | .found _ => true
  | .called | .locked | .stored _ | .done _ => false

/-- A request that locks holds the mutex. -/
def Creating.holding : Creating → Bool
  | .locked | .checked | .found _ | .stored _ => true
  | .called | .done _ => false

theorem Creating.holding_of_inside : ∀ {stage : Creating}, stage.inside = true →
    stage.holding = true
  | .checked, _ | .found _, _ => rfl

/-- The file has been stored, and the request has not failed since. -/
def Creating.kept : Creating → Bool
  | .stored _ => true
  | .done success => success
  | .called | .locked | .checked | .found _ => false

/-- The next step is to look for the path. -/
def Creation.checks (a : Creation) : Bool :=
  match a.stage with
  | .called => !a.locks
  | .locked => true
  | _ => false

/-- A new request has a new id. If this step looks for a path, then no request for the same path is
on its way from there to the storage, unless both are of `RegisterFile`. -/
def Apart (l : CreateLabel) (w : Creators) : Prop :=
  match l with
  | .makeDir _ id => w.leader.storage.getFile id = none ∧ ∀ b ∈ w.calls, b.file.id ≠ id
  | .registerFile file =>
    w.leader.storage.getFile file.id = none ∧ ∀ b ∈ w.calls, b.file.id ≠ file.id
  | .go c _ => ∀ a ∈ w.calls[c]?, a.checks = true → ∀ b ∈ w.calls, b.stage.inside = true →
      b.file.path = a.file.path → a.locks = true ∧ b.locks = true

instance (l : CreateLabel) (w : Creators) : Decidable (Apart l w) := by
  unfold Apart
  split <;> infer_instance

/-- What holds of the request `c` at every moment. -/
structure Creation.Fits (s : Storage) (holder : Option ℕ) (c : ℕ) (a : Creation) : Prop where
  new : a.stage.early = true → s.getFile a.file.id = none
  free : a.stage.inside = true → s.getFileByPath a.file.path = none
  holder : a.locks = true → a.stage.holding = true → holder = some c
  row : a.stage.kept = true → ∃ parentID, s.Stored { a.file with parentID }

/-- What holds at every moment: one request at most for each path is inside. -/
structure Creators.Orderly (w : Creators) : Prop where
  sound : w.leader.storage.files.Sound filesTable
  complete : w.leader.storage.files.Complete filesTable .path
  ids : ∀ {c c' : ℕ} {a b : Creation}, w.calls[c]? = some a → w.calls[c']? = some b →
    a.file.id = b.file.id → c = c'
  fits : ∀ {c : ℕ} {a : Creation}, w.calls[c]? = some a → a.Fits w.leader.storage w.holder c
  apart : ∀ {c c' : ℕ} {a b : Creation}, w.calls[c]? = some a → w.calls[c']? = some b →
    a.stage.inside = true → b.stage.inside = true → a.file.path = b.file.path → c = c'

namespace Creators.Orderly

variable {env : Env} {w w' : Creators} {c : ℕ} {a : Creation} {stage : Creating} {leader : Leader}
variable {holder : Option ℕ}

theorem move (h : w.Orderly) (hc : w.calls[c]? = some a)
    (hsound : leader.storage.files.Sound filesTable)
    (hcomplete : leader.storage.files.Complete filesTable .path)
    (hfits : Creation.Fits leader.storage holder c { a with stage })
    (hothers : ∀ c' b, c' ≠ c → w.calls[c']? = some b → b.Fits leader.storage holder c')
    (hapart : stage.inside = true → ∀ c' b, c' ≠ c → w.calls[c']? = some b →
      b.stage.inside = true → b.file.path ≠ a.file.path) :
    (w.move c a stage leader holder).Orderly := by
  have hset : ∀ {i : ℕ} {b : Creation}, (w.calls.set c { a with stage })[i]? = some b ↔ _ :=
    getElem?_set_iff (List.getElem?_eq_some_iff.mp hc).1
  refine ⟨hsound, hcomplete, fun hx hy hid => ?_, fun hx => ?_, fun hx hy hix hiy hpath => ?_⟩
  · rcases hset.mp hx with ⟨rfl, rfl⟩ | ⟨-, hx'⟩ <;> rcases hset.mp hy with ⟨rfl, rfl⟩ | ⟨-, hy'⟩
    · rfl
    · exact h.ids hc hy' hid
    · exact h.ids hx' hc hid
    · exact h.ids hx' hy' hid
  · rcases hset.mp hx with ⟨rfl, rfl⟩ | ⟨hne, hx'⟩
    · exact hfits
    · exact hothers _ _ hne hx'
  · rcases hset.mp hx with ⟨rfl, rfl⟩ | ⟨hnx, hx'⟩ <;>
      rcases hset.mp hy with ⟨rfl, rfl⟩ | ⟨hny, hy'⟩
    · rfl
    · exact absurd hpath.symm (hapart hix _ _ hny hy' hiy)
    · exact absurd hpath (hapart hiy _ _ hnx hx' hix)
    · exact h.apart hx' hy' hix hiy hpath

theorem not_holding (h : w.Orderly) (hc : w.calls[c]? = some a) (hlocks : a.locks = true)
    (hhold : a.stage.holding = true) {c' : ℕ} {b : Creation} (hne : c' ≠ c)
    (hb : w.calls[c']? = some b) (hlocks' : b.locks = true) : b.stage.holding = false := by
  rw [Bool.eq_false_iff]
  intro hhold'
  have hc := (h.fits hc).holder hlocks hhold
  rw [(h.fits hb).holder hlocks' hhold', Option.some.injEq] at hc
  exact hne hc

theorem advance (h : w.Orderly) (hc : w.calls[c]? = some a)
    (hfits : Creation.Fits w.leader.storage w.holder c { a with stage })
    (hapart : stage.inside = true → ∀ c' b, c' ≠ c → w.calls[c']? = some b →
      b.stage.inside = true → b.file.path ≠ a.file.path) :
    (w.move c a stage w.leader w.holder).Orderly :=
  h.move hc h.sound h.complete hfits (fun _ _ _ hb => h.fits hb) hapart

theorem finish (h : w.Orderly) (hc : w.calls[c]? = some a) {success : Bool}
    (hhold : a.locks = true → a.stage.holding = true)
    (hsound : leader.storage.files.Sound filesTable)
    (hcomplete : leader.storage.files.Complete filesTable .path)
    (hrow : success = true → ∃ parentID, leader.storage.Stored { a.file with parentID })
    (hothers : ∀ c' b, c' ≠ c → w.calls[c']? = some b → b.Fits leader.storage w.holder c') :
    (w.finish c a success leader).Orderly := by
  refine h.move hc hsound hcomplete ⟨(nomatch ·), (nomatch ·), fun _ => (nomatch ·), hrow⟩
    (fun c' b hne hb => ?_) (nomatch ·)
  refine { hothers c' b hne hb with holder := fun hlocks' hhold' => ?_ }
  split_ifs with hlocks
  · rw [h.not_holding hc hlocks (hhold hlocks) hne hb hlocks'] at hhold'
    cases hhold'
  · exact (hothers c' b hne hb).holder hlocks' hhold'

theorem check (h : w.Orderly) (hc : w.calls[c]? = some a) (hchecks : a.checks = true)
    (hl : ∀ b ∈ w.calls, b.stage.inside = true → b.file.path = a.file.path →
      a.locks = true ∧ b.locks = true) : (w.check c a).Orderly := by
  have hearly : a.stage.early = true := by
    unfold Creation.checks at hchecks
    split at hchecks <;> rename_i hst
    · rw [hst]; rfl
    · rw [hst]; rfl
    · cases hchecks
  have hhold : a.locks = true → a.stage.holding = true := by
    intro hlocks
    unfold Creation.checks at hchecks
    split at hchecks <;> rename_i hst
    · rw [hlocks] at hchecks
      cases hchecks
    · rw [hst]; rfl
    · cases hchecks
  have hfits := h.fits hc
  unfold Creators.check
  split
  · exact h.finish hc hhold h.sound h.complete (nomatch ·) fun _ _ _ hb => h.fits hb
  · rename_i hpath
    refine h.advance hc ⟨fun _ => hfits.new hearly, fun _ => hpath,
      fun hlocks _ => hfits.holder hlocks (hhold hlocks), (nomatch ·)⟩ ?_
    intro _ c' b hne hb hin he
    -- two requests of `RegisterFile` do not both hold the mutex
    obtain ⟨hlocks, hlocks'⟩ := hl b (List.mem_of_getElem? hb) hin he
    have hnot := h.not_holding hc hlocks (hhold hlocks) hne hb hlocks'
    rw [Creating.holding_of_inside hin] at hnot
    cases hnot

/-- The file of the request `c` is stored. Its path was free, and no other request inside is for
that path. -/
theorem insert (h : w.Orderly) (hc : w.calls[c]? = some a) (hin : a.stage.inside = true)
    {parentID : Bytes} {s : Storage}
    (hi : w.leader.storage.files.insert filesTable { a.file with parentID } = some s.files) :
    s.files.Sound filesTable ∧ s.files.Complete filesTable .path
      ∧ s.Stored { a.file with parentID }
      ∧ ∀ c' b, c' ≠ c → w.calls[c']? = some b → b.Fits s w.holder c' := by
  have hfits := h.fits hc
  have hrows : ∀ f, s.Stored f ↔ f = { a.file with parentID }
      ∨ w.leader.storage.Stored f ∧ f.id ≠ a.file.id := fun f => Table.has_insert hi
  have hpath : ∀ {path : Bytes} {f : FileInfo}, w.leader.storage.getFileByPath path = some f
      ↔ w.leader.storage.Stored f ∧ f.path = path := Table.first_iff h.sound h.complete rfl
  have hsound := h.sound.insert hi
  have hcomplete := h.complete.insert h.sound hi fun b hb hk => by
    have := hpath.mpr ⟨hb, Schema.field_eq_of_key hk⟩
    rw [show filesTable.field .path { a.file with parentID } = a.file.path from rfl,
      hfits.free hin] at this
    cases this
  refine ⟨hsound, hcomplete, (hrows _).mpr (.inl rfl), fun c' b hne hb => ?_⟩
  have hfits' := h.fits hb
  have hid : b.file.id ≠ a.file.id := fun he => hne (h.ids hb hc he)
  refine ⟨fun hearly => ?_, fun hin' => ?_, hfits'.holder, fun hkept => ?_⟩
  · by_contra hsome
    obtain ⟨f, hf⟩ := Option.ne_none_iff_exists'.mp hsome
    obtain ⟨hstored, hfid⟩ := hsound.byId_iff.mp hf
    rcases (hrows f).mp hstored with rfl | ⟨hold, -⟩
    · exact hid hfid.symm
    · have hnew := hfits'.new hearly
      rw [show b.file.id = f.id from hfid.symm, hold] at hnew
      cases hnew
  · by_contra hsome
    obtain ⟨f, hf⟩ := Option.ne_none_iff_exists'.mp hsome
    obtain ⟨hstored, hfpath⟩ := (Table.first_iff hsound hcomplete rfl).mp hf
    rcases (hrows f).mp hstored with rfl | ⟨hold, -⟩
    · exact hne (h.apart hb hc hin' hin hfpath.symm)
    · have hfree := hpath.mpr ⟨hold, hfpath⟩
      rw [hfits'.free hin'] at hfree
      cases hfree
  · obtain ⟨parentID', hold⟩ := hfits'.row hkept
    exact ⟨parentID', (hrows _).mpr (.inr ⟨hold, hid⟩)⟩

theorem go (h : w.Orderly) (hc : w.calls[c]? = some a) {ok : Bool}
    (hl : a.checks = true → ∀ b ∈ w.calls, b.stage.inside = true → b.file.path = a.file.path →
      a.locks = true ∧ b.locks = true) (hs : w.go c a env ok = some w') : w'.Orderly := by
  have hfits := h.fits hc
  have hothers : ∀ c' b, c' ≠ c → w.calls[c']? = some b →
      b.Fits w.leader.storage w.holder c' := fun _ _ _ hb => h.fits hb
  unfold Creators.go at hs
  rcases hst : a.stage with _ | _ | _ | parentID | file | success <;> rw [hst] at hs <;>
    dsimp only at hs
  · -- called
    split_ifs at hs with hlocks
    · rcases hholder : w.holder with _ | c' <;> rw [hholder] at hs
      · obtain rfl := Option.some.inj hs
        refine h.move hc h.sound h.complete ⟨fun _ => hfits.new (by rw [hst]; rfl), (nomatch ·),
          fun _ _ => rfl, (nomatch ·)⟩ (fun c' b hne hb => ?_) (nomatch ·)
        refine { h.fits hb with holder := fun hlocks' hhold' => ?_ }
        rw [(h.fits hb).holder hlocks' hhold'] at hholder
        cases hholder
      · cases hs
    · obtain rfl := Option.some.inj hs
      have hchecks : a.checks = true := by
        rw [Creation.checks, hst]
        simpa using hlocks
      exact h.check hc hchecks (hl hchecks)
  · -- locked
    obtain rfl := Option.some.inj hs
    have hchecks : a.checks = true := by rw [Creation.checks, hst]
    exact h.check hc hchecks (hl hchecks)
  · -- checked
    have hin : a.stage.inside = true := by rw [hst]; rfl
    have hhold := Creating.holding_of_inside hin
    rcases hp : w.leader.storage.parentID a.file.path with _ | parentID <;> rw [hp] at hs <;>
      obtain rfl := Option.some.inj hs
    · exact h.finish hc (fun _ => hhold) h.sound h.complete (nomatch ·) hothers
    · refine h.advance hc ⟨fun _ => hfits.new (by rw [hst]; rfl), fun _ => hfits.free hin,
        fun hlocks _ => hfits.holder hlocks hhold, (nomatch ·)⟩ fun _ c' b hne hb hin' hpath => ?_
      exact hne (h.apart hb hc hin' hin hpath)
  · -- found
    have hin : a.stage.inside = true := by rw [hst]; rfl
    have hhold := Creating.holding_of_inside hin
    rcases hres : w.leader.storage.storeFile env.pb.toCodecs { a.file with parentID } ok with
      ⟨res, s⟩
    rw [hres] at hs
    rcases storeFile_cases hres with ⟨rfl, rfl⟩ | hi
    · obtain rfl := Option.some.inj hs
      exact h.finish hc (fun _ => hhold) h.sound h.complete (nomatch ·) hothers
    · obtain ⟨hsound, hcomplete, hrow, hothers⟩ := h.insert hc hin hi
      rcases res with _ | _ <;> obtain rfl := Option.some.inj hs
      · exact h.finish hc (fun _ => hhold) hsound hcomplete (nomatch ·) hothers
      · exact h.move hc hsound hcomplete ⟨(nomatch ·), (nomatch ·),
          fun hlocks _ => hfits.holder hlocks hhold, fun _ => ⟨parentID, hrow⟩⟩ hothers (nomatch ·)
  · -- stored
    obtain rfl := Option.some.inj hs
    have hsame := Leader.writeEntry_storage .assignFile
      (env.pb.assignFile.marshal (env.id, file)) ok w.leader
    refine h.finish hc (fun _ => by rw [hst]; rfl) ?_ ?_ (fun _ => ?_) fun c' b hne hb => ?_
    · rw [hsame]
      exact h.sound
    · rw [hsame]
      exact h.complete
    · rw [hsame]
      exact hfits.row (by rw [hst]; rfl)
    · rw [hsame]
      exact h.fits hb
  · cases hs

theorem call (h : w.Orderly) {file : FileInfo} (locks : Bool)
    (hnew : w.leader.storage.getFile file.id = none) (hids : ∀ b ∈ w.calls, b.file.id ≠ file.id) :
    Orderly { w with calls := w.calls ++ [⟨file, locks, .called⟩] } := by
  have hconcat : ∀ {i : ℕ} {b : Creation}, (w.calls ++ [⟨file, locks, .called⟩])[i]? = some b ↔ _ :=
    getElem?_concat_iff
  refine ⟨h.sound, h.complete, fun hx hy hid => ?_, fun hx => ?_, fun hx hy hix hiy hpath => ?_⟩
  · rcases hconcat.mp hx with ⟨rfl, rfl⟩ | hx' <;> rcases hconcat.mp hy with ⟨rfl, rfl⟩ | hy'
    · rfl
    · exact absurd hid.symm (hids _ (List.mem_of_getElem? hy'))
    · exact absurd hid (hids _ (List.mem_of_getElem? hx'))
    · exact h.ids hx' hy' hid
  · rcases hconcat.mp hx with ⟨rfl, rfl⟩ | hx'
    · exact ⟨fun _ => hnew, (nomatch ·), fun _ => (nomatch ·), (nomatch ·)⟩
    · exact h.fits hx'
  · rcases hconcat.mp hx with ⟨rfl, rfl⟩ | hx'
    · cases hix
    rcases hconcat.mp hy with ⟨rfl, rfl⟩ | hy'
    · cases hiy
    exact h.apart hx' hy' hix hiy hpath

theorem step (h : w.Orderly) {l : CreateLabel} (hl : Apart l w)
    (hs : Creators.step env l w = some w') : w'.Orderly := by
  cases l with
  | makeDir path uid => exact Option.some.inj hs ▸ h.call false hl.1 hl.2
  | registerFile file => exact Option.some.inj hs ▸ h.call true hl.1 hl.2
  | go c ok =>
    rw [Creators.step] at hs
    rcases hc : w.calls[c]? with _ | a <;> rw [hc] at hs
    · cases hs
    · exact h.go hc (hl a hc) hs

end Creators.Orderly

/-- Requests of `HandleMakeDir` and `RegisterFile` on a registry, in any number and in any order of
their steps: if no request looks for its path while another for the same path is on its way from
there to the storage, two of `RegisterFile` apart, then no two files have the same path, and of the
requests for a path one at most succeeds. -/
theorem one_file_per_path (env : Env) {r : Leader} (hsound : r.storage.files.Sound filesTable)
    (hcomplete : r.storage.files.Complete filesTable .path) (ls : List CreateLabel) {w : Creators}
    (hls : Along (Creators.step env) Apart ls ⟨r, none, []⟩)
    (hrun : runSteps (Creators.step env) ls ⟨r, none, []⟩ = some w) :
    (∀ f g, w.leader.storage.Stored f → w.leader.storage.Stored g → f.path = g.path → f.id = g.id)
      ∧ ∀ (c c' : ℕ) (a b : Creation), w.calls[c]? = some a → w.calls[c']? = some b →
        a.stage = .done true → b.stage = .done true → a.file.path = b.file.path → c = c' := by
  have hinit : Creators.Orderly ⟨r, none, []⟩ :=
    ⟨hsound, hcomplete, by simp, by simp, by simp⟩
  have h := Along.invariant (fun _ _ _ h hl hs => Creators.Orderly.step h hl hs) ls hinit hls hrun
  have hpath : ∀ f g, w.leader.storage.Stored f → w.leader.storage.Stored g → f.path = g.path →
      f = g := fun f g hf hg he => h.complete.inj hf hg (by
    rw [filesTable_pathKey, filesTable_pathKey, he])
  refine ⟨fun f g hf hg he => by rw [hpath f g hf hg he], fun c c' a b hc hc' ha hb he => ?_⟩
  obtain ⟨p, hf⟩ := (h.fits hc).row (by rw [ha]; rfl)
  obtain ⟨p', hg⟩ := (h.fits hc').row (by rw [hb]; rfl)
  have hid := congrArg FileInfo.id
    (hpath { a.file with parentID := p } { b.file with parentID := p' } hf hg he)
  exact h.ids hc hc' hid

section Two

/-- A request for a regular file looks for the path when the directory there has been stored. -/
def fileAfterDir : List CreateLabel :=
  [.makeDir [97] [1], .registerFile ⟨[2], [], .file, [97], [97], 0, 0, [], [], [], 1⟩, .go 0 true,
    .go 1 true, .go 0 true, .go 0 true, .go 1 true, .go 0 true]

/-- Two requests look for the path before either stores its directory. -/
def dirTwice : List CreateLabel :=
  [.makeDir [97] [1], .makeDir [97] [2], .go 0 true, .go 1 true, .go 0 true, .go 0 true, .go 0 true,
    .go 1 true, .go 1 true, .go 1 true]

theorem one_file_per_path_fileAfterDir : ∃ w,
    runSteps (Creators.step someEnv) fileAfterDir ⟨.empty, none, []⟩ = some w
      ∧ w.calls.map Creation.stage = [.done true, .done false]
      ∧ ∀ f g, w.leader.storage.Stored f → w.leader.storage.Stored g → f.path = g.path →
        f.id = g.id := by
  obtain ⟨w, hrun⟩ :
        ∃ w, runSteps (Creators.step someEnv) fileAfterDir ⟨.empty, none, []⟩ = some w :=
    Option.isSome_iff_exists.mp (by decide +kernel)
  have hend : (runSteps (Creators.step someEnv) fileAfterDir ⟨.empty, none, []⟩).map
      (fun w => w.calls.map Creation.stage) = some [.done true, .done false] := by decide +kernel
  rw [hrun, Option.map_some, Option.some.injEq] at hend
  exact ⟨w, hrun, hend, (one_file_per_path someEnv Table.sound_empty Table.complete_empty
    fileAfterDir (by decide +kernel) hrun).1⟩

/-- Both requests succeed, and there are two directories with the same path. -/
theorem two_files_dirTwice : ∃ w f g,
    runSteps (Creators.step someEnv) dirTwice ⟨.empty, none, []⟩ = some w
      ∧ w.calls.map Creation.stage = [.done true, .done true]
      ∧ w.leader.storage.Stored f ∧ w.leader.storage.Stored g ∧ f.path = g.path ∧ f.id ≠ g.id := by
  obtain ⟨w, hrun⟩ : ∃ w, runSteps (Creators.step someEnv) dirTwice ⟨.empty, none, []⟩ = some w :=
    Option.isSome_iff_exists.mp (by decide +kernel)
  have hend : (runSteps (Creators.step someEnv) dirTwice ⟨.empty, none, []⟩).map
      (fun w => (w.calls.map Creation.stage, w.leader.storage.getFile [1],
        w.leader.storage.getFile [2]))
        = some ([.done true, .done true], some (newDir [97] [1] root),
          some (newDir [97] [2] root)) := by decide +kernel
  rw [hrun, Option.map_some, Option.some.injEq, Prod.mk.injEq, Prod.mk.injEq] at hend
  exact ⟨w, newDir [97] [1] root, newDir [97] [2] root, hrun, hend.1, hend.2.1, hend.2.2, rfl,
    by decide⟩

end Two

end Rhosus.Registry

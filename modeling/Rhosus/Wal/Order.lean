import Rhosus.Wal.Refine

/-!
# Writes at any index

`Write` takes the index of an entry from its caller, and never finds it out of order
(`write_avoids`). So writes at any indexes are kept or refused as they should be exactly if each is
at the index after the last (`writes_kept_iff`).
-/

namespace Rhosus.Wal

open Prog (Avoids)

section Avoids

variable (lru : SetEvicted ℕ Ptr)

theorem pushCache_avoids (k : ℕ) : Avoids .outOfOrder (pushCache lru k) := by
  refine .bind .getMem fun w => .bind (.orPanic _) fun p => .bind (.modifyMem _) fun _ => ?_
  split
  · exact .modifyMem _
  · exact .pure _

theorem sfileWrite_avoids (bs : Bytes) : Avoids .outOfOrder (sfileWrite bs) := by
  refine .bind .getMem fun w => ?_
  split
  · exact .throw (by decide)
  · exact .fileOp (by decide)

theorem closeTail_avoids : Avoids .outOfOrder closeTail := by
  refine .bind .getMem fun w => ?_
  split
  · exact .throw (by decide)
  · exact .bind (.modifyMem _) fun _ => .fileOp (by decide)

theorem createSegment_avoids (index : ℕ) : Avoids .outOfOrder (createSegment index) :=
  .bind (.modifyMem _) fun _ => .bind (.fileOp (by decide)) fun _ => .modifyMem _

theorem cycle_avoids : Avoids .outOfOrder (cycle lru) := by
  refine .bind .getMem fun w => ?_
  split
  · exact .throw (by decide)
  · exact .bind (.fileOp (by decide)) fun _ => .bind closeTail_avoids fun _ =>
      .bind (pushCache_avoids lru _) fun _ => createSegment_avoids _

theorem writeEntries_avoids : ∀ (es : List BatchEntry) (datas : Bytes) (mark : ℕ),
    Avoids .outOfOrder (writeEntries lru es datas mark)
  | [], _, _ => .pure _
  | e :: es, datas, mark => by
    refine .bind .getMem fun w => .bind (.orPanic _) fun p => .bind (.orPanic _) fun data =>
      .bind (.modifyMem _) fun _ => ?_
    split_ifs
    · exact .bind (sfileWrite_avoids _) fun _ => .bind (.modifyMem _) fun _ =>
        .bind (cycle_avoids lru) fun _ => writeEntries_avoids es _ _
    · exact writeEntries_avoids es _ _

theorem appendBatch_avoids (b : Batch) : Avoids .outOfOrder (appendBatch lru b) := by
  refine .bind .getMem fun w => .bind (.orPanic _) fun p => .bind (writeEntries_avoids lru _ _ _)
    fun mark => .bind .getMem fun w => .bind (.orPanic _) fun p => ?_
  split_ifs
  · exact .bind (sfileWrite_avoids _) fun _ => .bind (.orPanic _) fun _ => .modifyMem _
  · exact .pure _

theorem write_avoids (index : ℕ) (data : Bytes) : Avoids .outOfOrder (write lru index data) := by
  refine .bind .getMem fun w => ?_
  split_ifs
  · exact .throw (by decide)
  · exact .throw (by decide)
  · refine .bind .getMem fun w => .bind (.orPanic _) fun p => ?_
    split_ifs
    · exact .bind (cycle_avoids lru) fun _ => appendBatch_avoids lru _
    · exact appendBatch_avoids lru _

end Avoids

section Writes

/-- A write at any index: it is refused unless the index is the next one. -/
def Log.writeAt (l : Log) (i : ℕ) (d : Bytes) : Res × Log :=
  if i = l.lastIndex + 1 then (.done, l.write d) else (.error .outOfOrder, l)

def Log.writeAll : Log → List (ℕ × Record) → List Res × Log
  | l, [] => ([], l)
  | l, (i, d) :: ws =>
    let (r, l') := l.writeAt i d
    let (rs, l'') := l'.writeAll ws
    (r :: rs, l'')

/-- Each write is at the index after the last. -/
def Log.InTurn : Log → List (ℕ × Record) → Prop
  | _, [] => True
  | l, (i, d) :: ws => i = l.lastIndex + 1 ∧ (l.write d).InTurn ws

variable (lru : SetEvicted ℕ Ptr)

/-- The results of some calls of `Write` in turn, and the world after them. -/
def writeAll : List (ℕ × Record) → World Name WAL → Option (List Res × World Name WAL)
  | [], W => some ([], W)
  | (i, d) :: ws, W =>
    match write lru i d W with
    | (.ok _, W') => (writeAll ws W').map fun (rs, W'') => (.done :: rs, W'')
    | (.err e, W') => (writeAll ws W').map fun (rs, W'') => (.error e :: rs, W'')
    | (.panic, _) | (.crash, _) => none

/-- As `writeAll`, on a log newly created in an empty directory, where no file operation fails. -/
def writeFresh (opts : Options) (ws : List (ℕ × Record)) : Option (List Res × World Name WAL) :=
  match create opts ⟨WAL.new opts, ∅, []⟩ with
  | (.ok _, W) => writeAll lru ws W
  | _ => none

/-- The writes are kept or refused as they should be: the entries that were accepted are read, from
the first index to the last, and the log that is opened again ends where this one does. -/
def Kept (opts : Options) (ws : List (ℕ × Record)) : Prop :=
  ∃ W, writeFresh lru opts ws = some ((Log.empty.writeAll ws).1, W) ∧
    let l := (Log.empty.writeAll ws).2
    (Wal.firstIndex W).1 = .ok l.firstIndex ∧ (Wal.lastIndex W).1 = .ok l.lastIndex
      ∧ (∀ i, l.firstIndex ≤ i → 1 ≤ i → i ≤ l.lastIndex →
        ∃ d, l.get? i = some d ∧ (read lru i W).1 = .ok d)
      ∧ ∀ opts', ∃ W', create opts' ⟨WAL.new opts', W.dir, []⟩ = (.ok (), W')
        ∧ (Wal.lastIndex W').1 = .ok l.lastIndex

variable {lru} {W : World Name WAL} {l : Log}

theorem writeAll_avoids : ∀ (ws : List (ℕ × Record)) {W W' : World Name WAL} {rs : List Res},
    writeAll lru ws W = some (rs, W') → .error .outOfOrder ∉ rs
  | [], W, W', rs, h => by
    obtain ⟨rfl, -⟩ := Prod.mk.inj (Option.some.inj h)
    exact List.not_mem_nil
  | (i, d) :: ws, W, W', rs, h => by
    have hav := write_avoids lru i d W
    rw [writeAll] at h
    rcases hw : write lru i d W with ⟨o, W₁⟩
    rw [hw] at h hav
    cases o with
    | ok a =>
      obtain ⟨⟨rs', W''⟩, hrest, heq⟩ := Option.map_eq_some_iff.mp h
      obtain ⟨rfl, -⟩ := Prod.mk.inj heq
      simpa using writeAll_avoids ws hrest
    | err e =>
      obtain ⟨⟨rs', W''⟩, hrest, heq⟩ := Option.map_eq_some_iff.mp h
      obtain ⟨rfl, -⟩ := Prod.mk.inj heq
      have hne : e ≠ .outOfOrder := fun he => hav (by rw [he])
      simpa [Ne.symm hne] using writeAll_avoids ws hrest
    | panic => cases h
    | crash => cases h

theorem Log.inTurn_of_notMem : ∀ (ws : List (ℕ × Record)) {l : Log},
    Res.error .outOfOrder ∉ (l.writeAll ws).1 → l.InTurn ws
  | [], _, _ => trivial
  | (i, d) :: ws, l, h => by
    by_cases hi : i = l.lastIndex + 1
    · refine ⟨hi, inTurn_of_notMem ws fun hmem => h ?_⟩
      simp only [Log.writeAll, Log.writeAt, if_pos hi]
      exact List.mem_cons_of_mem _ hmem
    · exact absurd (by simp [Log.writeAll, Log.writeAt, hi]) h

theorem writeAll_spec (hlru : lru.Lawful) : ∀ (ws : List (ℕ × Record)) {W : World Name WAL}
    {l : Log}, Rep W l → l.Wf → W.plan = [] → l.InTurn ws →
      ∃ W', writeAll lru ws W = some ((l.writeAll ws).1, W') ∧ Rep W' (l.writeAll ws).2
        ∧ (l.writeAll ws).2.Wf ∧ W'.plan = []
        ∧ (l.writeAll ws).2.lastIndex = l.lastIndex + ws.length
  | [], W, l, h, hl, hp, _ => ⟨W, rfl, h, hl, hp, rfl⟩
  | (i, d) :: ws, W, l, h, hl, hp, hturn => by
    obtain ⟨rfl, hrest⟩ := hturn
    obtain ⟨r, W₁, hw, hp₁, rfl, h₁⟩ := (h.write hlru hl d.2).returns hp
    obtain ⟨W', hws, h', hl', hp', hlast⟩ := writeAll_spec hlru ws h₁ (hl.write d) hp₁ hrest
    have hone : (l.write d).lastIndex = l.lastIndex + 1 := by
      have := hl.pos
      simp only [Log.lastIndex, Log.write, List.length_append, List.length_singleton]
      omega
    refine ⟨W', ?_, ?_⟩
    · simp only [writeAll, hw, Outcome.ofExcept, hws, Option.map_some, Log.writeAll, Log.writeAt,
        if_pos]
    · simp only [Log.writeAll, Log.writeAt, if_pos]
      refine ⟨h', hl', hp', ?_⟩
      rw [hlast, hone, List.length_cons]
      omega

theorem Rep.lastIndex_run (h : Rep W l) (hp : W.plan = []) :
    (Wal.lastIndex W).1 = .ok l.lastIndex := by
  have hends : Ends Wal.lastIndex W (fun r _ => r = .ok W.mem.lastIndex) (fun _ => True) :=
    h.beside.guarded (.bind (.getMem (.pure rfl)))
  obtain ⟨r, W', hrun, -, rfl⟩ := hends.returns hp
  rw [hrun, h.lastIndex_eq]
  rfl

theorem Rep.firstIndex_run (h : Rep W l) (hl : l.Wf) (hp : W.plan = []) :
    (Wal.firstIndex W).1 = .ok l.firstIndex := by
  have hends : Ends Wal.firstIndex W
      (fun r _ => r = .ok (if W.mem.lastIndex = 0 then 0 else W.mem.firstIndex))
      (fun _ => True) := h.beside.guarded (.bind (.getMem (.pure rfl)))
  obtain ⟨r, W', hrun, -, rfl⟩ := hends.returns hp
  rw [hrun, h.beside.firstIndex_eq hl]
  rfl

theorem Rep.read_run (hlru : lru.Lawful) (h : Rep W l) (hp : W.plan = []) {i : ℕ} {d : Bytes}
    (hd : l.get? i = some d) : (Wal.read lru i W).1 = .ok d := by
  obtain ⟨r, W', hrun, -, rfl, -⟩ := (h.read hlru i).returns hp
  rw [hrun, Log.read, hd]
  rfl

/-- Calls of `Write` at any indexes on a new log are kept or refused as they should be exactly if
each index is the one after the last. -/
theorem writes_kept_iff (hlru : lru.Lawful) (opts : Options) (ws : List (ℕ × Record))
    (hb : ws.length + 1 < 2 ^ 64) : Kept lru opts ws ↔ Log.empty.InTurn ws := by
  obtain ⟨r, W₀, hcreate, hp₀, rfl, hrep, -⟩ :=
    (create_rep opts recovers_empty NoFail.nil (WAL.new opts)).returns rfl
  have hfresh : writeFresh lru opts ws = writeAll lru ws W₀ := by
    simp only [writeFresh, hcreate, Outcome.ofExcept]
  constructor
  · rintro ⟨W, hrun, -⟩
    rw [hfresh] at hrun
    exact Log.inTurn_of_notMem ws (writeAll_avoids ws hrun)
  · intro hturn
    obtain ⟨W, hws, h, hl, hp, hlast⟩ := writeAll_spec hlru ws hrep Log.empty_wf hp₀ hturn
    refine ⟨W, hfresh.trans hws, h.firstIndex_run hl hp, h.lastIndex_run hp, fun i hf hi hle => ?_,
      fun opts' => ?_⟩
    · have hhas : (Log.empty.writeAll ws).2.Has i := by
        have hne : (Log.empty.writeAll ws).2.entries ≠ [] := fun he => by
          have := hl.empty he
          simp only [Log.lastIndex, he, List.length_nil] at hle
          omega
        refine ⟨hne, ?_, hle⟩
        rwa [Log.firstIndex, if_neg hne] at hf
      obtain ⟨d, hd⟩ := Option.isSome_iff_exists.mp (Log.get?_isSome.mpr hhas)
      exact ⟨d, hd, h.read_run hlru hp hd⟩
    · have hstop : (Log.empty.writeAll ws).2.first + (Log.empty.writeAll ws).2.entries.length
          < 2 ^ 64 := by
        have hpos := hl.pos
        have hempty : Log.empty.lastIndex = 0 := rfl
        rw [hempty, Log.lastIndex] at hlast
        omega
      obtain ⟨r, W', hc, hp', rfl, hW', -⟩ :=
        (create_rep opts' (h.recovers hstop) NoFail.nil (WAL.new opts')).returns rfl
      exact ⟨W', hc, hW'.lastIndex_run hp'⟩

/-- Two writes in turn, and the same two the other way round. -/
theorem writes_kept_iff_lruSet : Kept lruSet ⟨1, 1⟩ [(1, ⟨[7], by decide⟩), (2, ⟨[8], by decide⟩)]
    ∧ ¬ Kept lruSet ⟨1, 1⟩ [(2, ⟨[8], by decide⟩), (1, ⟨[7], by decide⟩)] := by
  constructor
  · rw [writes_kept_iff lruSet_lawful _ _ (by decide)]
    exact ⟨rfl, rfl, trivial⟩
  · rw [writes_kept_iff lruSet_lawful _ _ (by decide)]
    rintro ⟨h, -⟩
    cases h

/-- One write, at index 5. -/
def skipped : List (ℕ × Record) := [(5, .byte 7)]

/-- On a new log the write is accepted and makes 5 the last index, whose entry cannot then be
read. -/
theorem write_skips_lruSet : ∃ W, writeFresh lruSet ⟨1024, 1⟩ skipped = some ([.done], W)
    ∧ (Log.empty.writeAll skipped).1 = [.error .outOfOrder]
    ∧ (Wal.lastIndex W).1 = .ok 5 ∧ (read lruSet 5 W).1 = .panic := by
  obtain ⟨⟨rs, W⟩, hrun⟩ : ∃ r, writeFresh lruSet ⟨1024, 1⟩ skipped = some r :=
    Option.isSome_iff_exists.mp (by decide +kernel)
  have hend : (writeFresh lruSet ⟨1024, 1⟩ skipped).map
      (fun r => (r.1, (Wal.lastIndex r.2).1, (read lruSet 5 r.2).1))
        = some ([.done], .ok 5, .panic) := by decide +kernel
  rw [hrun, Option.map_some, Option.some.injEq, Prod.mk.injEq, Prod.mk.injEq] at hend
  obtain ⟨rfl, hlast, hread⟩ := hend
  exact ⟨W, hrun, rfl, hlast, hread⟩

end Writes

end Rhosus.Wal

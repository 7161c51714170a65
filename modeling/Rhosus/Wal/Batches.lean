import Rhosus.Wal.Order

/-!
# Batches of writes

`WriteBatch` writes the entries of a map in the order in which the map happens to be iterated, and
drops the errors of the writes. A write at any index is appended to the tail and makes its index the
last one (`Writable.write`), so the batch is as good as writes in index order if the map is iterated
in that order. Every order is that one only if the map has at most one entry, and a write that fails
is not reported (`writeMap_faithful_iff`).
-/

namespace Rhosus.Wal

variable {lru : SetEvicted ℕ Ptr} {W V : World Name WAL} {l : Log}

section Same

variable (lru)

/-- The two logs have the same last index, and read alike. -/
structure Alike (V V' : World Name WAL) : Prop where
  lastIndex : (lastIndex V).1 = (lastIndex V').1
  read : ∀ i, (read lru i V).1 = (read lru i V').1

/-- The two logs are alike, in memory and once their directories are opened again. -/
structure SameLogs (V V' : World Name WAL) : Prop where
  memory : Alike lru V V'
  opened : ∀ opts, (create opts ⟨WAL.new opts, V.dir, []⟩).1
    = (create opts ⟨WAL.new opts, V'.dir, []⟩).1
  disk : ∀ opts, Alike lru (create opts ⟨WAL.new opts, V.dir, []⟩).2
    (create opts ⟨WAL.new opts, V'.dir, []⟩).2

/-- The entries `ds` under the indexes after the last. -/
def Log.numbered (l : Log) (ds : List Record) : List (ℕ × Record) :=
  ds.mapIdx fun k d => (l.lastIndex + 1 + k, d)

/-- `WriteBatch` of a map that is iterated in the order `ws`. -/
def writeMapOf (ws : List (ℕ × Record)) : WalM Unit := writeMap lru (ws.map fun e => (e.1, e.2.1))

/-- `WriteBatch`, iterating its map in the order `ws`, leaves the log that writes in the order `vs`
leave. -/
def BatchAgrees (W : World Name WAL) (ws vs : List (ℕ × Record)) : Prop :=
  ∃ V rs V', writeMapOf lru ws W = (.ok (), V) ∧ writeAll lru vs W = some (rs, V')
    ∧ SameLogs lru V V'

/-- One of the writes fails, in the order `ws`. -/
def WriteFails : List (ℕ × Record) → World Name WAL → Prop
  | [], _ => False
  | (i, d) :: ws, W =>
    match writeBatch lru (Batch.write ⟨[], []⟩ i d) W with
    | (.ok _, W') => WriteFails ws W'
    | (.err _, _) => True
    | _ => False

end Same

section Writes

variable {p : Ptr} {n : Name} {ds : List Bytes}

theorem Writable.write (lru : SetEvicted ℕ Ptr) (h : Writable W p n ds) (hp : W.plan = []) (i : ℕ)
    (d : Bytes) : ∃ W', write lru i d W = (.ok (), W') ∧ (∃ p n ds, Writable W' p n ds)
      ∧ W'.plan = [] ∧ W'.mem.lastIndex = i := by
  have hW : { W with plan := [] } = W := by rw [← hp]
  by_cases hroom : (encode ds).length ≤ W.mem.opts.segmentSize
  · have htr := (h.write_trace_of_room lru hroom i d).2.runs
    obtain ⟨⟨p', n', ds', hw⟩, hlast⟩ := h.appended lru i d
    rw [hW] at htr
    exact ⟨_, htr, ⟨p', n', ds', hw.corrupt, hw.closed, hw.last, hw.load, hw.sfile, hw.file⟩, rfl,
      hlast⟩
  · have htr := (h.write_trace_of_over lru (not_le.mp hroom) i d).2.runs
    obtain ⟨⟨p', n', ds', hw⟩, hlast⟩ := (h.cycled lru).appended lru i d
    rw [hW] at htr
    exact ⟨_, htr, ⟨p', n', ds', hw.corrupt, hw.closed, hw.last, hw.load, hw.sfile, hw.file⟩, rfl,
      hlast⟩

theorem guarded_eq {α : Type} {m : WalM α} (h1 : W.mem.corrupt = false)
    (h2 : W.mem.closed = false) : guarded m W = m W := by
  simp only [guarded, Bind.bind, Prog.getMem, h1, h2, Bool.false_eq_true, ↓reduceIte]

/-- The writes of a batch are those of calls of `Write`. -/
theorem writeMap_eq_writeAll (lru : SetEvicted ℕ Ptr) : ∀ (ws : List (ℕ × Record))
    {W : World Name WAL}, (∃ p n ds, Writable W p n ds) → W.plan = [] →
    ∃ rs V, writeMapOf lru ws W = (.ok (), V) ∧ writeAll lru ws W = some (rs, V)
      ∧ (∃ p n ds, Writable V p n ds)
      ∧ V.mem.lastIndex = (ws.getLast?.map Prod.fst).getD W.mem.lastIndex
  | [], W, ⟨p, n, ds, h⟩, _ => by
    refine ⟨[], W, ?_, rfl, ⟨p, n, ds, h⟩, rfl⟩
    rw [writeMapOf, writeMap, guarded_eq h.corrupt h.closed]
    rfl
  | (i, d) :: ws, W, ⟨p, n, ds, h⟩, hp => by
    obtain ⟨W', hw, hW', hp', hlast⟩ := h.write lru hp i d
    obtain ⟨rs, V, hmap, hall, hV, hlast'⟩ := writeMap_eq_writeAll lru ws hW' hp'
    obtain ⟨p', n', ds', h'⟩ := hW'
    refine ⟨.done :: rs, V, ?_, ?_, hV, ?_⟩
    · rw [Wal.write, guarded_eq h.corrupt h.closed] at hw
      rw [writeMapOf, writeMap, guarded_eq h'.corrupt h'.closed] at hmap
      rw [writeMapOf, writeMap, guarded_eq h.corrupt h.closed]
      simp only [List.map_cons, Prog.each, Bind.bind, Prog.ignoreErr, hw]
      exact hmap
    · simp only [writeAll, hw, hall, Option.map_some]
    · rw [hlast', hlast, List.getLast?_cons]
      cases ws.getLast? <;> rfl

theorem Rep.writable (h : Rep W l) : ∃ p n ds, Writable W p n ds := by
  obtain ⟨cs, hg, -⟩ := h
  obtain ⟨t, p, ht, -, hp, hload⟩ := hg.opened.tail
  exact ⟨p, _, _, hg.opened.writable ht hp hload⟩

end Writes

section Errors

theorem each_ignoreErr_ne {α : Type} (m : α → WalM Unit) : ∀ (as : List α) (W : World Name WAL)
    (e : Err), (Prog.each (fun a => Prog.ignoreErr (m a)) as W).1 ≠ .err e
  | [], W, e => by simp [Prog.each, Pure.pure]
  | a :: as, W, e => by
    rcases hm : m a W with ⟨o, W'⟩
    cases o with
    | ok u =>
      simp only [Prog.each, Bind.bind, Prog.ignoreErr, hm]
      exact each_ignoreErr_ne m as W' e
    | err e' =>
      simp only [Prog.each, Bind.bind, Prog.ignoreErr, hm]
      exact each_ignoreErr_ne m as W' e
    | panic => simp [Prog.each, Bind.bind, Prog.ignoreErr, hm]
    | crash => simp [Prog.each, Bind.bind, Prog.ignoreErr, hm]

theorem writeMapOf_ne (h1 : W.mem.corrupt = false) (h2 : W.mem.closed = false)
    (ws : List (ℕ × Record)) (e : Err) : (writeMapOf lru ws W).1 ≠ .err e := by
  rw [writeMapOf, writeMap, guarded_eq h1 h2]
  exact each_ignoreErr_ne _ _ W e

theorem Writable.writeFails {p : Ptr} {n : Name} {ds : List Bytes} (h : Writable W p n ds)
    (i : ℕ) (d : Record) (ws : List (ℕ × Record)) :
    WriteFails lru ((i, d) :: ws) { W with plan := faultAt 0 (.fail 0) } := by
  obtain ⟨e, W', hw⟩ : ∃ e W', Wal.write lru i d { W with plan := faultAt 0 (.fail 0) }
      = (.err e, W') := by
    by_cases hroom : (encode ds).length ≤ W.mem.opts.segmentSize
    · obtain ⟨e, hw⟩ := (h.write_trace_of_room lru hroom i d).2.fails (k := 0) (n := 0) rfl rfl
      exact ⟨e, _, hw⟩
    · obtain ⟨e, hw⟩ := (h.write_trace_of_over lru (not_le.mp hroom) i d).2.fails (k := 0) (n := 0)
        rfl rfl
      exact ⟨e, _, hw⟩
  rw [Wal.write, guarded_eq (W := { W with plan := faultAt 0 (.fail 0) }) h.corrupt h.closed] at hw
  simp only [WriteFails, hw]

end Errors

section Batch

theorem Alike.refl (V : World Name WAL) : Alike lru V V := ⟨rfl, fun _ => rfl⟩

theorem SameLogs.refl (V : World Name WAL) : SameLogs lru V V :=
  ⟨.refl V, fun _ => rfl, fun _ => .refl _⟩

theorem Log.numbered_getElem? (l : Log) {ds : List Record} {k : ℕ} (hk : k < ds.length) :
    (l.numbered ds)[k]?.map Prod.fst = some (l.lastIndex + 1 + k) := by
  simp [Log.numbered, hk]

/-- Let a map have the entries `ds` under the indexes after the last. If it is iterated in index
order, `WriteBatch` leaves the log that writes in this order leave. It does so in every order if and
only if the map has at most one entry; and it reports every write that fails if and only if the map
is empty. -/
theorem writeMap_faithful_iff (hlru : lru.Lawful) (h : Reached lru W l) (ds : List Record) :
    BatchAgrees lru W (l.numbered ds) (l.numbered ds)
      ∧ ((∀ ws, ws.Perm (l.numbered ds) → BatchAgrees lru W ws (l.numbered ds))
        ↔ ds.length ≤ 1)
      ∧ ((∀ ws, ws.Perm (l.numbered ds) → ∀ p, WriteFails lru ws { W with plan := p } →
          ∃ e, (writeMapOf lru ws { W with plan := p }).1 = .err e) ↔ ds = []) := by
  obtain ⟨hrep, -, hp, -⟩ := h.inv hlru
  have hw := hrep.writable
  have hlen : (l.numbered ds).length = ds.length := by simp [Log.numbered]
  have hinorder : BatchAgrees lru W (l.numbered ds) (l.numbered ds) := by
    obtain ⟨rs, V, hmap, hall, -⟩ := writeMap_eq_writeAll lru (l.numbered ds) hw hp
    exact ⟨V, rs, V, hmap, hall, .refl V⟩
  refine ⟨hinorder, ⟨fun hall => ?_, fun hone ws hws => ?_⟩, ⟨fun hrep => ?_, ?_⟩⟩
  · -- in the opposite order, the last write makes the first index the last one
    by_contra hmany
    obtain ⟨V, rs, V', hmap, hseq, hsame⟩ := hall _ (List.reverse_perm _)
    obtain ⟨rs₁, V₁, hmap', -, ⟨p₁, n₁, ds₁, h₁⟩, hlast₁⟩ :=
      writeMap_eq_writeAll lru (l.numbered ds).reverse hw hp
    obtain ⟨rs₂, V₂, -, hseq', ⟨p₂, n₂, ds₂, h₂⟩, hlast₂⟩ :=
      writeMap_eq_writeAll lru (l.numbered ds) hw hp
    obtain rfl : V = V₁ := congrArg Prod.snd (hmap.symm.trans hmap')
    obtain ⟨-, rfl⟩ := Prod.mk.inj (Option.some.inj (hseq.symm.trans hseq'))
    have hmem : V.mem.lastIndex = V'.mem.lastIndex := by
      have := hsame.memory.lastIndex
      rw [lastIndex, guarded_eq h₁.corrupt h₁.closed, guarded_eq h₂.corrupt h₂.closed] at this
      exact Outcome.ok.inj this
    rw [hlast₁, hlast₂, List.getLast?_reverse, List.head?_eq_getElem?, List.getLast?_eq_getElem?,
      l.numbered_getElem? (by omega), l.numbered_getElem? (by omega)] at hmem
    simp only [Option.getD_some] at hmem
    omega
  · have : ws = l.numbered ds := by
      rcases hds : l.numbered ds with _ | ⟨e, _ | ⟨e', es⟩⟩
      · rw [hds] at hws
        exact hws.eq_nil
      · rw [hds] at hws
        exact hws.eq_singleton
      · rw [hds, List.length_cons, List.length_cons] at hlen
        omega
    rw [this]
    exact hinorder
  · by_contra hne
    obtain ⟨d, ds', rfl⟩ := List.exists_cons_of_ne_nil hne
    obtain ⟨p, n, recs, hW⟩ := hw
    have hcons : l.numbered (d :: ds') = (l.lastIndex + 1, d) :: ds'.mapIdx fun k d =>
        (l.lastIndex + 1 + (k + 1), d) := List.mapIdx_cons
    obtain ⟨e, he⟩ := hrep _ (List.Perm.refl _) (faultAt 0 (.fail 0))
      (hcons ▸ hW.writeFails (l.lastIndex + 1) d _)
    exact writeMapOf_ne (W := { W with plan := faultAt 0 (.fail 0) }) hW.corrupt hW.closed _ e he
  · rintro rfl ws hws p hfail
    rw [show l.numbered [] = [] from rfl] at hws
    rw [hws.eq_nil] at hfail
    exact hfail.elim

/-- A batch of one entry. -/
theorem writeMap_faithful_iff_one : ∃ W, runFresh lruSet ⟨1, 1⟩ [.append ⟨[7], by decide⟩]
      = some ([.done], W)
    ∧ ∀ ws, ws.Perm [(2, ⟨[8], by decide⟩)] →
      BatchAgrees lruSet W ws [(2, ⟨[8], by decide⟩)] := by
  obtain ⟨W, hrun, -⟩ := runFresh_spec lruSet_lawful ⟨1, 1⟩ [.append ⟨[7], by decide⟩]
  exact ⟨W, hrun, (writeMap_faithful_iff lruSet_lawful (runFresh_reached hrun)
    [⟨[8], by decide⟩]).2.1.mpr le_rfl⟩

/-- The entries 2 and 3, iterated the other way round. -/
def swappedBatch : List (ℕ × Record) := [(3, .byte 9), (2, .byte 8)]

/-- After the batch the last index is 2, and it reads the entry of 3. A batch whose write fails
reports success. -/
theorem not_batchAgrees_swapped : ∃ W, runFresh lruSet ⟨100, 1⟩ [.append ⟨[7], by decide⟩]
      = some ([.done], W)
    ∧ (writeMapOf lruSet swappedBatch W).1 = .ok ()
    ∧ (lastIndex (writeMapOf lruSet swappedBatch W).2).1 = .ok 2
    ∧ (read lruSet 2 (writeMapOf lruSet swappedBatch W).2).1 = .ok [9]
    ∧ ¬ BatchAgrees lruSet W swappedBatch swappedBatch.reverse
    ∧ WriteFails lruSet swappedBatch { W with plan := faultAt 0 (.fail 0) }
    ∧ (writeMapOf lruSet swappedBatch { W with plan := faultAt 0 (.fail 0) }).1 = .ok () := by
  obtain ⟨W, hrun, hW, -⟩ := runFresh_spec lruSet_lawful ⟨100, 1⟩ [.append ⟨[7], by decide⟩]
  have hbatch : (runFresh lruSet ⟨100, 1⟩ [.append ⟨[7], by decide⟩]).map (fun s =>
      let r := writeMapOf lruSet swappedBatch s.2
      (r.1, (lastIndex r.2).1, (read lruSet 2 r.2).1))
      = some (.ok (), .ok 2, .ok [9]) := by decide +kernel
  have hseq : (runFresh lruSet ⟨100, 1⟩ [.append ⟨[7], by decide⟩]).map (fun s =>
      (writeAll lruSet swappedBatch.reverse s.2).map fun r => (lastIndex r.2).1)
      = some (some (.ok 3)) := by decide +kernel
  have hfail : (runFresh lruSet ⟨100, 1⟩ [.append ⟨[7], by decide⟩]).map (fun s =>
      (writeMapOf lruSet swappedBatch { s.2 with plan := faultAt 0 (.fail 0) }).1)
      = some (.ok ()) := by decide +kernel
  rw [hrun, Option.map_some, Option.some.injEq] at hbatch hseq hfail
  simp only [Prod.mk.injEq] at hbatch
  obtain ⟨hok, hlast, hread⟩ := hbatch
  refine ⟨W, hrun, hok, hlast, hread, ?_, ?_, hfail⟩
  · rintro ⟨V, rs, V', hmap, hall, hsame⟩
    rw [hmap] at hlast
    rw [hall, Option.map_some, Option.some.injEq] at hseq
    have := hsame.memory.lastIndex
    rw [hlast, hseq] at this
    cases this
  · obtain ⟨p, n, ds, hw⟩ := hW.writable
    exact hw.writeFails 3 _ _

end Batch

end Rhosus.Wal

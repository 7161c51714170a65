import Rhosus.Cluster.Campaign
import Rhosus.Wal.Failures

/-!
# Entries that are not written

`writeEntry` moves the last index and term on before it writes the entry to the log, and puts the
index back, but not the term, where that fails. The log in turn has the entry in its buffer once it
comes to its file. After the log nothing is taken back: neither where the entry cannot be handed
over in time, nor where the buffer of a peer refuses it. So an error leaves no trace exactly if it
comes early enough, in the term of the last entry (`noTrace_iff`).
-/

namespace Rhosus.Cluster

variable {ι σ : Type} {env : Env σ} {n n' : Node ι σ}

/-- What a write that failed has to leave as it was. -/
structure NoTrace (n n' : Node ι σ) : Prop where
  lastLogIndex : n'.lastLogIndex = n.lastLogIndex
  lastLogTerm : n'.lastLogTerm = n.lastLogTerm
  wal : Wal.SameContents n.wal n'.wal
  buffer : ∀ j, (n'.peers j).buffer = (n.peers j).buffer

theorem NoTrace.refl (n : Node ι σ) : NoTrace n n := ⟨rfl, rfl, .refl _, fun _ => rfl⟩

theorem guarded_refused {α : Type} {m : Wal.WalM α} {w : World Wal.Name Wal.WAL}
    (h : w.mem.corrupt = true ∨ w.mem.closed = true) :
    ∃ e, Wal.guarded m w = (.err e, w) := by
  change ∃ e, (if w.mem.corrupt then Prog.throw .corrupt
    else if w.mem.closed then Prog.throw .closed else m : Wal.WalM α) w = (.err e, w)
  split_ifs with h1 h2
  · exact ⟨.corrupt, rfl⟩
  · exact ⟨.closed, rfl⟩
  · exact absurd h (by simp [h1, h2])

/-- The index wraps around, but never to the one before it. -/
theorem Node.nextEntry_index_ne (n : Node ι σ) (typ : EntryType) (data : Bytes) (now : Int64) :
    (n.nextEntry typ data now).index ≠ n.lastLogIndex := by
  change (n.lastLogIndex + 1) % 2 ^ 64 ≠ n.lastLogIndex
  omega

section WriteEntry

variable [DecidableEq ι] {typ : EntryType} {data : Bytes} {now : Int64} {timely : Bool}
variable {order : List ι} {e : Err}

/-- An error of the log keeps the last index, and sets the last term. -/
theorem noTrace_of_wal_error {w : World Wal.Name Wal.WAL} {err : Wal.Err}
    (hw : Wal.write env.lru (n.nextEntry typ data now).index
      (n.nextEntry typ data now).marshal n.wal = (.err err, w)) (hs : n.shutdown = false)
    (h : writeEntry env typ data now timely order n = some (.error e, n')) :
    NoTrace n n' ↔ n.lastLogTerm = n.currentTerm ∧ Wal.SameContents n.wal w := by
  have hon := Node.onWal_err (n := n.endWith (n.nextEntry typ data now)) hw
  simp only [writeEntry, hs, Bool.false_eq_true, ↓reduceIte, hon, Option.some.injEq,
    Prod.mk.injEq] at h
  obtain ⟨-, rfl⟩ := h
  exact ⟨fun ht => ⟨ht.lastLogTerm.symm, ht.wal⟩,
    fun ht => ⟨rfl, ht.1.symm, ht.2, fun _ => rfl⟩⟩

/-- Once the log has the entry, the last index stays moved on. -/
theorem not_noTrace_of_wal_ok {w : World Wal.Name Wal.WAL}
    (hw : Wal.write env.lru (n.nextEntry typ data now).index
      (n.nextEntry typ data now).marshal n.wal = (.ok (), w)) (hs : n.shutdown = false)
    (h : writeEntry env typ data now timely order n = some (.error e, n')) : ¬ NoTrace n n' := by
  have hon := Node.onWal_ok (n := n.endWith (n.nextEntry typ data now)) hw
  simp only [writeEntry, hs, Bool.false_eq_true, ↓reduceIte, hon, Option.some.injEq] at h
  obtain ⟨peers, pipeline, hn⟩ := handOver_eq (n.nextEntry typ data now) timely order
    { n.endWith (n.nextEntry typ data now) with wal := w }
  rw [h] at hn
  dsimp only at hn
  subst hn
  exact fun ht => n.nextEntry_index_ne typ data now ht.lastLogIndex

/-- Let one operation on the log's files fail, or none that is made. An error of `writeEntry` leaves
no trace exactly if the registry is shut down or, the last entry being of the current term, the log
is refused or fails before its append. -/
theorem noTrace_iff (hlru : env.lru.Lawful) {k m : ℕ} (hplan : n.wal.plan = faultAt k (.fail m))
    (hwal : n.wal.mem.corrupt = true ∨ n.wal.mem.closed = true
      ∨ ∃ l, Wal.Rep { n.wal with plan := [] } l ∧ n.lastLogIndex = l.lastIndex)
    (h : writeEntry env typ data now timely order n = some (.error e, n')) :
    NoTrace n n' ↔ n.shutdown = true ∨ n.lastLogTerm = n.currentTerm
      ∧ (n.wal.mem.corrupt = true ∨ n.wal.mem.closed = true ∨ k < n.wal.mem.appendAt) := by
  rcases hs : n.shutdown with _ | _
  · simp only [Bool.false_eq_true, false_or]
    rw [← or_assoc] at hwal
    by_cases hrefused : n.wal.mem.corrupt = true ∨ n.wal.mem.closed = true
    · obtain ⟨err, hw⟩ := guarded_refused (m := Wal.writeBatch env.lru (Wal.Batch.write ⟨[], []⟩
        (n.nextEntry typ data now).index (n.nextEntry typ data now).marshal)) hrefused
      rw [noTrace_of_wal_error hw hs h, ← or_assoc]
      exact and_congr_right fun _ => iff_of_true (.refl _) (.inl hrefused)
    · obtain ⟨l, hrep, hlast⟩ := hwal.resolve_left hrefused
      have hindex : (n.nextEntry typ data now).index ≠ l.lastIndex :=
        hlast ▸ n.nextEntry_index_ne typ data now
      have hn : { n.wal with plan := faultAt k (.fail m) } = n.wal := by rw [← hplan]
      rw [not_or] at hrefused
      rw [or_iff_right hrefused.1, or_iff_right hrefused.2]
      by_cases hk : k < n.wal.mem.appendAt
      · obtain ⟨err, w, hw, hsame⟩ := Wal.write_fails_before_append hlru hrep
          (n.nextEntry typ data now).index (n.nextEntry typ data now).marshal hk m
        rw [Wal.sameContents_plan] at hsame
        rw [noTrace_of_wal_error (hn ▸ hw) hs h]
        exact and_congr_right fun _ => iff_of_true hsame hk
      · refine iff_of_false ?_ fun hh => hk hh.2
        rcases hw : Wal.write env.lru (n.nextEntry typ data now).index
          (n.nextEntry typ data now).marshal n.wal with ⟨_ | err | _ | _, w⟩
        · exact not_noTrace_of_wal_ok hw hs h
        · rw [noTrace_of_wal_error hw hs h]
          refine fun hh => Wal.write_fails_from_append env.lru hrep hindex
            (n.nextEntry typ data now).marshal (n := m) (e := err) ?_ (not_lt.mp hk)
            (Wal.sameContents_plan.mpr ?_)
          · rw [hn, hw]
          · rw [hn, hw]
            exact hh.2
        all_goals simp [writeEntry, hs, Node.onWal, Node.endWith, hw] at h
  · simp only [writeEntry, hs, ↓reduceIte, Option.some.injEq, Prod.mk.injEq] at h
    obtain ⟨-, rfl⟩ := h
    exact iff_of_true (.refl n) (.inl rfl)

end WriteEntry

section Witness

/-- A log whose tail is left over the segment size by a truncation. -/
def overfull : List Wal.Op :=
  [.append ⟨[7], by decide⟩, .append ⟨[1, 2, 3, 4, 5], by decide⟩, .append ⟨[9], by decide⟩,
    .truncateBack 2]

/-- A registry with such a log, whose next sync fails. -/
def unsynced (w : World Wal.Name Wal.WAL) : Node (Fin 2) Unit :=
  { Node.new 0 { w with plan := faultAt 0 (.fail 0) } () with lastLogIndex := 2 }

theorem noTrace_iff_unsynced : ∃ w, Wal.runFresh lruSet ⟨5, 1⟩ overfull
      = some ([.done, .done, .done, .done], w)
    ∧ ∃ n', writeEntry plain .assignFile [] 0 true [0, 1] (unsynced w)
        = some (.error (.wal .io), n')
      ∧ NoTrace (unsynced w) n' := by
  obtain ⟨w, hrun, hrep, -, hp, -⟩ := Wal.runFresh_spec lruSet_lawful ⟨5, 1⟩ overfull
  have hfail : (Wal.runFresh lruSet ⟨5, 1⟩ overfull).map (fun s =>
      ((writeEntry plain .assignFile [] 0 true [0, 1] (unsynced s.2)).map fun r =>
        match r.1 with
        | .error e => some e
        | .ok _ => none, s.2.mem.appendAt)) = some (some (some (.wal .io)), 3) := by
    decide +kernel
  rw [hrun, Option.map_some, Option.some.injEq, Prod.mk.injEq] at hfail
  obtain ⟨⟨r, n'⟩, hwrite, hr⟩ := Option.map_eq_some_iff.mp hfail.1
  rcases r with e | _
  · obtain rfl : e = .wal .io := Option.some.inj hr
    have hopen : Wal.Rep { (unsynced w).wal with plan := [] } (Wal.Log.empty.run overfull).2 := by
      rw [← hp]
      exact hrep
    refine ⟨w, hrun, n', hwrite, (noTrace_iff lruSet_lawful rfl (.inr (.inr ⟨_, hopen, ?_⟩))
      hwrite).mpr (.inr ⟨rfl, .inr (.inr ?_)⟩)⟩
    · change 2 = _
      decide +kernel
    · change 0 < w.mem.appendAt
      rw [hfail.2]
      decide
  · cases hr

/-- A new registry whose first entry cannot be handed over in time, one whose log fails at its
append, and one whose second peer refuses the entry. -/
def traced : List (Node (Fin 2) Unit × Bool) :=
  [(Node.new 0 freshWal (), false),
    ({ Node.new 0 { freshWal with plan := faultAt 0 (.fail 0) } () with currentTerm := 1 }, true),
    ({ Node.new 0 freshWal () with
      peers := fun j => ⟨if j = 1 then [⟨5, 0, 0, [], 0⟩] else [], false, 0⟩ }, true)]

theorem not_noTrace_traced : traced.Forall fun l => ∃ e n',
    writeEntry plain .assignFile [] 0 l.2 [0, 1] l.1 = some (.error e, n')
      ∧ ¬ NoTrace l.1 n' := by
  refine List.forall_iff_forall_mem.mpr fun l hl => ?_
  have hfail : ∀ l ∈ traced, (writeEntry plain .assignFile [] 0 l.2 [0, 1] l.1).map (fun r =>
      (r.1.isOk, decide (r.2.lastLogIndex = l.1.lastLogIndex ∧ r.2.lastLogTerm = l.1.lastLogTerm)))
      = some (false, false) := by
    decide +kernel
  obtain ⟨⟨r, n'⟩, hwrite, hr⟩ := Option.map_eq_some_iff.mp (hfail l hl)
  rw [Prod.mk.injEq, decide_eq_false_iff_not] at hr
  rcases r with e | _
  · exact ⟨e, n', hwrite, fun h => hr.2 ⟨h.lastLogIndex, h.lastLogTerm⟩⟩
  · cases hr.1

end Witness

end Rhosus.Cluster

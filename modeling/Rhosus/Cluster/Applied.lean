import Rhosus.Cluster.Replication
import Rhosus.Wal.Batches

/-!
# What a follower applies and what it logs

`WriteEntriesFromLeader` hands the whole batch to the entries handler before it writes the first
entry to the log. Where a write fails, the entries from there on are applied and not logged. The
log takes an entry at any index, but has it at that index only if it is the next one. So what is
applied is what is logged exactly if the batch is rejected, or no write fails and the batch goes on
where the log ends (`appliedAsLogged_iff`).
-/

namespace Rhosus.Cluster

variable {ι : Type} {lru : SetEvicted ℕ Wal.Ptr}

section Statement

/-- The log is `l`, whatever is to befall its files. -/
def Holds (W : World Wal.Name Wal.WAL) (l : Wal.Log) : Prop :=
  Wal.Rep { W with plan := [] } l ∧ l.Wf

/-- The log `l'` is `l` with the entries `es` and no others, each new and at its index. -/
structure Gained (l l' : Wal.Log) (es : List Entry) : Prop where
  first : l'.first = l.first
  kept : ∀ i, l.Has i → l'.get? i = l.get? i
  new : ∀ e ∈ es, ¬ l.Has e.index ∧ l'.get? e.index = some e.marshal
  only : ∀ i, ¬ l.Has i → (∀ e ∈ es, e.index ≠ i) → ¬ l'.Has i

/-- The first `k` entries of the batch, and no others, are applied and logged, and the last of them
is the last entry. -/
structure UpTo (batch : List Entry) (k : ℕ) (n n' : Node ι (List Entry)) : Prop where
  applied : n'.storage = n.storage ++ batch.take k
  logged : ∀ l, Holds n.wal l → ∃ l', Holds n'.wal l' ∧ Gained l l' (batch.take k)
  lastLogIndex : n'.lastLogIndex = ((batch.take k).getLast?.map Entry.index).getD n.lastLogIndex
  lastLogTerm : n'.lastLogTerm = ((batch.take k).getLast?.map Entry.term).getD n.lastLogTerm

def Increasing (batch : List Entry) : Prop := batch.Pairwise fun e e' => e.index < e'.index

instance (batch : List Entry) : Decidable (Increasing batch) :=
  inferInstanceAs (Decidable (List.Pairwise _ _))

/-- A batch that is not increasing changes nothing; of another one all entries are applied and
logged, or, where an error is returned, those before one of them. -/
def AppliedAsLogged (batch : List Entry) (n : Node ι (List Entry)) (r : Except Err Unit)
    (n' : Node ι (List Entry)) : Prop :=
  if Increasing batch then
    match r with
    | .ok _ => UpTo batch batch.length n n'
    | .error _ => ∃ k < batch.length, UpTo batch k n n'
  else (∃ e, r = .error e) ∧ n' = n

/-- The log after the writes of the entries in turn; nothing where one of them fails. -/
def writesPass (lru : SetEvicted ℕ Wal.Ptr) :
    List Entry → World Wal.Name Wal.WAL → Option (World Wal.Name Wal.WAL)
  | [], W => some W
  | e :: es, W =>
    match Wal.write lru e.index e.marshal W with
    | (.ok _, W) => writesPass lru es W
    | _ => none

/-- The entries have the indexes after the last one of the log. -/
def GoesOn (l : Wal.Log) (es : List Entry) : Prop :=
  es.map Entry.index = List.range' (l.lastIndex + 1) es.length

end Statement

section Batch

theorem validateEntriesSequence_iff {es : List Entry} :
    validateEntriesSequence es = true ↔ Increasing es := by
  induction es with
  | nil => simp [validateEntriesSequence, Increasing]
  | cons e es ih =>
    rcases es with _ | ⟨e', es⟩
    · simp [validateEntriesSequence, Increasing]
    rw [validateEntriesSequence, Bool.and_eq_true, decide_eq_true_iff, ih]
    unfold Increasing
    rw [List.pairwise_cons (a := e)]
    constructor
    · rintro ⟨hlt, h⟩
      refine ⟨fun e₁ he₁ => ?_, h⟩
      rcases List.mem_cons.mp he₁ with rfl | he₁
      · exact hlt
      · exact hlt.trans ((List.pairwise_cons.mp h).1 e₁ he₁)
    · rintro ⟨hlt, h⟩
      exact ⟨hlt e' List.mem_cons_self, h⟩

theorem writeEntries_passes {env : Env (List Entry)} : ∀ {es : List Entry}
    {n n' : Node ι (List Entry)} {r : Except Err Unit}, writeEntries env es n = some (r, n') →
      match r with
      | .ok _ => ∃ W, writesPass env.lru es n.wal = some W ∧ n' = { n with
          wal := W
          lastLogIndex := (es.getLast?.map Entry.index).getD n.lastLogIndex
          lastLogTerm := (es.getLast?.map Entry.term).getD n.lastLogTerm }
      | .error _ => writesPass env.lru es n.wal = none
  | [], n, n', r, h => by
    obtain ⟨rfl, rfl⟩ := Prod.mk.inj (Option.some.inj h)
    exact ⟨n.wal, rfl, rfl⟩
  | e :: es, n, n', r, h => by
    rw [writeEntries, Node.onWal] at h
    rw [writesPass]
    rcases hw : Wal.write env.lru e.index e.marshal n.wal with ⟨o, W⟩
    rw [hw] at h
    cases o with
    | ok =>
      have hrest := writeEntries_passes h
      cases r with
      | error => exact hrest
      | ok =>
        obtain ⟨W', hW', rfl⟩ := hrest
        refine ⟨W', hW', ?_⟩
        rw [List.getLast?_cons]
        cases es.getLast? <;> rfl
    | err =>
      obtain ⟨rfl, -⟩ := Prod.mk.inj (Option.some.inj h)
      rfl
    | panic => cases h
    | crash => cases h

end Batch

section Log

variable {l l' : Wal.Log} {es : List Entry}

theorem lastIndex_succ (h : l.Wf) : l.lastIndex + 1 = l.first + l.entries.length := by
  have := h.pos
  unfold Wal.Log.lastIndex
  omega

theorem Gained.goesOn (h : Gained l l' es) (hl : l.Wf) (hes : Increasing es) : GoesOn l es := by
  have hmem : ∀ i, i ∈ es.map Entry.index
      ↔ l.first + l.entries.length ≤ i ∧ i < l.first + l'.entries.length := by
    intro i
    constructor
    · intro hi
      obtain ⟨e, he, rfl⟩ := List.mem_map.mp hi
      obtain ⟨hnot, hget⟩ := h.new e he
      have hhas := Wal.Log.get?_isSome.mp (Option.isSome_iff_exists.mpr ⟨_, hget⟩)
      rw [Wal.Log.has_iff, h.first] at hhas
      rw [Wal.Log.has_iff] at hnot
      omega
    · intro hi
      by_contra hno
      refine h.only i ?_ (fun e he hei => hno (hei ▸ List.mem_map_of_mem he)) ?_
      · rw [Wal.Log.has_iff]
        omega
      · rw [Wal.Log.has_iff, h.first]
        omega
  have hsorted : (es.map Entry.index).Pairwise (· < ·) := List.pairwise_map.mpr hes
  have heq : es.map Entry.index = List.range' (l.first + l.entries.length)
      (l'.entries.length - l.entries.length) := by
    refine hsorted.eq_of_mem_iff List.pairwise_lt_range' fun i => ?_
    rw [hmem, List.mem_range'_1]
    omega
  have hlen := congrArg List.length heq
  rw [List.length_map, List.length_range'] at hlen
  rw [GoesOn, heq, lastIndex_succ hl, hlen]

def followed (l : Wal.Log) (es : List Entry) : Wal.Log :=
  ⟨l.first, l.entries ++ es.map Entry.marshal⟩

theorem get?_followed (l : Wal.Log) (es : List Entry) (i : ℕ) : (followed l es).get? i
    = if i < l.first then none else (l.entries ++ es.map Entry.marshal)[i - l.first]? := rfl

theorem followed_cons (l : Wal.Log) (e : Entry) (es : List Entry) :
    followed l (e :: es) = followed (l.write e.marshal) es := by
  simp [followed, Wal.Log.write]

theorem GoesOn.index (h : GoesOn l es) {j : ℕ} {e : Entry} (he : es[j]? = some e) :
    e.index = l.lastIndex + 1 + j := by
  have hj : (es.map Entry.index)[j]? = some e.index := by
    rw [List.getElem?_map, he, Option.map_some]
  rw [h, List.getElem?_range' (List.getElem?_eq_some_iff.mp he).1] at hj
  have := Option.some.inj hj
  omega

theorem GoesOn.gained (h : GoesOn l es) (hl : l.Wf) : Gained l (followed l es) es where
  first := rfl
  kept i hi := by
    rw [Wal.Log.has_iff] at hi
    rw [get?_followed, Wal.Log.get?, if_neg (by omega), if_neg (by omega),
      List.getElem?_append_left (by omega)]
  new e he := by
    obtain ⟨j, hj⟩ := List.mem_iff_getElem?.mp he
    have hindex := h.index hj
    rw [lastIndex_succ hl] at hindex
    refine ⟨?_, ?_⟩
    · rw [Wal.Log.has_iff]
      omega
    · rw [get?_followed, if_neg (by omega), List.getElem?_append_right (by omega)]
      have hsub : e.index - l.first - l.entries.length = j := by omega
      rw [hsub, List.getElem?_map, hj, Option.map_some]
  only i hi hnone hhas := by
    rw [Wal.Log.has_iff] at hi hhas
    simp only [followed, List.length_append, List.length_map] at hhas
    have hj : i - l.first - l.entries.length < es.length := by omega
    refine hnone _ (List.getElem_mem hj) ?_
    rw [h.index (List.getElem?_eq_getElem hj), lastIndex_succ hl]
    omega

/-- Writes that go on where the log ends leave the log followed by the entries. -/
theorem Holds.writesPass (hlru : lru.Lawful) : ∀ {es : List Entry} {l : Wal.Log}
    {W W' : World Wal.Name Wal.WAL}, Holds W l → (∀ e ∈ es, Wal.Fits e.marshal) → GoesOn l es →
      writesPass lru es W = some W' → Holds W' (followed l es)
  | [], l, W, W', h, _, _, hrun => by
    obtain rfl := Option.some.inj hrun
    simpa [followed] using h
  | e :: es, l, W, W', h, hfits, hgo, hrun => by
    obtain ⟨hrep, hl⟩ := h
    have hindex : e.index = l.lastIndex + 1 := hgo.index (j := 0) rfl
    rw [Cluster.writesPass] at hrun
    rcases hw : Wal.write lru e.index e.marshal W with ⟨o, W₁⟩
    rw [hw] at hrun
    cases o with
    | ok =>
      obtain ⟨p, n, ds, h⟩ := hrep.writable
      have hopen : Wal.Writable W p n ds := ⟨h.corrupt, h.closed, h.last, h.load, h.sfile, h.file⟩
      obtain ⟨r, W₂, hrun₂, -, rfl, hrep₂⟩ :=
        (hrep.write hlru hl (hfits e List.mem_cons_self)).returns rfl
      rw [← hindex, hopen.write_ok lru hw] at hrun₂
      rw [← (Prod.mk.inj hrun₂).2] at hrep₂
      have hgo' : GoesOn (l.write e.marshal) es := by
        have hlen : (l.write e.marshal).lastIndex = l.lastIndex + 1 := by
          have := lastIndex_succ hl
          have := lastIndex_succ (hl.write e.marshal)
          simp only [Wal.Log.write, List.length_append, List.length_singleton] at this
          simp only [Wal.Log.write]
          omega
        have htail := congrArg List.tail hgo
        rw [GoesOn, hlen]
        simpa [List.range'_succ] using htail
      rw [followed_cons]
      exact Holds.writesPass hlru ⟨hrep₂, hl.write e.marshal⟩
        (fun e' he' => hfits e' (List.mem_cons_of_mem _ he')) hgo' hrun
    | err => cases hrun
    | panic => cases hrun
    | crash => cases hrun

end Log

section Main

variable {batch : List Entry} {n n' : Node ι (List Entry)} {r : Except Err Unit}

theorem writeEntriesFromLeader_rejected (env : Env (List Entry)) (hinc : ¬ Increasing batch)
    (n : Node ι (List Entry)) : writeEntriesFromLeader env batch n = some (.error .corrupt, n) := by
  rw [writeEntriesFromLeader, if_neg fun h => hinc (validateEntriesSequence_iff.mp h)]

theorem writeEntriesFromLeader_taken (env : Env (List Entry)) (hinc : Increasing batch)
    (n : Node ι (List Entry)) : writeEntriesFromLeader env batch n
      = writeEntries env batch { n with storage := env.entriesHandler batch n.storage } := by
  rw [writeEntriesFromLeader, if_pos (validateEntriesSequence_iff.mpr hinc)]

end Main

section Witness

def entryAt (index : ℕ) : Entry := ⟨index, 1, 0, [], 0⟩

theorem freshWal_lastIndex {l : Wal.Log} (h : Holds freshWal l) : l.lastIndex = 0 :=
  h.1.lastIndex_eq.symm.trans (by decide +kernel)

theorem fits_entryAt {batch : List Entry} (h : ∀ e ∈ batch, e ∈ [entryAt 1, entryAt 2, entryAt 5]) :
    ∀ e ∈ batch, Wal.Fits e.marshal := by
  have hall : ∀ e ∈ [entryAt 1, entryAt 2, entryAt 5], Wal.Fits e.marshal := by decide +kernel
  exact fun e he => hall e (h e he)

end Witness

end Rhosus.Cluster

import Rhosus.Data.Manager

/-!
# Blocks in the custody of a data node

A block that is put into a queue is in the queue, in a batch or in the partition from then on, as
long as every batch fits the free slots and the block is not removed (`Sink.Keeps.step`). A queue
that is full holds more blocks than a partition has slots, so it could only be drained into a batch
that does not fit (`Sink.Jams.step`): where every batch fits and the queue is drained in the end, no
call of `WriteBlocks` has left a block out.
-/

namespace Rhosus.Data

section Sinks

variable {s s' : Sink} {l : Move} {m : Bytes → Option Bytes} {id d : Bytes}

theorem Partition.store_of_mem : ∀ {blocks : List (Bytes × Bytes)} {m : Bytes → Option Bytes},
    (∀ b ∈ blocks, b.1 = id → b.2 = d) → id ∈ blocks.map Prod.fst ∨ m id = some d →
      store blocks m id = some d
  | [], _, _, h => h.resolve_left (by simp)
  | b :: bs, m, hd, h => by
    refine store_of_mem (m := Function.update m b.1 (some b.2))
      (fun c hc => hd c (List.mem_cons_of_mem _ hc)) ?_
    by_cases hid : b.1 = id
    · rw [← hid, Function.update_self, hd b List.mem_cons_self hid]
      exact .inr rfl
    · rw [Function.update_of_ne (Ne.symm hid)]
      exact h.imp_left fun h => (List.mem_cons.mp h).resolve_left (Ne.symm hid)

theorem Partition.unstore_of_notMem : ∀ {ids : List Bytes} {m : Bytes → Option Bytes},
    id ∉ ids → unstore ids m id = m id
  | [], _, _ => rfl
  | i :: is, m, h => by
    rw [List.mem_cons, not_or] at h
    have := unstore_of_notMem (m := Function.update m i none) h.2
    rwa [Function.update_of_ne h.1] at this

def Sink.queued (s : Sink) : List Bytes := s.queue.map Block.id

def Stage.ids (stage : Stage) : List Bytes := stage.blocks.map Prod.fst

theorem Stage.ids_draining (blocks : AList fun _ : Bytes => Bytes) :
    (Stage.draining blocks).ids = blocks.keys := by
  simp [Stage.ids, Stage.blocks, AList.keys, List.keys]

/-- A batch that is chosen from where there is room for all of it is taken whole. -/
theorem Sink.firstBlocks_eq {p : Partition} {order : List (Bytes × Bytes)}
    (h : p.len + order.length ≤ partitionBlocksCount) :
    firstBlocks p.getAvailableBlocks order = order := by
  unfold firstBlocks Partition.getAvailableBlocks
  split_ifs
  · rfl
  · exact List.take_of_length_le (by omega)

/-- The batch fits the free slots, where the step looks whether it does. -/
def Move.Fits (l : Move) (s : Sink) : Prop :=
  match l, s.stage with
  | .check, .drained blocks => s.part.len + blocks.length ≤ partitionBlocksCount
  | _, _ => True

instance Move.decidableFits : ∀ (l : Move) (s : Sink), Decidable (l.Fits s)
  | .check, ⟨p, _, .drained blocks, _⟩ =>
    inferInstanceAs (Decidable (p.len + blocks.length ≤ partitionBlocksCount))
  | .check, ⟨_, _, .idle, _⟩ | .check, ⟨_, _, .draining _, _⟩ | .check, ⟨_, _, .over _, _⟩
  | .check, ⟨_, _, .write _, _⟩ | .check, ⟨_, _, .index _, _⟩ | .put _, _ | .tick, _ | .drain, _
  | .choose _, _ | .write .., _ | .index .., _ | .remove _, _ | .look _, _ | .clearFull _, _
  | .erase .., _ => isTrue trivial

/-- A batch for which `full` has left no room fits nevertheless. -/
def Sink.OverFits (s : Sink) : Prop :=
  ∀ blocks, s.stage = .over blocks → s.part.len + blocks.length ≤ partitionBlocksCount

theorem Sink.OverFits.step (h : s.OverFits) (hl : l.Fits s) (hstep : s.step l = some s') :
    s'.OverFits := by
  cases stepped hstep with
  | put => exact h
  | tick | take => exact fun blocks hb => by cases hb
  | empty hs hq =>
    intro blocks hb
    dsimp only at hb
    split_ifs at hb
  | @check blocks hst =>
    intro blocks' hb
    dsimp only at hb
    split_ifs at hb
    obtain rfl := Stage.over.inj hb
    simpa only [Move.Fits, hst] using hl
  | choose | write => exact fun blocks hb => by cases hb
  | remove ids hopen removals =>
    intro blocks hb
    exact (Nat.add_le_add_right (s.part.len_removeBlocks_le ids) _).trans (h blocks hb)
  | refusedWrite => exact fun blocks hb => by cases hb
  | refusedRemove => exact h
  | @touch _ _ part stage removals hfile hmap hclosed hstage =>
    intro blocks hb
    rcases hstage with rfl | ⟨-, rfl⟩
    · have hlen : part.len = s.part.len := by rw [Partition.len, hmap, Partition.len]
      dsimp only
      rw [hlen]
      exact h blocks hb
    · cases hb

/-- The sink has the block: in its queue, in hand with room for it, or in the partition. -/
def Sink.Keeps (s : Sink) (id d : Bytes) : Prop :=
  id ∈ s.queued ∨ id ∈ s.stage.ids ∧ s.OverFits ∨ s.part.Stores id d

/-- The blocks of the sink with this id have this data. -/
structure Sink.Agrees (s : Sink) (id d : Bytes) : Prop where
  queue : ∀ b ∈ s.queue, b.id = id → b.data = d
  batch : ∀ b ∈ s.stage.blocks, b.1 = id → b.2 = d

/-- The step does not remove the block. -/
def Move.Spares (l : Move) (id : Bytes) : Prop :=
  match l with
  | .remove ids => id ∉ ids
  | _ => True

def Move.Agrees (l : Move) (id d : Bytes) : Prop :=
  match l with
  | .put b => b.id = id → b.data = d
  | _ => True

theorem Sink.Agrees.step (h : s.Agrees id d) (hs : s.Holds m) (hl : l.Agrees id d)
    (hstep : s.step l = some s') : s'.Agrees id d := by
  cases stepped hstep with
  | put b hroom =>
    refine ⟨fun c hc => ?_, h.batch⟩
    rcases List.mem_append.mp hc with hc | hc
    · exact h.queue c hc
    · rw [List.mem_singleton.mp hc]
      exact hl
  | tick => exact ⟨h.queue, by simp [Stage.blocks]⟩
  | @take blocks b queue hst hq =>
    refine ⟨fun c hc => h.queue c (hq ▸ List.mem_cons_of_mem _ hc), fun c hc => ?_⟩
    rcases Stage.mem_blocks_insert hc with rfl | hc
    · exact h.queue b (hq ▸ List.mem_cons_self)
    · exact h.batch c (hst ▸ hc)
  | empty hst hq =>
    refine ⟨h.queue, fun c hc => ?_⟩
    dsimp only at hc
    split_ifs at hc
    · simp [Stage.blocks] at hc
    · exact h.batch c hc
  | @check blocks hst =>
    refine ⟨h.queue, fun c hc => h.batch c ?_⟩
    rw [hst]
    dsimp only at hc
    split_ifs at hc
    · exact hc
    · exact hc
  | @choose blocks order hst ho =>
    refine ⟨h.queue, fun c hc => h.batch c ?_⟩
    rw [hst]
    exact ho.subset ((length_firstBlocks hs.part.wf order).2 c hc)
  | write => exact ⟨h.queue, by simp [Stage.blocks]⟩
  | remove => exact ⟨h.queue, h.batch⟩
  | refusedWrite hclosed | refusedRemove hclosed => exact (hs.not_closed hclosed).elim
  | touch _ removals hfile hmap hclosed hstage =>
    refine ⟨h.queue, fun c hc => ?_⟩
    rcases hstage with rfl | ⟨-, rfl⟩
    · exact h.batch c hc
    · simp [Stage.blocks] at hc

theorem Partition.Holds.eq_some {p : Partition} (h : p.Holds m) (hst : p.Stores id d) :
    m id = some d := by
  obtain ⟨b, hb, hsize, hread⟩ := hst
  rcases hm : m id with _ | d'
  · rw [h.absent id hm] at hb
    cases hb
  · obtain ⟨b', hb', hsize', hread'⟩ := h.stored id d' hm
    obtain rfl := Option.some.inj (hb.symm.trans hb')
    rw [← hsize] at hread
    rw [← hsize', hread] at hread'
    exact hread'.symm

theorem Sink.stores_step (h : s.part.Stores id d) (hs : s.Holds m) (hplain : l.Plain)
    (hspare : l.Spares id) (hagree : s.Agrees id d) (hstep : s.step l = some s') :
    s'.part.Stores id d := by
  refine (hs.step hplain hstep).part.stored id d ?_
  have hm := hs.part.eq_some h
  cases l with
  | write order io =>
    cases stepped hstep with
    | write hst ho =>
      refine Partition.store_of_mem (fun b hb => hagree.batch b ?_) (.inr hm)
      rw [hst]
      exact ho.subset hb
    | refusedWrite hclosed => exact (hs.not_closed hclosed).elim
    | touch hl => cases hl
  | remove ids => exact (Partition.unstore_of_notMem hspare).trans hm
  | _ => exact hm

/-- A block in the queue or in hand stays so until its batch is written. -/
theorem Sink.held_step (h : id ∈ s.queued ∨ id ∈ s.stage.ids ∧ s.OverFits) (hfits : l.Fits s)
    (hstep : s.step l = some s') : (id ∈ s'.queued ∨ id ∈ s'.stage.ids ∧ s'.OverFits)
      ∨ ∃ order io, l = .write order io ∧ id ∈ order.map Prod.fst := by
  rcases h with hq | ⟨hb, hover⟩
  · -- from the queue to the batch, one by one
    left
    cases stepped hstep with
    | put b hroom =>
      left
      rw [queued, List.map_append]
      exact List.mem_append_left _ hq
    | @take blocks b queue hst hqueue =>
      rw [queued, hqueue, List.map_cons, List.mem_cons] at hq
      refine hq.symm.imp_right fun hid => ⟨?_, fun blocks hb => by cases hb⟩
      rw [Stage.ids_draining, ← AList.mem_keys, AList.mem_insert]
      exact .inl hid
    | tick | empty | check | choose | write | remove | refusedWrite | refusedRemove | touch =>
      exact .inl hq
  · have hover' := hover.step hfits hstep
    have hin : id ∈ s'.stage.ids → (id ∈ s'.queued ∨ id ∈ s'.stage.ids ∧ s'.OverFits)
        ∨ ∃ order io, l = .write order io ∧ id ∈ order.map Prod.fst :=
      fun hid => .inl (.inr ⟨hid, hover'⟩)
    cases stepped hstep with
    | put | remove | refusedRemove => exact hin hb
    | tick hst =>
      rw [hst] at hb
      simp [Stage.ids, Stage.blocks] at hb
    | @take blocks b queue hst hqueue =>
      refine hin ?_
      rw [hst, Stage.ids_draining, ← AList.mem_keys] at hb
      rw [Stage.ids_draining, ← AList.mem_keys, AList.mem_insert]
      exact .inr hb
    | @empty blocks hst hqueue =>
      refine hin ?_
      dsimp only
      split_ifs with he
      · rw [hst, Stage.ids, Stage.blocks, he] at hb
        simp at hb
      · exact hb
    | @check blocks hst =>
      refine hin ?_
      rw [hst] at hb
      dsimp only
      split_ifs
      · exact hb
      · exact hb
    | @choose blocks order hst ho =>
      refine hin ?_
      have hroom := hover blocks hst
      rw [← ho.length_eq] at hroom
      rw [firstBlocks_eq hroom]
      rw [hst] at hb
      exact (ho.map Prod.fst).symm.subset hb
    | @write blocks order io hst ho =>
      rw [hst] at hb
      exact .inr ⟨order, io, rfl, (ho.map Prod.fst).symm.subset hb⟩
    | @refusedWrite blocks order io hclosed hst ho =>
      rw [hst] at hb
      exact .inr ⟨order, io, rfl, (ho.map Prod.fst).symm.subset hb⟩
    | touch hl removals hfile hmap hclosed hstage =>
      rcases hstage with rfl | ⟨hnil, -⟩
      · exact hin hb
      · rw [Stage.ids, hnil] at hb
        simp at hb

/-- A block that the sink has is kept: a batch that fits is written whole. -/
theorem Sink.Keeps.step (h : s.Keeps id d) (hs : s.Holds m) (hplain : l.Plain)
    (hspare : l.Spares id) (hagree : s.Agrees id d) (hfits : l.Fits s)
    (hstep : s.step l = some s') : s'.Keeps id d := by
  rcases or_assoc.mpr h with hheld | hst
  · rcases held_step hheld hfits hstep with hheld | ⟨order, io, rfl, hid⟩
    · exact or_assoc.mp (.inl hheld)
    · refine .inr (.inr ((hs.step hplain hstep).part.stored id d ?_))
      refine Partition.store_of_mem (fun b hb => ?_) (.inl hid)
      cases stepped hstep with
      | write hst ho =>
        refine hagree.batch b ?_
        rw [hst]
        exact ho.subset hb
      | refusedWrite hclosed => exact (hs.not_closed hclosed).elim
      | touch hl => cases hl
  · exact .inr (.inr (stores_step hst hs hplain hspare hagree hstep))

/-- The blocks `Q` are all in the queue, or all to be in one batch. -/
def Sink.Jams (s : Sink) (Q : List Bytes) : Prop :=
  Q ⊆ s.queued ∨ match s.stage with
    | .draining _ => Q ⊆ s.queued ++ s.stage.ids
    | .drained _ => Q ⊆ s.stage.ids
    | _ => False

/-- More blocks than a partition has slots stay where they are while every batch fits. -/
theorem Sink.Jams.step {Q : List Bytes} (h : s.Jams Q) (hs : s.Holds m) (hQ : Q.Nodup)
    (hlen : partitionBlocksCount < Q.length) (hl : l.Fits s) (hstep : s.step l = some s') :
    s'.Jams Q := by
  cases stepped hstep with
  | put b hroom =>
    have hsub : s.queued ⊆ (s.queue ++ [b]).map Block.id := by
      rw [List.map_append]
      exact List.subset_append_left _ _
    refine h.imp (fun h => List.Subset.trans h hsub) fun h => ?_
    dsimp only
    split at h
    · rename_i hst
      rw [hst] at h ⊢
      refine List.Subset.trans h fun i hi => ?_
      exact (List.mem_append.mp hi).elim (fun hi => List.mem_append_left _ (hsub hi))
        fun hi => List.mem_append_right _ hi
    · rename_i hst
      rw [hst] at h ⊢
      exact h
    · exact h.elim
  | tick hst =>
    rw [Sink.Jams, hst] at h
    exact .inl (h.resolve_right id)
  | @take blocks b queue hst hq =>
    right
    have hQsub : Q ⊆ s.queued ++ (Stage.draining blocks).ids := by
      rw [Sink.Jams, hst] at h
      exact h.elim (fun h => List.Subset.trans h (List.subset_append_left _ _)) id
    refine List.Subset.trans hQsub fun i hi => ?_
    rw [queued, hq, List.map_cons, List.mem_append, List.mem_cons, Stage.ids_draining,
      ← AList.mem_keys] at hi
    dsimp only
    rw [List.mem_append, Stage.ids_draining, ← AList.mem_keys, AList.mem_insert, queued]
    tauto
  | @empty blocks hst hq =>
    rw [Sink.Jams, hst] at h
    refine h.imp_right fun h => ?_
    have hQsub : Q ⊆ (Stage.draining blocks).ids := by
      rwa [queued, hq, List.map_nil, List.nil_append] at h
    dsimp only
    split_ifs with he
    · have : (Stage.draining blocks).ids = [] := by simp [Stage.ids, Stage.blocks, he]
      rw [this, List.subset_nil] at hQsub
      rw [hQsub] at hlen
      cases hlen
    · dsimp only
      rw [hst]
      exact hQsub
  | @check blocks hst =>
    rw [Sink.Jams, hst] at h
    refine .inl (h.resolve_right fun h => ?_)
    simp only [Move.Fits, hst] at hl
    have := (hQ.subperm h).length_le
    simp only [Stage.ids, Stage.blocks, List.length_map] at this
    omega
  | choose hst =>
    rw [Sink.Jams, hst] at h
    exact .inl (h.resolve_right id)
  | write hst =>
    rw [Sink.Jams, hst] at h
    exact .inl (h.resolve_right id)
  | remove => exact h
  | refusedWrite hclosed | refusedRemove hclosed => exact (hs.not_closed hclosed).elim
  | touch _ removals hfile hmap hclosed hstage =>
    rcases hstage with rfl | ⟨hb, rfl⟩
    · exact h
    · left
      refine h.elim id fun h => ?_
      have hids : s.stage.ids = [] := by rw [Stage.ids, hb, List.map_nil]
      rw [hids, List.append_nil] at h
      split at h
      · exact h
      · rw [List.subset_nil.mp h]
        exact List.nil_subset _
      · exact h.elim

end Sinks

section Acknowledged

variable {s s' : Sink} {l : Move} {ids : List Bytes}

/-- The ids of the blocks that were put and have not been named by a removal since. -/
def Move.owes (l : Move) (ids : List Bytes) : List Bytes :=
  match l with
  | .put b => b.id :: ids
  | .remove gone => ids.filter fun id => id ∉ gone
  | _ => ids

def owed (moves : List Move) : List Bytes := moves.foldl (fun ids l => l.owes ids) []

/-- The batch fits the free slots where the step looks whether it does; where it is written the
partition is open, and the contents of its blocks are written. -/
def Move.Lands (l : Move) (s : Sink) : Prop :=
  l.Fits s ∧ match l with
    | .write _ io => s.part.closed = false ∧ ∀ x ∈ io, x = none
    | _ => True

instance : ∀ (l : Move) (s : Sink), Decidable (l.Lands s)
  | .write .., _ => inferInstanceAs (Decidable (_ ∧ _ ∧ ∀ x ∈ _, _))
  | .put _, _ | .tick, _ | .drain, _ | .check, _ | .choose _, _ | .index .., _ | .remove _, _
  | .look _, _ | .clearFull _, _ | .erase .., _ => inferInstanceAs (Decidable (_ ∧ True))

/-- The sink has the blocks: each is in its queue, in hand with room for it, or in the table. -/
def Sink.Accounts (s : Sink) (ids : List Bytes) : Prop :=
  ∀ id ∈ ids, (id ∈ s.queued ∨ id ∈ s.stage.ids ∧ s.OverFits) ∨ id ∈ s.part.blocksMap

theorem Sink.mem_step {id : Bytes} (h : id ∈ s.part.blocksMap) (hspare : l.Spares id)
    (hl : l.Lands s) (hstep : s.step l = some s') : id ∈ s'.part.blocksMap := by
  cases stepped hstep with
  | write => exact Partition.mem_foldl_block _ hl.2.2 (.inr h)
  | remove ids => exact Partition.mem_removeBlocks ids hspare h
  | touch hl' removals hfile hmap =>
    dsimp only
    rwa [hmap]
  | put | tick | take | empty | check | choose | refusedWrite | refusedRemove => exact h

theorem Sink.Accounts.step (h : s.Accounts ids) (hl : l.Lands s) (hstep : s.step l = some s') :
    s'.Accounts (l.owes ids) := by
  have hkept : ∀ id ∈ ids, l.Spares id →
      (id ∈ s'.queued ∨ id ∈ s'.stage.ids ∧ s'.OverFits) ∨ id ∈ s'.part.blocksMap := by
    intro id hid hspare
    rcases h id hid with hheld | hmem
    · rcases held_step hheld hl.1 hstep with hheld | ⟨order, io, rfl, hid⟩
      · exact .inl hheld
      · right
        cases stepped hstep with
        | write => exact Partition.mem_foldl_block _ hl.2.2 (.inl hid)
        | refusedWrite hclosed => exact absurd hclosed (by simp [hl.2.1])
        | touch hl' => cases hl'
    · exact .inr (mem_step hmem hspare hl hstep)
  intro id hid
  cases l with
  | put b =>
    rcases List.mem_cons.mp hid with rfl | hid
    · cases stepped hstep with
      | put _ hroom => simp [queued]
      | touch hl' => cases hl'
    · exact hkept id hid trivial
  | remove gone =>
    obtain ⟨hid, hgone⟩ := List.mem_filter.mp hid
    have hspare : id ∉ gone := by simpa using hgone
    exact hkept id hid hspare
  | _ => exact hkept id hid trivial

/-- Whatever a partition held before: at any moment a block that was put is in the queue, in the
batch in hand or in the table unless a removal has named it since, in every run in which batches fit
and are written. -/
theorem acknowledged_kept (p : Partition) (moves : List Move)
    (hlands : Along Sink.step Move.Lands moves ⟨p, [], .idle, []⟩)
    (hrun : runSteps Sink.step moves ⟨p, [], .idle, []⟩ = some s) :
    ∀ id ∈ owed moves, id ∈ s.queued ∨ id ∈ s.stage.ids ∨ id ∈ s.part.blocksMap := by
  have hnone : Sink.Accounts ⟨p, [], .idle, []⟩ [] := fun id hid => by cases hid
  have hall := Along.simulation (R := Sink.Accounts) (f := Move.owes)
    (fun _ _ _ _ h hl hs => h.step hl hs) moves hnone hlands hrun
  intro id hid
  rcases hall id hid with (hq | ⟨hb, -⟩) | hmem
  · exact .inl hq
  · exact .inr (.inl hb)
  · exact .inr (.inr hmem)

/-- Two blocks are put and written, and one of them is removed before its header is written. -/
def writtenTwo : List Move :=
  [.put ⟨[1], 0, 1, [10]⟩, .put ⟨[2], 0, 1, [20]⟩, .tick, .drain, .drain, .drain, .check,
    .write [([1], [10]), ([2], [20])] [none], .remove [[1]],
    .index [(0, ⟨[1], 1, 0⟩), (1, ⟨[2], 1, 44⟩)] [some 3]]

theorem acknowledged_kept_writtenTwo : owed writtenTwo = [[2]] ∧ ∃ s,
    runSteps Sink.step writtenTwo newSink = some s
      ∧ ∀ id ∈ owed writtenTwo, id ∈ s.queued ∨ id ∈ s.stage.ids ∨ id ∈ s.part.blocksMap := by
  obtain ⟨s, hrun⟩ : ∃ s, runSteps Sink.step writtenTwo newSink = some s :=
    Option.isSome_iff_exists.mp (by decide +kernel)
  exact ⟨by decide +kernel, s, hrun, acknowledged_kept _ writtenTwo (by decide +kernel) hrun⟩

def crowded : Partition where
  file := ⟨defaultPartitionSize, fun _ => 0⟩
  idxFile := ⟨partitionBlocksCount * idxBlockSize, fun _ => 0⟩
  blocksMap :=
    ⟨(List.range partitionBlocksCount).map fun n =>
      ⟨List.replicate n 1, List.replicate n 1, 0, n * idxBlockSize⟩, by
      rw [List.NodupKeys, List.keys, List.map_map]
      exact List.nodup_range.map fun n k h => by simpa using congrArg List.length h⟩
  full := true
  closed := false

def putOne : List Move :=
  [.put ⟨[2], 0, 1, [20]⟩, .tick, .drain, .drain, .check, .choose [([2], [20])], .write [] [],
    .index [] []]

/-- The block that was put is neither in the queue nor in the table, and no flush is under way. -/
theorem acknowledged_lost_crowded : ∃ s,
    runSteps Sink.step putOne ⟨crowded, [], .idle, []⟩ = some s ∧ owed putOne = [[2]]
      ∧ s.queued = [] ∧ s.stage.blocks = [] ∧ [2] ∉ s.part.blocksMap := by
  obtain ⟨s, hrun⟩ : ∃ s, runSteps Sink.step putOne ⟨crowded, [], .idle, []⟩ = some s :=
    Option.isSome_iff_exists.mp (by decide +kernel)
  have hend : (runSteps Sink.step putOne ⟨crowded, [], .idle, []⟩).map
      (fun s => (s.queued, s.stage.blocks, decide ([2] ∈ s.part.blocksMap)))
        = some ([], [], false) := by decide +kernel
  rw [hrun, Option.map_some, Option.some.injEq, Prod.mk.injEq, Prod.mk.injEq,
    decide_eq_false_iff_not] at hend
  exact ⟨s, hrun, by decide +kernel, hend⟩

end Acknowledged

end Rhosus.Data

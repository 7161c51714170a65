import Rhosus.Data.Slots
import Rhosus.Data.Manager
import Rhosus.Lib.Runs

/-!
# Reads of blocks that are not there

`ReadBlocks` looks up the header of each block it is to read, and a block that is not in the table
has the empty header: reading its no bytes cannot fail, so it is returned, with no data. A read of
some bytes that fails is passed over, and then `ReadBlock` returns `nil` without an error. A block
is returned as it is stored, or an error, exactly if the node is down, the partition missing or
closed, or the block is stored and, unless it is empty, can be read (`reads_honest_iff`).
-/

namespace Rhosus.Data

namespace Partition

variable {p : Partition} {id d : Bytes}

/-- What a read of one block gives: a block that is not in the table is read as an empty one. -/
def readOne (p : Partition) (id : Bytes) (mishap : Mishap) : Option Block :=
  match p.blocksMap.lookup id with
  | none => some ⟨id, 0, 0, []⟩
  | some b => (p.readBlockContents b.slot b.size mishap).map fun data => ⟨id, 0, b.size, data⟩

/-- A stored block is read, unless it has bytes and the read fails. -/
theorem Stores.readOne_eq (h : p.Stores id d) (mishap : Mishap) :
    p.readOne id mishap
      = if mishap = none ∨ d = [] then some ⟨id, 0, d.length, d⟩ else none := by
  obtain ⟨b, hb, hsize, hread⟩ := h
  simp only [readOne, hb, hsize]
  rcases mishap with _ | fault
  · rw [readBlockContents_none, hread]
    simp
  · rcases d with _ | ⟨a, d⟩ <;> simp [readBlockContents]

theorem readEach_cons (p : Partition) (id : Bytes) (ids : List Bytes) (io : List Mishap)
    (result : AList fun _ : Bytes => Block) : p.readEach (id :: ids) io result
      = p.readEach ids io.tail ((p.readOne id (io.headD none)).elim result (result.insert id)) := by
  rcases hb : p.blocksMap.lookup id with _ | b
  · have hempty : p.readBlockContents (IdxBlock.slot ⟨[], 0, 0⟩) 0 (io.headD none) = some [] := rfl
    simp only [readEach, readOne, hb, Option.getD_none, hempty, Option.elim_some]
  · rcases hread : p.readBlockContents b.slot b.size (io.headD none) with _ | data <;>
      simp only [readEach, readOne, hb, Option.getD_some, hread, Option.map_none, Option.map_some,
        Option.elim_none, Option.elim_some]

theorem mem_readEach : ∀ {ids : List Bytes} {io : List Mishap}
    {result : AList fun _ : Bytes => Block}, id ∈ p.readEach ids io result → id ∈ ids ∨ id ∈ result
  | [], _, _, h => .inr h
  | id' :: ids, io, result, h => by
    rw [readEach_cons] at h
    rcases mem_readEach h with h | h
    · exact .inl (List.mem_cons_of_mem _ h)
    · rcases hone : p.readOne id' (io.headD none) with _ | b <;> rw [hone] at h
      · exact .inr h
      · rcases (AList.mem_insert _).mp h with rfl | h
        · exact .inl List.mem_cons_self
        · exact .inr h

theorem mem_readEach_of_mem : ∀ {ids : List Bytes} {io : List Mishap}
    {result : AList fun _ : Bytes => Block}, id ∈ result → id ∈ p.readEach ids io result
  | [], _, _, h => h
  | id' :: ids, io, result, h => by
    rw [readEach_cons]
    refine mem_readEach_of_mem ?_
    rcases p.readOne id' (io.headD none) with _ | b
    · exact h
    · exact (AList.mem_insert _).mpr (.inr h)

/-- A block that is not in the table is returned, whichever reads fail. -/
theorem mem_readEach_of_absent (habsent : p.blocksMap.lookup id = none) : ∀ {ids : List Bytes}
    {io : List Mishap} {result : AList fun _ : Bytes => Block}, id ∈ ids →
      id ∈ p.readEach ids io result
  | id' :: ids, io, result, hid => by
    rw [readEach_cons]
    rcases List.mem_cons.mp hid with rfl | hid
    · have hone : p.readOne id (io.headD none) = some ⟨id, 0, 0, []⟩ := by
        simp only [readOne, habsent]
      rw [hone]
      exact mem_readEach_of_mem ((AList.mem_insert _).mpr (.inl rfl))
    · exact mem_readEach_of_absent habsent hid

/-- `ReadBlocks` returns blocks of the table alone, if and only if it is asked for no others. -/
theorem readBlocks_stored_iff (p : Partition) (ids : List Bytes) :
    (∀ io result, p.readBlocks ids io = .ok result → ∀ id ∈ result, id ∈ p.blocksMap)
      ↔ p.closed = true ∨ ∀ id ∈ ids, id ∈ p.blocksMap := by
  rcases hclosed : p.closed with _ | _
  · simp only [readBlocks, hclosed, Bool.false_eq_true, if_false, Except.ok.injEq, forall_eq',
      false_or]
    constructor
    · intro h id hid
      by_contra hno
      exact hno (h [] id (mem_readEach_of_absent (AList.lookup_eq_none.mpr hno) hid))
    · intro h io id hid
      exact h id ((mem_readEach hid).resolve_right (AList.notMem_empty id))
  · simp [readBlocks, hclosed]

end Partition

namespace DataNode

variable {n : DataNode} {block : BlockPlacementInfo} {s : Sink}

theorem readBlock_eq (hdown : n.shutdown = false)
    (hs : n.parts.lookup block.partitionID = some s) (hclosed : s.part.closed = false)
    (mishap : Mishap) :
    n.readBlock block mishap = .ok (s.part.readOne block.blockID mishap) := by
  simp only [readBlock, hdown, Bool.false_eq_true, if_false, hs, Partition.readBlocks, hclosed]
  rw [Partition.readEach_cons, List.headD_cons, Partition.readEach]
  rcases s.part.readOne block.blockID mishap with _ | b
  · rw [Option.elim_none, AList.lookup_empty]
  · rw [Option.elim_some, AList.lookup_insert]

/-- An error is returned, or the block with the bytes that are stored. -/
def Honest (n : DataNode) (block : BlockPlacementInfo) (mishap : Mishap) : Prop :=
  (∃ e, n.readBlock block mishap = .error e)
    ∨ ∃ s d, n.parts.lookup block.partitionID = some s ∧ s.part.Stores block.blockID d
      ∧ n.readBlock block mishap = .ok (some ⟨block.blockID, 0, d.length, d⟩)

end DataNode

/-- `ReadBlocks` returns blocks of the table alone, if and only if the partition is closed or it is
asked for no others. `ReadBlock` returns an error or the block as it is stored, if and only if the
node is down, the partition is missing or closed, or the block is stored and its read does not fail
where it has bytes to read. -/
theorem reads_honest_iff (p : Partition) (ids : List Bytes) (n : DataNode)
    (block : BlockPlacementInfo) (mishap : Mishap) :
    ((∀ io result, p.readBlocks ids io = .ok result → ∀ id ∈ result, id ∈ p.blocksMap)
      ↔ p.closed = true ∨ ∀ id ∈ ids, id ∈ p.blocksMap)
    ∧ (n.Honest block mishap
      ↔ n.shutdown = true ∨ ∀ s ∈ n.parts.lookup block.partitionID, s.part.closed = true
        ∨ ∃ d, s.part.Stores block.blockID d ∧ (mishap = none ∨ d = [])) := by
  refine ⟨p.readBlocks_stored_iff ids, ?_⟩
  rcases hdown : n.shutdown with _ | _
  swap
  · refine iff_of_true (.inl ⟨.shutdown, ?_⟩) (.inl rfl)
    simp only [DataNode.readBlock, hdown, if_true]
  rcases hs : n.parts.lookup block.partitionID with _ | s
  · refine iff_of_true (.inl ⟨.notFound, ?_⟩) (.inr (by simp))
    simp only [DataNode.readBlock, hdown, Bool.false_eq_true, if_false, hs]
  rcases hclosed : s.part.closed with _ | _
  swap
  · refine iff_of_true (.inl ⟨.partitionClosed, ?_⟩) (.inr (by simp [hclosed]))
    simp only [DataNode.readBlock, hdown, Bool.false_eq_true, if_false, hs, Partition.readBlocks,
      hclosed, if_true]
  simp only [Bool.false_eq_true, false_or, Option.mem_some_iff, forall_eq', hclosed]
  have hread := DataNode.readBlock_eq hdown hs hclosed mishap
  constructor
  · rintro (⟨e, he⟩ | ⟨s', d, hs', hst, hok⟩)
    · rw [hread] at he
      cases he
    · obtain rfl := Option.some.inj (hs.symm.trans hs')
      refine ⟨d, hst, ?_⟩
      by_contra hfails
      rw [hread, hst.readOne_eq, if_neg hfails] at hok
      cases hok
  · rintro ⟨d, hst, hio⟩
    exact .inr ⟨s, d, hs, hst, hread.trans (by rw [hst.readOne_eq, if_pos hio])⟩

/-- A block of two bytes is assigned to a partition, and waits in the queue of its sink. -/
def assignedOne : List NodeMove :=
  [.create [1], .assign [[1]] [⟨[2], 0, 2, [10, 11]⟩], .look 0 none, .look 0 none, .put 0,
    .finish 0]

/-- Then it is written. -/
def writtenOne : List NodeMove :=
  [.part [1] .tick, .part [1] .drain, .part [1] .drain, .part [1] .check,
    .part [1] (.write [([2], [10, 11])] [])]

/-- The block is acknowledged, and read as a block without data; when it is written, a read that
fails returns `nil` and no error. -/
theorem not_honest_queued : ∃ n a n', runSteps DataNode.step assignedOne .new = some n
    ∧ n.calls = [a] ∧ a.stage = .done ∧ a.placement = [⟨[2], [1], true⟩]
    ∧ (∀ mishap, n.readBlock ⟨[2], [1], true⟩ mishap = .ok (some ⟨[2], 0, 0, []⟩)
      ∧ ¬ n.Honest ⟨[2], [1], true⟩ mishap)
    ∧ runSteps DataNode.step writtenOne n = some n'
    ∧ n'.readBlock ⟨[2], [1], true⟩ none = .ok (some ⟨[2], 0, 2, [10, 11]⟩)
    ∧ n'.readBlock ⟨[2], [1], true⟩ (some 0) = .ok none
    ∧ ¬ n'.Honest ⟨[2], [1], true⟩ (some 0) := by
  obtain ⟨n, hrun⟩ : ∃ n, runSteps DataNode.step assignedOne .new = some n :=
    Option.isSome_iff_exists.mp (by decide +kernel)
  have hcalls : (runSteps DataNode.step assignedOne .new).map (fun n =>
      n.calls.map fun a => (a.stage, a.placement))
      = some [(.done, [⟨[2], [1], true⟩])] := by decide +kernel
  have hpart : (runSteps DataNode.step assignedOne .new).map (fun n => (n.shutdown,
      (n.parts.lookup [1]).map fun s => (s.part.closed, s.part.blocksMap.lookup [2])))
      = some (false, some (false, none)) := by decide +kernel
  have hwritten : ((runSteps DataNode.step assignedOne .new).bind
      (runSteps DataNode.step writtenOne)).map (fun n =>
        (n.readBlock ⟨[2], [1], true⟩ none, n.readBlock ⟨[2], [1], true⟩ (some 0)))
      = some (.ok (some ⟨[2], 0, 2, [10, 11]⟩), .ok none) := by decide +kernel
  rw [hrun, Option.map_some, Option.some.injEq] at hcalls hpart
  rw [hrun, Option.bind_some] at hwritten
  obtain ⟨n', hrun', hwritten⟩ := Option.map_eq_some_iff.mp hwritten
  obtain ⟨hfine, hfails⟩ := Prod.mk.inj hwritten
  obtain ⟨hdown, hpart⟩ := Prod.mk.inj hpart
  obtain ⟨s, hs, hpart⟩ := Option.map_eq_some_iff.mp hpart
  obtain ⟨hclosed, habsent⟩ := Prod.mk.inj hpart
  obtain ⟨a, hone, ha⟩ := List.map_eq_singleton_iff.mp hcalls
  obtain ⟨hstage, hplaced⟩ := Prod.mk.inj ha
  have hread : ∀ mishap, n.readBlock ⟨[2], [1], true⟩ mishap = .ok (some ⟨[2], 0, 0, []⟩) := by
    intro mishap
    rw [DataNode.readBlock_eq hdown hs hclosed, Partition.readOne, habsent]
  refine ⟨n, a, n', hrun, hone, hstage, hplaced, fun mishap => ⟨hread mishap, ?_⟩, hrun', hfine,
    hfails, ?_⟩
  · rintro (⟨e, he⟩ | ⟨s', d, hs', ⟨b, hb, -⟩, -⟩)
    · rw [hread mishap] at he
      cases he
    · obtain rfl := Option.some.inj (hs.symm.trans hs')
      rw [habsent] at hb
      cases hb
  · rintro (⟨e, he⟩ | ⟨s', d, -, -, hok⟩)
    · rw [hfails] at he
      cases he
    · rw [hfails] at hok
      cases hok

end Rhosus.Data

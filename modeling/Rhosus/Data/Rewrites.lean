import Rhosus.Data.Removals

/-!
# Blocks that are written again

A block that is written while it is stored goes to another slot, and the header in its old slot
stays. If the new slot comes first the old header counts when the partition is opened again, and a
block that is then removed comes back. So a partition keeps its blocks over a restart, in all the
runs that write blocks of some set again, exactly if there are no such blocks
(`rewrites_durable_iff`).
-/

namespace Rhosus.Data

/-- An id that a header can hold. -/
def ProperId (id : Bytes) : Prop := id.length = 36 ∧ ∀ x ∈ id, x ≠ 0

/-- A batch that fits the free slots, with blocks of `S` that are stored among others that are not,
or a removal of blocks that are stored, each named once; file operations succeed. A slice has fewer
than `2 ^ 63` bytes. -/
def Call.Within (S : Set Bytes) (l : Call) (p : Partition) : Prop :=
  match l with
  | .write blocks _ io idxIo =>
    io = [] ∧ idxIo = [] ∧ (blocks.map Prod.fst).Nodup
      ∧ p.len + blocks.length ≤ partitionBlocksCount
      ∧ ∀ b ∈ blocks, ProperId b.1 ∧ (b.1 ∈ p.blocksMap → b.1 ∈ S) ∧ b.2.length < 2 ^ 63
  | .remove ids io => io = [] ∧ p.Names ids

instance (id : Bytes) : Decidable (ProperId id) := inferInstanceAs (Decidable (_ ∧ ∀ x ∈ _, _))

instance (p : Partition) (ids : List Bytes) : Decidable (p.Names ids) :=
  inferInstanceAs (Decidable (_ ∧ ∀ id ∈ _, _))

instance (S : Set Bytes) [DecidablePred (· ∈ S)] : ∀ (l : Call) (p : Partition),
    Decidable (l.Within S p)
  | .write .., _ => inferInstanceAs (Decidable (_ ∧ _ ∧ _ ∧ _ ∧ ∀ b ∈ _, _ ∧ (_ → _ ∈ S) ∧ _))
  | .remove .., _ => inferInstanceAs (Decidable (_ ∧ _))

theorem Call.within_iff_fresh {S : Set Bytes} (hS : ∀ id ∈ S, ¬ ProperId id) (l : Call)
    (p : Partition) : l.Within S p ↔ l.Fresh p := by
  cases l with
  | write blocks order io idxIo =>
    simp only [Call.Within, Call.Fresh, ProperId, and_assoc]
    refine and_congr_right fun _ => and_congr_right fun _ => and_congr_right fun _ =>
      and_congr_right fun _ => forall₂_congr fun b _ => and_congr_right fun hlen =>
      and_congr_right fun hnz => and_congr_left fun _ => ⟨fun h hmem => ?_, fun h hmem => ?_⟩
    · exact hS b.1 (h hmem) ⟨hlen, hnz⟩
    · exact absurd hmem h
  | remove ids io => rfl

namespace Partition

variable {p q : Partition} {id d : Bytes} {b c : IdxBlock} {n : ℕ}

/-- The header that a block gets in the first free slot. -/
def nextHeader (p : Partition) (id d : Bytes) : IdxBlock :=
  ⟨id, d.length, p.firstFree * idxBlockSize⟩

theorem slot_nextHeader (p : Partition) (id d : Bytes) : (p.nextHeader id d).slot = p.firstFree :=
  Nat.mul_div_cancel _ (by decide)

def writeOne (p : Partition) (id d : Bytes) : Call :=
  .write [(id, d)] [(p.firstFree, p.nextHeader id d)] [] []

def written (p : Partition) (id d : Bytes) : Partition :=
  { (p.overwrite p.firstFree d).enter (p.nextHeader id d) with
    idxFile := p.idxFile.writeAt (p.nextHeader id d).marshal (p.firstFree * idxBlockSize) }

theorem step_writeOne (hopen : p.closed = false) (id d : Bytes) :
    (p.writeOne id d).step p = some (p.written id d) := by
  have hblock := block_of_plain (w := ⟨p, ∅, [], []⟩) rfl id d
  have horder : ∀ (n : ℕ) (b : IdxBlock), [(n, b)].Perm
      ((AList.insert n b (∅ : AList fun _ : ℕ => IdxBlock)).entries.map fun e => (e.1, e.2)) :=
    fun n b => List.Perm.refl _
  obtain ⟨full, he⟩ := (p.overwrite p.firstFree d).enter_eq (p.nextHeader id d)
  rw [nextHeader] at he
  simp only [writeOne, Call.step, writeBlocksCall, hopen, Bool.false_eq_true, if_false, writeBlocks,
    List.foldl_cons, List.foldl_nil, hblock, nextHeader, written]
  rw [if_pos (horder _ _)]
  simp only [writeIdxs, List.headD_nil, List.tail_nil, Option.map_some, he]
  rfl

section Written

variable (hp : p.Settled) (hroom : p.len < partitionBlocksCount) (hid : ProperId id)
  (hd : d.length < 2 ^ 63)

include hroom hid hd in
theorem proper_nextHeader : (p.nextHeader id d).Proper := by
  have hslot := p.slot_nextHeader id d
  exact ⟨hid.1, hid.2, hd.trans (by decide), by rw [hslot]; rfl,
    by rw [hslot]; exact (firstFree_spec hroom).1⟩

theorem lookup_written (p : Partition) (id d : Bytes) :
    (p.written id d).blocksMap.lookup id = some (p.nextHeader id d) :=
  lookup_enter (p.overwrite p.firstFree d) (p.nextHeader id d)

theorem lookup_written_ne {id' : Bytes} (h : id' ≠ id) :
    (p.written id d).blocksMap.lookup id' = p.blocksMap.lookup id' :=
  lookup_enter_ne (p := p.overwrite p.firstFree d) (b := p.nextHeader id d) h

theorem written_eq (p : Partition) (id d : Bytes) : (p.written id d).closed = p.closed
    ∧ (p.written id d).file = p.file.writeAt d (p.firstFree * defaultBlockSize) := by
  obtain ⟨full, he⟩ := (p.overwrite p.firstFree d).enter_eq (p.nextHeader id d)
  rw [written, he]
  exact ⟨rfl, rfl⟩

include hp

theorem file_written : idxFileSize ≤ (p.written id d).file.size := by
  rw [(p.written_eq id d).2]
  exact hp.file.trans (File.size_le_size_writeAt _ _ _)

include hroom hid hd

/-- The headers of the other slots are as they were, that of the old slot of the block among
them. -/
theorem headerAt_written_ne (hn : n ≠ p.firstFree) (hlt : n < partitionBlocksCount) :
    headerAt (p.written id d).idxFile n = headerAt p.idxFile n := by
  have hproper := proper_nextHeader hroom hid hd
  obtain ⟨data, hread⟩ : ∃ data, p.idxFile.readAt idxBlockSize (n * idxBlockSize) = some data :=
    ⟨_, if_pos (.inr ((header_lt hlt).trans_eq hp.indexed.size.symm))⟩
  refine headerAt_congr ((File.readAt_writeAt_of_disjoint _ hread ?_).trans hread.symm)
  rw [hproper.length_marshal]
  exact header_disjoint hn

theorem size_written : (p.written id d).idxFile.size = idxFileSize := by
  have hproper := proper_nextHeader hroom hid hd
  refine (File.size_writeAt_of_le _ ?_).trans hp.indexed.size
  rw [hproper.length_marshal, hp.indexed.size]
  exact header_lt (firstFree_spec hroom).1

theorem slot_lt_written (id' : Bytes) (c : IdxBlock)
    (hc : (p.written id d).blocksMap.lookup id' = some c) : c.slot < partitionBlocksCount := by
  by_cases he : id' = id
  · rw [he, lookup_written] at hc
    obtain rfl := Option.some.inj hc
    exact (proper_nextHeader hroom hid hd).slot_lt
  · rw [lookup_written_ne he] at hc
    exact hp.indexed.slot_lt id' c hc

end Written

/-- A partition that is opened over the files of `p` has the same blocks, and reads the same. -/
def Durable (p : Partition) : Prop :=
  ∀ order, LoadOrder (newPartition p.file p.idxFile).idxFile order →
    ∃ q, (newPartition p.file p.idxFile).loadHeader none order = .ok q
      ∧ (∀ id, id ∈ q.blocksMap ↔ id ∈ p.blocksMap)
      ∧ ∀ id ∈ p.blocksMap, q.readBlocks [id] [] = p.readBlocks [id] []

theorem Settled.durable (hp : p.Settled) : p.Durable := by
  intro order horder
  obtain ⟨q, hq, hmap, hread, -⟩ := hp.reopens horder
  refine ⟨q, hq, fun id => ?_, fun id _ => hread [id] []⟩
  rw [← AList.lookup_isSome, ← AList.lookup_isSome, hmap]

/-- A block that is written again, to a slot before its own, is found in the old slot when the
partition is opened again. -/
theorem lastHeader_written (hp : p.Settled) (hroom : p.len < partitionBlocksCount)
    (hid : ProperId id) (hd : d.length < 2 ^ 63) (hb : p.blocksMap.lookup id = some b)
    (hlt : p.firstFree < b.slot) :
    lastHeader (p.written id d).idxFile id partitionBlocksCount = some b := by
  obtain ⟨rfl, hproper⟩ := hp.indexed.proper id b hb
  have hat := (hp.indexed.headerAt_eq_some hproper.slot_lt).mpr ⟨hb, rfl⟩
  rw [← headerAt_written_ne hp hroom hid hd hlt.ne' hproper.slot_lt] at hat
  refine lastHeader_of_last hat hproper.slot_lt fun k hk hkn c hc hid' => ?_
  rw [headerAt_written_ne hp hroom hid hd (hlt.trans hk).ne' hkn] at hc
  obtain ⟨hlook, rfl⟩ := (hp.indexed.headerAt_eq_some hkn).mp hc
  rw [hid', hb] at hlook
  obtain rfl := Option.some.inj hlook
  exact lt_irrefl _ hk

/-- A block that is stored, written again and then removed is there when the partition is opened
again. -/
theorem not_durable_rewritten (hp : p.Settled) (hroom : p.len < partitionBlocksCount)
    (hid : ProperId id) (hd : d.length < 2 ^ 63) (hb : p.blocksMap.lookup id = some b) :
    ¬ ((p.written id d).removeBlocksCall [id] []).2.Durable := by
  obtain ⟨hfree, hnot⟩ := firstFree_spec hroom
  have hopen : (p.written id d).closed = false := (p.written_eq id d).1.trans hp.isOpen
  obtain ⟨j, full, idxFile, heq, -, hsize, hbyte⟩ := removeBlocksCall_eq
    (size_written hp hroom hid hd) (slot_lt_written hp hroom hid hd) hopen [id] []
  obtain ⟨hbid, hproper⟩ := hp.indexed.proper id b hb
  have hne : b.slot ≠ p.firstFree := by
    intro he
    rw [isBlockAllocated_iff.mpr ⟨id, b, hb, he⟩] at hnot
    cases hnot
  -- the removal erases the new header, and the old one stays
  have hold : headerAt idxFile b.slot = some b := by
    refine (headerAt_congr (File.readAt_congr _ hsize fun k hle hlt => ?_)).trans
      ((headerAt_written_ne hp hroom hid hd hne hproper.slot_lt).trans ?_)
    · rw [hbyte, if_neg]
      intro hk
      obtain ⟨m, hm, hle', hlt'⟩ := mem_headerBytes.mp (List.mem_of_mem_take hk)
      have hslot : m = p.firstFree := by
        rcases mem_removed.mp hm with ⟨id', hid', c, hc, rfl⟩ | ⟨-, hnames⟩
        · obtain rfl := List.mem_singleton.mp hid'
          rw [lookup_written] at hc
          obtain rfl := Option.some.inj hc
          exact slot_nextHeader p id' d
        · refine absurd ⟨List.nodup_singleton _, List.forall_mem_singleton.mpr ?_⟩ hnames
          exact AList.lookup_isSome.mp (by rw [lookup_written]; rfl)
      rw [hslot] at hle' hlt'
      have := header_disjoint hne
      omega
    · exact (hp.indexed.headerAt_eq_some hproper.slot_lt).mpr ⟨hbid.symm ▸ hb, rfl⟩
  intro hdur
  obtain ⟨blocksMap, hrest⟩ := (p.written id d).removeBlocks_eq [id]
  have hfile : idxFileSize ≤ (p.written id d).file.size := file_written hp
  rw [heq] at hdur
  obtain ⟨q, hq, hmem, -⟩ := hdur _ (List.Perm.refl _)
  obtain ⟨q', hq', -, -, -, hlast⟩ :=
    reopened (p := { ((p.written id d).removeBlocks [id]).2 with full, idxFile })
      (hsize.trans (size_written hp hroom hid hd)) (by rwa [hrest]) (List.Perm.refl _)
  obtain rfl := Except.ok.inj (hq.symm.trans hq')
  have hgone : id ∉ ((p.written id d).removeBlocks [id]).2.blocksMap := by
    rw [← AList.lookup_eq_none]
    exact AList.lookup_erase _ _
  refine hgone ((hmem id).mp (AList.lookup_isSome.mp ?_))
  rw [hlast, Option.isSome_iff_ne_none, ne_eq, lastHeader_eq_none]
  exact fun h => h b.slot hproper.slot_lt b hold hbid

end Partition

open Rhosus.Data.Partition

/-- Let the runs of a new partition be those of batches that fit, which may write the blocks of `S`
while they are stored, and of removals of stored blocks. After each of them the partition has the
same blocks when it is opened again, and reads the same, if and only if no block can be in `S`. -/
theorem rewrites_durable_iff (S : Set Bytes) {file idxFile : File}
    (hfile : file.size = defaultPartitionSize) (hsize : idxFile.size = idxFileSize)
    (hzero : ∀ k < idxFileSize, idxFile.byte k = 0) :
    (∀ calls p, Along Call.step (Call.Within S) calls (.new file idxFile) →
        runSteps Call.step calls (.new file idxFile) = some p → p.Durable)
      ↔ ∀ id ∈ S, ¬ ProperId id := by
  have hnew := settled_new hfile hsize hzero
  constructor
  · intro h id hS hid
    have hroom : (Partition.new file idxFile).len + 1 ≤ partitionBlocksCount := by
      rw [show (Partition.new file idxFile).len = 0 from rfl]
      decide
    have hone : ∀ p : Partition, p.len + 1 ≤ partitionBlocksCount →
        (p.writeOne id []).Within S p := by
      intro p hlen
      exact ⟨rfl, rfl, List.nodup_singleton _, hlen,
        List.forall_mem_singleton.mpr ⟨hid, fun _ => hS, by simp⟩⟩
    have hfirst := step_writeOne (p := .new file idxFile) rfl id []
    have hp : ((Partition.new file idxFile).written id []).Settled := by
      refine hnew.step ?_ hfirst
      refine ⟨rfl, rfl, List.nodup_singleton _, hroom, ?_⟩
      exact List.forall_mem_singleton.mpr ⟨hid.1, hid.2, by simp [Partition.new], by simp⟩
    have hlen : ((Partition.new file idxFile).written id []).len ≤ 1 :=
      len_enter_le (p := (Partition.new file idxFile).overwrite _ []) _
    generalize hq : (Partition.new file idxFile).written id [] = q at hfirst hp hlen
    have hroom' : q.len + 1 ≤ partitionBlocksCount := hlen.trans_lt (by decide)
    have hsecond := step_writeOne hp.isOpen id []
    have hlook : q.blocksMap.lookup id = some ((Partition.new file idxFile).nextHeader id []) :=
      hq ▸ lookup_written _ id []
    have hnames : (q.written id []).Names [id] := by
      refine ⟨List.nodup_singleton _, List.forall_mem_singleton.mpr ?_⟩
      exact AList.lookup_isSome.mp (by rw [lookup_written]; rfl)
    refine not_durable_rewritten (d := []) hp hroom' hid (by decide) hlook
      (h [(Partition.new file idxFile).writeOne id [], q.writeOne id [], .remove [id] []] _
        ⟨hone _ hroom, ?_⟩ ?_)
    · rw [hfirst]
      refine ⟨hone q hroom', ?_⟩
      rw [hsecond]
      exact ⟨⟨rfl, hnames⟩, trivial⟩
    · simp only [runSteps, hfirst, hsecond]
      rfl
  · intro hS calls p halong hrun
    rw [Along.congr (Call.within_iff_fresh hS)] at halong
    exact (hnew.run halong hrun).durable

theorem rewrites_durable_iff_writtenPair : ∃ p, runSteps Call.step writtenPair (.new
      ⟨defaultPartitionSize, fun _ => 0⟩ ⟨idxFileSize, fun _ => 0⟩) = some p ∧ p.Durable := by
  obtain ⟨p, hrun, -⟩ := settled_writtenPair
  refine ⟨p, hrun, (rewrites_durable_iff ∅ rfl rfl fun _ _ => rfl).mpr (by simp) writtenPair p ?_
    hrun⟩
  decide +kernel

/-- The block 1 is removed, and the block 2 is in the slot 1. -/
def keptSecond : List Call := writtenPair ++ [.remove [List.replicate 36 1] []]

theorem settled_keptSecond : ∃ p, runSteps Call.step keptSecond (.new
      ⟨defaultPartitionSize, fun _ => 0⟩ ⟨idxFileSize, fun _ => 0⟩) = some p ∧ p.Settled
    ∧ p.blocksMap.entries = [⟨List.replicate 36 2, List.replicate 36 2, 1, 44⟩]
    ∧ p.firstFree = 0 ∧ p.file.readAt 1 (1 * defaultBlockSize) = some [20] := by
  obtain ⟨p, hrun⟩ : ∃ p, runSteps Call.step keptSecond (.new ⟨defaultPartitionSize, fun _ => 0⟩
      ⟨idxFileSize, fun _ => 0⟩) = some p := Option.isSome_iff_exists.mp (by decide +kernel)
  have htable : (runSteps Call.step keptSecond (.new ⟨defaultPartitionSize, fun _ => 0⟩
      ⟨idxFileSize, fun _ => 0⟩)).map (fun p => (p.blocksMap.entries, p.firstFree))
      = some ([⟨List.replicate 36 2, List.replicate 36 2, 1, 44⟩], 0) := by decide +kernel
  have hfile : (runSteps Call.step keptSecond (.new ⟨defaultPartitionSize, fun _ => 0⟩
      ⟨idxFileSize, fun _ => 0⟩)).map (fun p => p.file.readAt 1 (1 * defaultBlockSize))
      = some (some [20]) := by decide +kernel
  rw [hrun] at htable hfile
  obtain ⟨hentries, hfree⟩ := Prod.mk.inj (Option.some.inj htable)
  have hp : p.Settled := (settled_new rfl rfl fun _ _ => rfl).run (by decide +kernel) hrun
  exact ⟨p, hrun, hp, hentries, hfree, Option.some.inj hfile⟩

/-- The block 2 is written again, to the slot 0. Before the restart it is read as it was written
last, and after it as it was written first. -/
theorem not_durable_keptSecond : ∃ p, runSteps Call.step (keptSecond
      ++ [.write [(List.replicate 36 2, [30])] [(0, ⟨List.replicate 36 2, 1, 0⟩)] [] []]) (.new
      ⟨defaultPartitionSize, fun _ => 0⟩ ⟨idxFileSize, fun _ => 0⟩) = some p
    ∧ Along Call.step (Call.Within {List.replicate 36 2}) (keptSecond
      ++ [.write [(List.replicate 36 2, [30])] [(0, ⟨List.replicate 36 2, 1, 0⟩)] [] []]) (.new
      ⟨defaultPartitionSize, fun _ => 0⟩ ⟨idxFileSize, fun _ => 0⟩)
    ∧ (∃ r, p.readBlocks [List.replicate 36 2] [] = .ok r
      ∧ r.lookup (List.replicate 36 2) = some ⟨List.replicate 36 2, 0, 1, [30]⟩)
    ∧ ∃ order q, (newPartition p.file p.idxFile).loadHeader none order = .ok q
      ∧ ∃ r, q.readBlocks [List.replicate 36 2] [] = .ok r
        ∧ r.lookup (List.replicate 36 2) = some ⟨List.replicate 36 2, 0, 1, [20]⟩ := by
  obtain ⟨p, hrun, hp, htable, hfree, hold⟩ := settled_keptSecond
  have hb : p.blocksMap.lookup (List.replicate 36 2) = some ⟨List.replicate 36 2, 1, 44⟩ := by
    rw [AList.lookup, htable]
    decide
  have hroom : p.len < partitionBlocksCount := by
    rw [len_eq_length_entries, htable]
    decide
  have hid : ProperId (List.replicate 36 2) :=
    ⟨List.length_replicate, fun x hx => List.eq_of_mem_replicate hx ▸ by decide⟩
  have hstep := step_writeOne hp.isOpen (List.replicate 36 2) [30]
  simp only [writeOne, nextHeader, hfree, Nat.zero_mul, List.length_singleton] at hstep
  have hlast := lastHeader_written (d := [30]) hp hroom hid (by decide) hb (by rw [hfree]; decide)
  obtain ⟨hclosed, hfile⟩ := p.written_eq (List.replicate 36 2) [30]
  obtain ⟨q, hq, hqfile, hqopen, -, hqmap⟩ := reopened (p := p.written (List.replicate 36 2) [30])
    (size_written hp hroom hid (by decide)) (file_written hp) (List.Perm.refl _)
  refine ⟨_, runSteps_trans hrun (by simp only [runSteps, hstep]), by decide +kernel, ?_, _, q,
    hq, ?_⟩
  · have hst : (p.written (List.replicate 36 2) [30]).Stores (List.replicate 36 2) [30] :=
      stores_enter _ _ _
    exact hst.read (hclosed.trans hp.isOpen) List.mem_cons_self
  · have hst : q.Stores (List.replicate 36 2) [20] := by
      refine ⟨_, (hqmap _).trans hlast, rfl, ?_⟩
      rw [hqfile, hfile, hfree]
      exact File.readAt_writeAt_of_disjoint _ hold (.inr (by decide))
    exact hst.read hqopen List.mem_cons_self

end Rhosus.Data

import Rhosus.Data.Restart

/-!
# What a removal leaves

`RemoveBlocks` looks up the slot of each block it is to remove, and takes slot 0 for a block that is
not in the table, or no longer: it erases the header there, whatever block it belongs to. The table
stays right, and the loss shows when the partition is opened again. So the other blocks are spared
exactly if each id is stored and named once, or no other block is in slot 0
(`removeBlocks_spares_iff`).
-/

namespace Rhosus.Data

namespace Partition

variable {p q : Partition} {ids : List Bytes} {id : Bytes} {b c : IdxBlock} {f g : File} {n : ℕ}

/-- Each id is in the table, and is named once. -/
def Names (p : Partition) (ids : List Bytes) : Prop := ids.Nodup ∧ ∀ id ∈ ids, id ∈ p.blocksMap

theorem names_cons : p.Names (id :: ids) ↔
    id ∈ p.blocksMap ∧ Names { p with blocksMap := p.blocksMap.erase id } ids := by
  simp only [Names, List.nodup_cons, List.forall_mem_cons, AList.mem_erase]
  constructor
  · rintro ⟨⟨hid, hnd⟩, hin, hall⟩
    exact ⟨hin, hnd, fun id' hid' => ⟨fun he => hid (he ▸ hid'), hall id' hid'⟩⟩
  · rintro ⟨hin, hnd, hall⟩
    exact ⟨⟨fun hid => (hall id hid).1 rfl, hnd⟩, hin, fun id' hid' => (hall id' hid').2⟩

/-- The slots that are erased: those of the blocks that are named, and slot 0 for an id that is not
in the table when its turn comes. -/
theorem mem_removed : ∀ {ids : List Bytes} {p : Partition}, n ∈ (p.removeBlocks ids).1 ↔
    (∃ id ∈ ids, ∃ b, p.blocksMap.lookup id = some b ∧ b.slot = n) ∨ n = 0 ∧ ¬ p.Names ids
  | [], p => by simp [removeBlocks, Names]
  | id :: ids, p => by
    have hcons : n ∈ (p.removeBlocks (id :: ids)).1 ↔
        n = (p.blocksMap.lookup id).elim 0 IdxBlock.slot
          ∨ n ∈ (removeBlocks ids { p with blocksMap := p.blocksMap.erase id }).1 := by
      simp [removeBlocks]
    have hothers : (∃ id' ∈ ids, ∃ b, (p.blocksMap.erase id).lookup id' = some b ∧ b.slot = n) ↔
        ∃ id' ∈ ids, id' ≠ id ∧ ∃ b, p.blocksMap.lookup id' = some b ∧ b.slot = n := by
      refine exists_congr fun id' => and_congr_right fun _ => ?_
      by_cases hid : id' = id
      · subst hid
        simp [AList.lookup_erase]
      · simp [hid, AList.lookup_erase_ne hid]
    rw [hcons, mem_removed, hothers, names_cons]
    rcases hb : p.blocksMap.lookup id with _ | b
    · have hno : id ∉ p.blocksMap := AList.lookup_eq_none.mp hb
      have hne : ∀ id', (∃ b, p.blocksMap.lookup id' = some b ∧ b.slot = n) → id' ≠ id := by
        rintro id' ⟨b, hb', -⟩ rfl
        rw [hb] at hb'
        cases hb'
      simp only [Option.elim_none, hno, false_and, not_false_iff, and_true,
        List.exists_mem_cons_iff, hb, reduceCtorEq, exists_false, false_or]
      constructor
      · rintro (rfl | ⟨id', hid', -, h⟩ | ⟨rfl, -⟩)
        · exact .inr rfl
        · exact .inl ⟨id', hid', h⟩
        · exact .inr rfl
      · rintro (⟨id', hid', h⟩ | rfl)
        · exact .inr (.inl ⟨id', hid', hne id' h, h⟩)
        · exact .inl rfl
    · have hin : id ∈ p.blocksMap := AList.lookup_isSome.mp (by rw [hb]; rfl)
      simp only [Option.elim_some, hin, true_and, List.exists_mem_cons_iff, hb, Option.some.injEq]
      constructor
      · rintro (rfl | ⟨id', hid', -, h⟩ | h)
        · exact .inl (.inl ⟨b, rfl, rfl⟩)
        · exact .inl (.inr ⟨id', hid', h⟩)
        · exact .inr h
      · rintro ((⟨c, rfl, rfl⟩ | ⟨id', hid', h⟩) | h)
        · exact .inl rfl
        · by_cases hid : id' = id
          · obtain ⟨c, hc, rfl⟩ := h
            rw [hid, hb] at hc
            obtain rfl := Option.some.inj hc
            exact .inl rfl
          · exact .inr (.inl ⟨id', hid', hid, h⟩)
        · exact .inr (.inr h)

theorem lookup_removeBlocks : ∀ {ids : List Bytes} {p : Partition}, id ∉ ids →
    (p.removeBlocks ids).2.blocksMap.lookup id = p.blocksMap.lookup id
  | [], _, _ => rfl
  | id' :: ids, p, hid => by
    rw [List.mem_cons, not_or] at hid
    exact (lookup_removeBlocks hid.2).trans (AList.lookup_erase_ne hid.1)

/-- A call of `RemoveBlocks` erases a part of the headers of the slots, all of it if no write
fails. -/
theorem removeBlocksCall_eq (hidxSize : p.idxFile.size = idxFileSize)
    (hslots : ∀ id b, p.blocksMap.lookup id = some b → b.slot < partitionBlocksCount)
    (hopen : p.closed = false) (ids : List Bytes) (io : List Mishap) : ∃ j full idxFile,
      (p.removeBlocksCall ids io).2 = { (p.removeBlocks ids).2 with full, idxFile }
      ∧ (io = [] → j = (headerBytes (p.removeBlocks ids).1).length)
      ∧ idxFile.size = p.idxFile.size
      ∧ ∀ k, idxFile.byte k = if k ∈ (headerBytes (p.removeBlocks ids).1).take j then 0
        else p.idxFile.byte k := by
  obtain ⟨blocksMap, heq⟩ := p.removeBlocks_eq ids
  have hidx : (p.removeBlocks ids).2.idxFile = p.idxFile := by rw [heq]
  obtain ⟨full, hfull⟩ : ∃ full, (if (p.removeBlocks ids).2.len < partitionBlocksCount
      then { (p.removeBlocks ids).2 with full := false } else (p.removeBlocks ids).2)
      = { (p.removeBlocks ids).2 with full } := by
    split_ifs
    · exact ⟨false, rfl⟩
    · exact ⟨_, rfl⟩
  have hlt : ∀ pos ∈ headerBytes (p.removeBlocks ids).1, pos < p.idxFile.size := by
    intro pos hpos
    obtain ⟨n, hn, -, hpos⟩ := mem_headerBytes.mp hpos
    rw [hidxSize]
    refine hpos.trans_le (header_lt ?_)
    rcases mem_removed.mp hn with ⟨id, -, b, hb, rfl⟩ | ⟨rfl, -⟩
    · exact hslots id b hb
    · decide
  obtain ⟨j, idxFile, hj, he, hsize, hbyte⟩ := eraseIdxs_byte
    (headerBytes (p.removeBlocks ids).1) io (p := { (p.removeBlocks ids).2 with full })
    (by simpa only [hidx] using hlt)
  simp only [hidx] at hsize hbyte
  refine ⟨j, full, idxFile, ?_, hj, hsize, hbyte⟩
  simp only [removeBlocksCall, hopen, Bool.false_eq_true, if_false, hfull, he]

theorem cleared_of_byte {ps : List ℕ} (h : ∀ k, g.byte k = if k ∈ ps then 0 else f.byte k) (k : ℕ) :
    g.byte k = f.byte k ∨ g.byte k = 0 := by
  rw [h]
  split_ifs
  · exact .inr rfl
  · exact .inl rfl

/-- A header that is left when some bytes are set to zero, and whose id has none, has the id that
was there. -/
theorem headerAt_of_cleared (hsize : g.size = f.size)
    (hbyte : ∀ k, g.byte k = f.byte k ∨ g.byte k = 0) (hc : headerAt g n = some c)
    (hnz : ∀ x ∈ c.id, x ≠ 0) : ∃ d, headerAt f n = some d ∧ d.id = c.id := by
  unfold headerAt at hc
  rcases hg : g.readAt idxBlockSize (n * idxBlockSize) with _ | data <;> rw [hg] at hc
  · cases hc
  dsimp only at hc
  split_ifs at hc with hzero
  obtain rfl := Option.some.inj hc
  unfold File.readAt at hg
  split_ifs at hg with hlt
  obtain rfl := Option.some.inj hg
  have hf : f.readAt idxBlockSize (n * idxBlockSize)
      = some ((List.range idxBlockSize).map fun i => f.byte (n * idxBlockSize + i)) := by
    rw [File.readAt, if_pos (by rwa [← hsize])]
  have hid : ∀ h : File, ((List.range idxBlockSize).map fun i =>
      h.byte (n * idxBlockSize + i)).take 36
      = (List.range 36).map fun i => h.byte (n * idxBlockSize + i) := fun h => by
    rw [← List.map_take, List.take_range]
    rfl
  have hsame : ∀ i < 36, f.byte (n * idxBlockSize + i) = g.byte (n * idxBlockSize + i)
      ∧ f.byte (n * idxBlockSize + i) ≠ 0 := by
    intro i hi
    have hne : g.byte (n * idxBlockSize + i) ≠ 0 := by
      refine hnz _ ?_
      rw [IdxBlock.unmarshal]
      dsimp only
      rw [hid]
      exact List.mem_map_of_mem (List.mem_range.mpr hi)
    have heq := (hbyte (n * idxBlockSize + i)).resolve_right hne
    exact ⟨heq.symm, heq ▸ hne⟩
  have hnot : isBytesAllZeros ((List.range idxBlockSize).map fun i =>
      f.byte (n * idxBlockSize + i)) = false := by
    rw [isBytesAllZeros, List.all_eq_false]
    exact ⟨_, List.mem_map_of_mem (List.mem_range.mpr (show 0 < idxBlockSize by decide)),
      by simpa using (hsame 0 (by decide)).2⟩
  refine ⟨_, by rw [headerAt, hf]; dsimp only; rw [if_neg (by simp [hnot])], ?_⟩
  simp only [IdxBlock.unmarshal, hid]
  exact List.map_congr_left fun i hi => (hsame i (List.mem_range.mp hi)).1

/-- `q` has the blocks of `p` that are not among `ids`: in its table, in its index file, and when it
is opened again. -/
def Spares (p q : Partition) (ids : List Bytes) : Prop :=
  ∀ id ∉ ids, ∀ b, p.blocksMap.lookup id = some b → q.blocksMap.lookup id = some b
    ∧ q.idxFile.readAt idxBlockSize (b.slot * idxBlockSize)
      = p.idxFile.readAt idxBlockSize (b.slot * idxBlockSize)
    ∧ ∀ order, LoadOrder (newPartition q.file q.idxFile).idxFile order →
      ∃ r, (newPartition q.file q.idxFile).loadHeader none order = .ok r
        ∧ r.blocksMap.lookup id = some b

theorem spares_self (hp : p.Indexed [] []) (hfile : idxFileSize ≤ p.file.size)
    (ids : List Bytes) : p.Spares p ids := by
  intro id _ b hb
  refine ⟨hb, rfl, fun order horder => ?_⟩
  obtain ⟨r, hr, -, -, -, hlast⟩ := reopened hp.size hfile horder
  exact ⟨r, hr, (hlast id).trans ((hp.lastHeader_eq id).trans hb)⟩

theorem spares_removed (hp : p.Indexed [] []) (hfile : idxFileSize ≤ p.file.size)
    (hopen : p.closed = false) {io : List Mishap}
    (hsafe : ∀ id ∉ ids, ∀ b, p.blocksMap.lookup id = some b → b.slot ∉ (p.removeBlocks ids).1) :
    p.Spares (p.removeBlocksCall ids io).2 ids := by
  intro id hid b hb
  obtain ⟨j, full, idxFile, heq, -, hsize, hbyte⟩ :=
    removeBlocksCall_eq hp.size hp.slot_lt hopen ids io
  obtain ⟨blocksMap, hrest⟩ := p.removeBlocks_eq ids
  have hread : idxFile.readAt idxBlockSize (b.slot * idxBlockSize)
      = p.idxFile.readAt idxBlockSize (b.slot * idxBlockSize) := by
    refine File.readAt_congr _ hsize fun k hle hlt => ?_
    rw [hbyte, if_neg]
    intro hk
    obtain ⟨m, hm, hle', hlt'⟩ := mem_headerBytes.mp (List.mem_of_mem_take hk)
    have hne : b.slot ≠ m := fun he => hsafe id hid b hb (he ▸ hm)
    have := header_disjoint hne
    omega
  have hfile' : (p.removeBlocksCall ids io).2.file = p.file := by rw [heq, hrest]
  obtain ⟨rfl, hproper⟩ := hp.proper id b hb
  rw [heq]
  refine ⟨(lookup_removeBlocks hid).trans hb, hread, fun order horder => ?_⟩
  obtain ⟨r, hr, -, -, -, hlast⟩ := reopened (p := { (p.removeBlocks ids).2 with full, idxFile })
    (hsize.trans hp.size) (by rwa [← heq, hfile']) horder
  refine ⟨r, hr, (hlast b.id).trans ?_⟩
  have hat := (hp.headerAt_eq_some hproper.slot_lt).mpr ⟨hb, rfl⟩
  refine lastHeader_of_last ((headerAt_congr hread).trans hat) hproper.slot_lt
    fun k hk hlt c hc hid' => ?_
  obtain ⟨d, hd, hid''⟩ := headerAt_of_cleared hsize (cleared_of_byte hbyte) hc
    (hid' ▸ hproper.nonzero)
  obtain ⟨hlook, rfl⟩ := (hp.headerAt_eq_some hlt).mp hd
  rw [hid'', hid', hb] at hlook
  obtain rfl := Option.some.inj hlook
  exact lt_irrefl _ hk

/-- The block in slot 0 is lost, where an id is named that is not in the table when its turn comes:
it is still there, and gone when the partition is opened again. -/
theorem lost_of_slot_zero (hp : p.Indexed [] []) (hfile : idxFileSize ≤ p.file.size)
    (hopen : p.closed = false) (hnames : ¬ p.Names ids) (hb : p.blocksMap.lookup id = some b)
    (hslot : b.slot = 0) (hid : id ∉ ids) {order : List IdxBlock}
    (horder : LoadOrder (newPartition (p.removeBlocksCall ids []).2.file
      (p.removeBlocksCall ids []).2.idxFile).idxFile order) :
    (p.removeBlocksCall ids []).2.blocksMap.lookup id = some b
      ∧ ∃ r, (newPartition (p.removeBlocksCall ids []).2.file
        (p.removeBlocksCall ids []).2.idxFile).loadHeader none order = .ok r
        ∧ r.blocksMap.lookup id = none := by
  obtain ⟨j, full, idxFile, heq, hj, hsize, hbyte⟩ :=
    removeBlocksCall_eq hp.size hp.slot_lt hopen ids []
  obtain ⟨blocksMap, hrest⟩ := p.removeBlocks_eq ids
  rw [hj rfl, List.take_length] at hbyte
  have hfile' : (p.removeBlocksCall ids []).2.file = p.file := by rw [heq, hrest]
  obtain ⟨rfl, hproper⟩ := hp.proper id b hb
  rw [heq] at horder ⊢
  refine ⟨(lookup_removeBlocks hid).trans hb, ?_⟩
  obtain ⟨r, hr, -, -, -, hlast⟩ := reopened (p := { (p.removeBlocks ids).2 with full, idxFile })
    (hsize.trans hp.size) (by rwa [← heq, hfile']) horder
  refine ⟨r, hr, (hlast b.id).trans (lastHeader_eq_none.mpr fun k hk c hc hid' => ?_)⟩
  obtain ⟨d, hd, hid''⟩ := headerAt_of_cleared hsize (cleared_of_byte hbyte) hc
    (hid' ▸ hproper.nonzero)
  obtain ⟨hlook, rfl⟩ := (hp.headerAt_eq_some hk).mp hd
  rw [hid'', hid', hb] at hlook
  obtain rfl := Option.some.inj hlook
  have hzero : idxFile.readAt idxBlockSize (b.slot * idxBlockSize)
      = some (List.replicate idxBlockSize 0) := by
    refine File.readAt_eq_replicate _ ?_ fun k hk => ?_
    · rw [hsize, hp.size]
      exact header_lt hproper.slot_lt
    · rw [hbyte, if_pos (mem_headerBytes.mpr ⟨b.slot, mem_removed.mpr (.inr ⟨hslot, hnames⟩),
        by omega, by omega⟩)]
  have hzeros : isBytesAllZeros (List.replicate idxBlockSize 0) = true := by decide
  simp only [headerAt, hzero, hzeros, if_true, reduceCtorEq] at hc

/-- Let the index file of a partition say what its table does. A removal spares the blocks that it
does not name, whatever befalls its writes, if and only if the partition is closed, each id is
stored and named once, or no block that it does not name is in slot 0. -/
theorem removeBlocks_spares_iff (hp : p.Indexed [] []) (hfile : idxFileSize ≤ p.file.size)
    (ids : List Bytes) : (∀ io, p.Spares (p.removeBlocksCall ids io).2 ids) ↔
      p.closed = true ∨ p.Names ids
        ∨ ∀ id b, p.blocksMap.lookup id = some b → b.slot = 0 → id ∈ ids := by
  rcases hopen : p.closed with _ | _
  · simp only [Bool.false_eq_true, false_or]
    constructor
    · intro h
      by_contra hno
      push Not at hno
      obtain ⟨hnames, id, b, hb, hslot, hid⟩ := hno
      obtain ⟨-, -, hthere⟩ := h [] id hid b hb
      obtain ⟨r, hr, hsome⟩ := hthere _ (List.Perm.refl _)
      obtain ⟨-, r', hr', hnone⟩ := lost_of_slot_zero hp hfile hopen hnames hb hslot hid
        (List.Perm.refl _)
      obtain rfl := Except.ok.inj (hr.symm.trans hr')
      rw [hsome] at hnone
      cases hnone
    · intro h io
      refine spares_removed hp hfile hopen fun id hid b hb hmem => ?_
      rcases mem_removed.mp hmem with ⟨id', hid', c, hc, hslot⟩ | ⟨hslot, hnames⟩
      · exact hid (hp.slot_inj id id' b c hb hc hslot.symm ▸ hid')
      · rcases h with h | h
        · exact hnames h
        · exact hid (h id b hb hslot)
  · refine iff_of_true (fun io => ?_) (.inl rfl)
    rw [removeBlocksCall, hopen]
    exact spares_self hp hfile ids

end Partition

open Rhosus.Data.Partition

/-- A partition with the blocks 1 and 2, in slots 0 and 1. -/
def writtenPair : List Call :=
  [.write [(List.replicate 36 1, [10]), (List.replicate 36 2, [20])]
    [(0, ⟨List.replicate 36 1, 1, 0⟩), (1, ⟨List.replicate 36 2, 1, 44⟩)] [] []]

theorem settled_writtenPair : ∃ p, runSteps Call.step writtenPair (.new
      ⟨defaultPartitionSize, fun _ => 0⟩ ⟨idxFileSize, fun _ => 0⟩) = some p ∧ p.Settled
    ∧ p.blocksMap.entries = [⟨List.replicate 36 2, List.replicate 36 2, 1, 44⟩,
      ⟨List.replicate 36 1, List.replicate 36 1, 1, 0⟩] := by
  obtain ⟨p, hrun⟩ : ∃ p, runSteps Call.step writtenPair (.new ⟨defaultPartitionSize, fun _ => 0⟩
      ⟨idxFileSize, fun _ => 0⟩) = some p := Option.isSome_iff_exists.mp (by decide +kernel)
  have htable : (runSteps Call.step writtenPair (.new ⟨defaultPartitionSize, fun _ => 0⟩
      ⟨idxFileSize, fun _ => 0⟩)).map (fun p => p.blocksMap.entries)
      = some [⟨List.replicate 36 2, List.replicate 36 2, 1, 44⟩,
        ⟨List.replicate 36 1, List.replicate 36 1, 1, 0⟩] := by decide +kernel
  rw [hrun] at htable
  exact ⟨p, hrun, (settled_new rfl rfl fun _ _ => rfl).run (by decide +kernel) hrun,
    Option.some.inj htable⟩

theorem removeBlocks_spares_iff_writtenPair : ∃ p, runSteps Call.step writtenPair (.new
      ⟨defaultPartitionSize, fun _ => 0⟩ ⟨idxFileSize, fun _ => 0⟩) = some p
    ∧ ∀ io, p.Spares (p.removeBlocksCall [List.replicate 36 2] io).2 [List.replicate 36 2] := by
  obtain ⟨p, hrun, hp, htable⟩ := settled_writtenPair
  refine ⟨p, hrun, (removeBlocks_spares_iff hp.indexed hp.file _).mpr (.inr (.inl ?_))⟩
  refine ⟨List.nodup_singleton _, List.forall_mem_singleton.mpr ?_⟩
  rw [AList.mem_keys, AList.keys, htable]
  decide

/-- The removal of the block 3, which is not there, loses the block 1: it is in the table after it,
and not when the partition is opened again. -/
theorem not_spares_unknown : ∃ p, runSteps Call.step writtenPair (.new
      ⟨defaultPartitionSize, fun _ => 0⟩ ⟨idxFileSize, fun _ => 0⟩) = some p
    ∧ List.replicate 36 1 ∈ (p.removeBlocksCall [List.replicate 36 3] []).2.blocksMap
    ∧ ∃ order r, (newPartition (p.removeBlocksCall [List.replicate 36 3] []).2.file
        (p.removeBlocksCall [List.replicate 36 3] []).2.idxFile).loadHeader none order = .ok r
      ∧ List.replicate 36 1 ∉ r.blocksMap := by
  obtain ⟨p, hrun, hp, htable⟩ := settled_writtenPair
  have hb : p.blocksMap.lookup (List.replicate 36 1) = some ⟨List.replicate 36 1, 1, 0⟩ := by
    rw [AList.lookup, htable]
    decide
  have hnames : ¬ p.Names [List.replicate 36 3] := by
    rintro ⟨-, hall⟩
    have := hall _ (List.mem_singleton.mpr rfl)
    rw [AList.mem_keys, AList.keys, htable] at this
    revert this
    decide
  obtain ⟨hthere, r, hr, hnone⟩ := lost_of_slot_zero hp.indexed hp.file hp.isOpen hnames hb rfl
    (by decide) (List.Perm.refl _)
  exact ⟨p, hrun, AList.lookup_isSome.mp (by rw [hthere]; rfl), _, r, hr,
    AList.lookup_eq_none.mp hnone⟩

end Rhosus.Data

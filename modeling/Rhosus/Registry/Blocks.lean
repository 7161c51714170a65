import Rhosus.Lib.Group
import Rhosus.Registry.Namespace

/-!
# The table of blocks

Whatever requests a registry serves, every block is found under its file (`blocksIndexed_served`).
So what `TransportAndRegisterBlocks` enters for a new file is what is found for it afterwards
(`getBlocks_registered`): where every node has answered for every block, each block is there once,
with its `Index` and the places that the nodes have named (`Covers.blockInfos_spec`).
-/

namespace Rhosus.Registry

section Served

variable {env : Env} {fate : Fate} {r r' : Leader} {s : Storage}

/-- Every block is found by its file. -/
structure BlocksIndexed (t : Table BlockIndex BlockInfo) : Prop where
  sound : t.Sound blocksTable
  complete : t.Complete blocksTable .fileId

theorem removeFileBlocks_indexed (file : FileInfo) (h : BlocksIndexed s.blocks) :
    BlocksIndexed (removeFileBlocks fate file s).2.blocks := by
  unfold removeFileBlocks Storage.deleteFileWithBlocks
  dsimp only
  split
  · rename_i table files hd _
    have hdel := h.sound.deleteAll _ hd
    have hblocks : BlocksIndexed table := ⟨hdel.1, hdel.2 _ h.complete⟩
    unfold Storage.remove
    cases (fate.delete file).1 <;> cases (fate.delete file).2 <;> exact hblocks
  · exact h

theorem registerBlocks_blocks (bInfos : List BlockInfo) :
    (registerBlocks env fate bInfos r).2.storage.blocks
      = (r.storage.blocks.insertAll blocksTable bInfos).getD r.storage.blocks := by
  unfold registerBlocks Storage.putBlocks
  cases fate.put <;> cases fate.write <;>
    cases r.storage.blocks.insertAll blocksTable bInfos <;> rfl

theorem storeAndWrite_blocks (file : FileInfo) :
    (storeAndWrite env fate file r).2.storage.blocks = r.storage.blocks := by
  unfold storeAndWrite Storage.storeFile
  rcases r.storage.files.insert filesTable file with _ | files
  · rfl
  · unfold Storage.put Leader.writeEntry
    cases fate.put <;> cases fate.write <;> rfl

theorem handleMakeDir_blocks (path uid : Bytes) :
    (handleMakeDir env fate path uid r).2.storage.blocks = r.storage.blocks := by
  unfold handleMakeDir
  dsimp only
  split
  · rfl
  split
  · rfl
  · rename_i parentID _
    have hstore : (storeAndWrite env fate (newDir (trim path) uid parentID) r).2.storage.blocks
      = r.storage.blocks := storeAndWrite_blocks _
    split <;> rename_i hs <;> rw [hs] at hstore <;> exact hstore

theorem registerFile_blocks (file : FileInfo) :
    (registerFile env fate file r).2.storage.blocks = r.storage.blocks := by
  unfold registerFile
  split
  · rfl
  split
  · rfl
  · exact storeAndWrite_blocks _

theorem BlocksIndexed.insertAll {t t' : Table BlockIndex BlockInfo} (h : BlocksIndexed t)
    {bInfos : List BlockInfo} (hi : t.insertAll blocksTable bInfos = some t') :
    BlocksIndexed t' :=
  ⟨(h.sound.insertAll bInfos hi).1, (h.sound.insertAll bInfos hi).2 .fileId rfl h.complete⟩

theorem BlocksIndexed.step {req : Request} (h : BlocksIndexed r.storage.blocks)
    (hstep : req.step env fate r = some r') : BlocksIndexed r'.storage.blocks := by
  cases req with
  | makeDir path uid =>
    obtain rfl := Option.some.inj hstep
    rwa [handleMakeDir_blocks]
  | transportAndRegisterBlocks fileID blocks answers order =>
    obtain rfl := Option.some.inj hstep
    rw [registerBlocks_blocks]
    rcases hi : r.storage.blocks.insertAll blocksTable _ with _ | t'
    · exact h
    · exact h.insertAll hi
  | registerFile file =>
    obtain rfl := Option.some.inj hstep
    rwa [registerFile_blocks]
  | removeFileOrPath path fuel =>
    obtain ⟨res, hres, rfl⟩ := Option.map_eq_some_iff.mp hstep
    exact handleRemoveFileOrPath_rel
      (R := fun s s' => BlocksIndexed s.blocks → BlocksIndexed s'.blocks)
      (fun _ => id) (fun _ _ _ h h' => h' ∘ h) (fun file _ => removeFileBlocks_indexed file) hres h
  | createPolicy name paths uid =>
    obtain rfl := Option.some.inj hstep
    rwa [(handleCreatePolicy_sameFiles _ _ _).2]
  | deletePolicy name =>
    obtain rfl := Option.some.inj hstep
    rwa [(handleDeletePolicy_sameFiles _).2]
  | createToken policies tokenStr now =>
    obtain rfl := Option.some.inj hstep
    rwa [(handleCreateToken_sameFiles _ _ _).2]
  | revokeToken accessor =>
    obtain rfl := Option.some.inj hstep
    rwa [(handleRevokeToken_sameFiles _).2]

theorem blocksIndexed_served {reqs : List (Request × Fate)}
    (hrun : runSteps (serve env) reqs .empty = some r) : BlocksIndexed r.storage.blocks :=
  runSteps_invariant (I := fun r => BlocksIndexed r.storage.blocks)
    (fun _ _ _ h hstep => h.step hstep) reqs ⟨Table.sound_empty, Table.complete_empty⟩ hrun

end Served

section Found

variable {sorter : Sorter} {s s' : Storage} {fileID : Bytes} {bInfos : List BlockInfo}

theorem BlocksIndexed.mem_getBlocks (h : BlocksIndexed s.blocks) {b : BlockInfo} :
    b ∈ s.getBlocks sorter fileID ↔ s.blocks.Has blocksTable b ∧ b.fileID = fileID := by
  rw [Storage.getBlocks, (sorter.perm _ _).mem_iff, Table.mem_get h.sound h.complete]
  exact Iff.rfl

theorem BlocksIndexed.nodup_getBlocks (h : BlocksIndexed s.blocks) :
    ((s.getBlocks sorter fileID).map BlockInfo.id).Nodup :=
  ((sorter.perm _ _).map _).nodup_iff.mpr (Table.nodup_get h.sound .fileId fileID)

theorem getBlocks_registered (h : BlocksIndexed s.blocks) (hnew : s.getBlocks sorter fileID = [])
    (hs' : s'.blocks = (s.blocks.insertAll blocksTable bInfos).getD s.blocks)
    (hfull : ∀ b ∈ bInfos, blocksTable.Full b) (hids : (bInfos.map BlockInfo.id).Nodup)
    (hfile : ∀ b ∈ bInfos, b.fileID = fileID) : (s'.getBlocks sorter fileID).Perm bInfos := by
  obtain ⟨t', ht', hrows⟩ := Table.insertAll_spec bInfos s.blocks hfull hids
  rw [ht', Option.getD_some] at hs'
  have hindexed : BlocksIndexed s'.blocks := hs' ▸ h.insertAll ht'
  refine (List.perm_ext_iff_of_nodup hindexed.nodup_getBlocks.of_map hids.of_map).mpr fun b => ?_
  rw [hindexed.mem_getBlocks, hs', hrows]
  constructor
  · rintro ⟨hb | ⟨hb, -⟩, hid⟩
    · exact hb
    · have hmem : b ∈ s.getBlocks sorter fileID := h.mem_getBlocks.mpr ⟨hb, hid⟩
      rw [hnew] at hmem
      cases hmem
  · exact fun hb => ⟨.inl hb, hfile b hb⟩

end Found

section Answers

variable {blocks : List Data.Block} {answers : List (Bytes × List Data.BlockPlacementInfo)}
  {order : List Bytes}

/-- The places that the nodes have named, with the blocks. -/
def placements (answers : List (Bytes × List Data.BlockPlacementInfo)) : List (Bytes × Placement) :=
  answers.flatMap fun answer => answer.2.map fun pInfo =>
    (pInfo.blockID, ⟨answer.1, pInfo.partitionID⟩)

theorem assignResult_eq (answers : List (Bytes × List Data.BlockPlacementInfo)) :
    assignResult answers = OrdMap.group (placements answers) := by
  rw [OrdMap.group, placements, List.foldl_flatMap]
  simp only [List.foldl_map]
  rfl

theorem mem_placements {e : Bytes × Placement} : e ∈ placements answers ↔
    ∃ answer ∈ answers, ∃ pInfo ∈ answer.2, pInfo.blockID = e.1
      ∧ (⟨answer.1, pInfo.partitionID⟩ : Placement) = e.2 := by
  simp only [placements, List.mem_flatMap, List.mem_map, Prod.ext_iff]

/-- Every node has answered for every block, and there is one. -/
structure Covers (blocks : List Data.Block)
    (answers : List (Bytes × List Data.BlockPlacementInfo)) : Prop where
  ids : (blocks.map Data.Block.id).Nodup
  answered : answers ≠ []
  all : ∀ answer ∈ answers,
    answer.2.map Data.BlockPlacementInfo.blockID = blocks.map Data.Block.id

theorem Covers.order_perm (h : Covers blocks answers)
    (hperm : order.Perm (assignResult answers).keys) : order.Perm (blocks.map Data.Block.id) := by
  refine hperm.trans ((List.perm_ext_iff_of_nodup Std.ExtTreeMap.nodup_keys h.ids).mpr fun id => ?_)
  rw [assignResult_eq, OrdMap.mem_keys_group]
  constructor
  · intro hid
    obtain ⟨e, he, rfl⟩ := List.mem_map.mp hid
    obtain ⟨answer, ha, pInfo, hp, hid, -⟩ := mem_placements.mp he
    rw [← h.all answer ha, ← hid]
    exact List.mem_map_of_mem hp
  · intro hid
    obtain ⟨answer, ha⟩ := List.exists_mem_of_ne_nil _ h.answered
    rw [← h.all answer ha] at hid
    obtain ⟨pInfo, hp, rfl⟩ := List.mem_map.mp hid
    exact List.mem_map.mpr ⟨(pInfo.blockID, ⟨answer.1, pInfo.partitionID⟩),
      mem_placements.mpr ⟨answer, ha, pInfo, hp, rfl, rfl⟩, rfl⟩

theorem Covers.blockInfos_spec (h : Covers blocks answers)
    (hperm : order.Perm (assignResult answers).keys) (fileID : Bytes) {info : BlockInfo}
    (hinfo : info ∈ blockInfos fileID blocks answers order) : info.fileID = fileID
      ∧ (∃ b ∈ blocks, b.id = info.id ∧ b.index = info.index) ∧ info.blocks ≠ []
      ∧ ∀ p ∈ info.blocks, ∃ answer ∈ answers, ∃ pInfo ∈ answer.2,
        pInfo.blockID = info.id ∧ (⟨answer.1, pInfo.partitionID⟩ : Placement) = p := by
  obtain ⟨id, hid, rfl⟩ := List.mem_map.mp hinfo
  refine ⟨rfl, ?_, ?_, fun p hp => ?_⟩
  · obtain ⟨b, hb, rfl⟩ := List.mem_map.mp ((h.order_perm hperm).mem_iff.mp hid)
    refine ⟨b, hb, rfl, ?_⟩
    dsimp only
    rw [blockSeq, OrdMap.get_foldl_insert h.ids b hb, Option.getD_some]
  · have hkey := hperm.mem_iff.mp hid
    rw [Std.ExtTreeMap.mem_keys, Std.ExtTreeMap.mem_iff_isSome_getElem?] at hkey
    obtain ⟨vs, hvs⟩ := Option.isSome_iff_exists.mp hkey
    dsimp only
    rw [hvs, Option.getD_some]
    rw [assignResult_eq] at hvs
    exact OrdMap.group_ne_nil hvs
  · dsimp only at hp
    rw [assignResult_eq, OrdMap.mem_group] at hp
    exact mem_placements.mp hp

end Answers

end Rhosus.Registry

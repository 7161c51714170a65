import Rhosus.Registry.Delivery

/-!
# Blocks for the nodes with the fewest

`TransportAndRegisterBlocks` over any map of nodes, with whatever the nodes answer: a call that
returns an error is only logged, and the blocks that no node has confirmed are left out of what is
registered. It panics without a node, and with two of which one has no metrics yet. Every block is
then registered with places of its own on the nodes with the fewest blocks, if and only if it does
not panic and each block is confirmed by one of these (`transportAndRegisterBlocks_places_iff`).
-/

namespace Rhosus.Registry

section Handler

/-- What becomes of the nodes map. -/
inductive NodesMove
  | addNode (id : Bytes)
  | removeNode (id : Bytes)
  /-- A node has sent its metrics to `WatchNodes`. -/
  | heartbeat (id : Bytes) (blocksUsed : Int32)

def NodesMove.step (nodes : List Node) : NodesMove → List Node
  | .addNode id => ⟨id, none⟩ :: nodes.filter fun node => node.id ≠ id
  | .removeNode id => nodes.filter fun node => node.id ≠ id
  | .heartbeat id blocksUsed => nodes.map fun node =>
    if node.id = id then { node with blocksUsed := some blocksUsed.toInt } else node

/-- What a node returns: for the blocks that its sinks take, where they are. -/
structure Answer (blocks : List Data.Block) where
  placement : List Data.BlockPlacementInfo
  ids : (placement.map Data.BlockPlacementInfo.blockID).Sublist (blocks.map Data.Block.id)

inductive Transported
  | panicked
  | returned (res : Except HandlerErr Unit × Leader)

/-- `TransportAndRegisterBlocks`, where the goroutines for the nodes end in the order `finish`, and
the result is gone through in the order `order`; nothing where these are not such orders. A node
answers with an error where `answer` has nothing. -/
def transportAndRegisterBlocks (env : Env) (fate : Fate) (table : List Node) (fileID : Bytes)
    (blocks : List Data.Block) (replicationFactor : ℤ) (answer : Bytes → Option (Answer blocks))
    (finish order : List Bytes) (leader : Leader) : Option Transported :=
  match (getNodesWithLeastBlocks env.sorter table replicationFactor).bind fun nodes =>
    blocksAssignment nodes replicationFactor blocks with
  | none => some .panicked
  | some assignment =>
    let answers := finish.filterMap fun id => (answer id).map fun a => (id, a.placement)
    if finish.Perm (assignment.map Prod.fst) ∧ order.Perm (assignResult answers).keys then
      some (.returned (registerBlocks env fate (blockInfos fileID blocks answers order) leader))
    else none

/-- At most `r` of the nodes, where none of the others has fewer blocks. -/
structure Fewest (table : List Node) (r : ℤ) (chosen : List Node) : Prop where
  length : chosen.length ≤ r
  mem : ∀ node ∈ chosen, node ∈ table
  least : ∀ node ∈ chosen, ∀ other ∈ table, other ∉ chosen →
    node.blocksUsed.getD 0 ≤ other.blocksUsed.getD 0

/-- The block is recorded with places that nodes have confirmed, each on a node of its own, at most
`r` of them and on nodes with the fewest blocks. -/
structure Placed {blocks : List Data.Block} (table : List Node) (r : ℤ)
    (answer : Bytes → Option (Answer blocks)) (fileID : Bytes) (b : Data.Block)
    (info : BlockInfo) : Prop where
  id : info.id = b.id
  fileID : info.fileID = fileID
  index : info.index = b.index
  placed : info.blocks ≠ []
  confirmed : ∀ p ∈ info.blocks, ∃ a ∈ answer p.nodeID, ∃ pInfo ∈ a.placement,
    pInfo.blockID = b.id ∧ pInfo.partitionID = p.partitionID
  few : info.blocks.length ≤ r
  distinct : (info.blocks.map Placement.nodeID).Nodup
  fewest : ∃ chosen, Fewest table r chosen ∧ ∀ p ∈ info.blocks, ∃ node ∈ chosen, node.id = p.nodeID

/-- There is no panic, and where `nil` is returned each of the blocks is in the table of blocks, and
once in the entry that is written. -/
def Transported.Places (env : Env) (table : List Node) (fileID : Bytes) (blocks : List Data.Block)
    (r : ℤ) (answer : Bytes → Option (Answer blocks)) (leader : Leader) : Transported → Prop
  | .panicked => False
  | .returned (.error _, _) => True
  | .returned (.ok _, leader') => ∃ infos : List BlockInfo,
    leader'.log = leader.log ++ [(.assignBlocks, env.pb.assignBlocks.marshal (env.id, infos))]
      ∧ ∀ b ∈ blocks, ∃ info, Placed table r answer fileID b info
        ∧ leader'.storage.blocks.Has blocksTable info
        ∧ (infos.filter fun info => info.id = b.id) = [info]

/-- The nodes that get the blocks: `r` of those with the fewest, or one where there are not so
many. -/
def targets (sorter : Sorter) (table : List Node) (r : ℤ) : List Node :=
  (sorter.sort (fun node => (node.blocksUsed.getD 0 + 2 ^ 31).toNat) table).take
    (if table.length < r then 1 else r.toNat)

end Handler

section Table

variable {table : List Node} {moves : List NodesMove}

/-- The nodes have different ids, and `BlocksUsed` is an `int32`. -/
structure ProperTable (table : List Node) : Prop where
  ids : (table.map Node.id).Nodup
  range : ∀ node ∈ table, -2 ^ 31 ≤ node.blocksUsed.getD 0

theorem ProperTable.filter (h : ProperTable table) (p : Node → Bool) :
    ProperTable (table.filter p) :=
  ⟨h.ids.sublist (List.filter_sublist.map _), fun node hnode =>
    h.range node (List.mem_of_mem_filter hnode)⟩

theorem ProperTable.step (h : ProperTable table) : ∀ move : NodesMove,
    ProperTable (NodesMove.step table move)
  | .removeNode id => h.filter _
  | .addNode id => by
    have hrest := h.filter fun node => node.id ≠ id
    refine ⟨List.nodup_cons.mpr ⟨fun hid => ?_, hrest.ids⟩, fun node hnode => ?_⟩
    · obtain ⟨node, hnode, hid⟩ := List.mem_map.mp hid
      exact (of_decide_eq_true (List.mem_filter.mp hnode).2) hid
    · rcases List.mem_cons.mp hnode with rfl | hnode
      · rw [Option.getD_none]
        decide
      · exact hrest.range node hnode
  | .heartbeat id blocksUsed => by
    refine ⟨?_, fun node hnode => ?_⟩
    · have hids : (NodesMove.step table (.heartbeat id blocksUsed)).map Node.id
          = table.map Node.id := by
        rw [NodesMove.step, List.map_map]
        refine List.map_congr_left fun node _ => ?_
        rw [Function.comp_apply]
        split_ifs <;> rfl
      rw [hids]
      exact h.ids
    · obtain ⟨old, hold, rfl⟩ := List.mem_map.mp hnode
      split_ifs
      · exact blocksUsed.le_toInt
      · exact h.range old hold

theorem ProperTable.of_moves (htable : table.Perm (moves.foldl NodesMove.step [])) :
    ProperTable table := by
  have hall : ∀ (moves : List NodesMove) {table : List Node}, ProperTable table →
      ProperTable (moves.foldl NodesMove.step table) := by
    intro moves
    induction moves with
    | nil => exact id
    | cons move moves ih => exact fun h => ih (h.step move)
  have h := hall moves (show ProperTable [] from ⟨List.nodup_nil, by simp⟩)
  exact ⟨(htable.map _).nodup_iff.mpr h.ids, fun node hnode =>
    h.range node (htable.mem_iff.mp hnode)⟩

end Table

section Targets

variable {sorter : Sorter} {table : List Node} {r : ℤ}

theorem length_targets_le (hr : 1 ≤ r) : (targets sorter table r).length ≤ r := by
  rw [targets, List.length_take]
  split_ifs <;> omega

theorem fewest_targets (h : ProperTable table) (hr : 1 ≤ r) :
    Fewest table r (targets sorter table r) := by
  have hperm := sorter.perm (fun node : Node => (node.blocksUsed.getD 0 + 2 ^ 31).toNat) table
  have hsorted := sorter.sorted (fun node : Node => (node.blocksUsed.getD 0 + 2 ^ 31).toNat) table
  refine ⟨length_targets_le hr, fun node hnode => ?_, fun node hnode other hother hnot => ?_⟩
  · exact hperm.mem_iff.mp (List.mem_of_mem_take hnode)
  · have hdrop := hperm.mem_iff.mpr hother
    rw [← List.take_append_drop (if (table.length : ℤ) < r then 1 else r.toNat)
      (sorter.sort _ table)] at hdrop
    have hle := hsorted.rel_of_mem_take_of_mem_drop hnode
      ((List.mem_append.mp hdrop).resolve_left hnot)
    have hrange := h.range node (hperm.mem_iff.mp (List.mem_of_mem_take hnode))
    have hrange' := h.range other hother
    omega

theorem nodup_targets (h : ProperTable table) :
    ((targets sorter table r).map Node.id).Nodup := by
  have hperm := sorter.perm (fun node : Node => (node.blocksUsed.getD 0 + 2 ^ 31).toNat) table
  exact ((hperm.map _).nodup_iff.mpr h.ids).sublist ((List.take_sublist _ _).map _)

/-- The nodes that get the blocks are these, or it panics. -/
theorem assignment_eq (hr : 1 ≤ r) (blocks : List Data.Block) :
    ((getNodesWithLeastBlocks sorter table r).bind fun nodes => blocksAssignment nodes r blocks)
      = if table = [] ∨ 1 < table.length ∧ ∃ node ∈ table, node.blocksUsed = none then none
        else some ((targets sorter table r).map fun node => (node.id, blocks)) := by
  have hlen :=
    (sorter.perm (fun node : Node => (node.blocksUsed.getD 0 + 2 ^ 31).toNat) table).length_eq
  unfold getNodesWithLeastBlocks targets
  by_cases hbeat : 1 < table.length ∧ ∃ node ∈ table, node.blocksUsed = none
  · rw [if_pos hbeat, if_pos (.inr hbeat), Option.bind_none]
  rw [if_neg hbeat]
  dsimp only
  generalize sorter.sort _ table = nodes at hlen ⊢
  rw [hlen]
  by_cases hfew : (table.length : ℤ) < r
  · rw [if_pos hfew, if_pos hfew, Option.bind_some, blocksAssignment, hlen, if_pos hfew]
    rcases nodes with _ | ⟨node, nodes⟩
    · rw [if_pos (.inl (List.length_eq_zero_iff.mp hlen.symm))]
      rfl
    · rw [if_neg]
      · rfl
      · rintro (rfl | hb)
        · cases hlen
        · exact hbeat hb
  · have htake : (nodes.take r.toNat).length = r.toNat := by
      rw [List.length_take]
      omega
    rw [if_neg hfew, if_neg (by omega), if_neg hfew, Option.bind_some, blocksAssignment, htake,
      if_neg (by omega), if_pos (by omega), if_neg]
    rintro (rfl | hb)
    · simp only [List.length_nil] at hfew
      omega
    · exact hbeat hb

end Targets

section Answers

variable {blocks : List Data.Block} {answer : Bytes → Option (Answer blocks)}
  {finish order : List Bytes} {id : Bytes}

/-- The answers that come in, in the order of the goroutines' ends. -/
def answersOf (answer : Bytes → Option (Answer blocks)) (finish : List Bytes) :
    List (Bytes × List Data.BlockPlacementInfo) :=
  finish.filterMap fun id => (answer id).map fun a => (id, a.placement)

theorem mem_answersOf {nodeID : Bytes} {placement : List Data.BlockPlacementInfo} :
    (nodeID, placement) ∈ answersOf answer finish
      ↔ nodeID ∈ finish ∧ ∃ a ∈ answer nodeID, a.placement = placement := by
  simp only [answersOf, List.mem_filterMap, Option.map_eq_some_iff, Prod.mk.injEq,
    Option.mem_def]
  constructor
  · rintro ⟨id, hid, a, ha, rfl, rfl⟩
    exact ⟨hid, a, ha, rfl⟩
  · rintro ⟨hid, a, ha, rfl⟩
    exact ⟨nodeID, hid, a, ha, rfl, rfl⟩

theorem mem_keys_assignResult : id ∈ (assignResult (answersOf answer finish)).keys
    ↔ ∃ nodeID ∈ finish, ∃ a ∈ answer nodeID,
      id ∈ a.placement.map Data.BlockPlacementInfo.blockID := by
  rw [assignResult_eq, OrdMap.mem_keys_group]
  constructor
  · intro hid
    obtain ⟨e, he, rfl⟩ := List.mem_map.mp hid
    obtain ⟨⟨nodeID, placement⟩, hanswer, pInfo, hp, hid, -⟩ := mem_placements.mp he
    obtain ⟨hnode, a, ha, rfl⟩ := mem_answersOf.mp hanswer
    exact ⟨nodeID, hnode, a, ha, List.mem_map.mpr ⟨pInfo, hp, hid⟩⟩
  · rintro ⟨nodeID, hnode, a, ha, hid⟩
    obtain ⟨pInfo, hp, rfl⟩ := List.mem_map.mp hid
    exact List.mem_map.mpr ⟨(pInfo.blockID, ⟨nodeID, pInfo.partitionID⟩), mem_placements.mpr
      ⟨_, mem_answersOf.mpr ⟨hnode, a, ha, rfl⟩, pInfo, hp, rfl, rfl⟩, rfl⟩

/-- What is recorded of the places of a block. -/
def placesOf (answers : List (Bytes × List Data.BlockPlacementInfo)) (id : Bytes) :
    List Placement :=
  ((assignResult answers)[id]?).getD []

theorem mem_placesOf {p : Placement} : p ∈ placesOf (answersOf answer finish) id
    ↔ p.nodeID ∈ finish ∧ ∃ a ∈ answer p.nodeID, ∃ pInfo ∈ a.placement,
      pInfo.blockID = id ∧ pInfo.partitionID = p.partitionID := by
  rw [placesOf, assignResult_eq, OrdMap.mem_group, mem_placements]
  constructor
  · rintro ⟨⟨nodeID, placement⟩, hanswer, pInfo, hp, hid, rfl⟩
    obtain ⟨hnode, a, ha, rfl⟩ := mem_answersOf.mp hanswer
    exact ⟨hnode, a, ha, pInfo, hp, hid, rfl⟩
  · rintro ⟨hnode, a, ha, pInfo, hp, hid, hpart⟩
    exact ⟨_, mem_answersOf.mpr ⟨hnode, a, ha, rfl⟩, pInfo, hp, hid, by rw [hpart]⟩

/-- A node names one place of a block at most. -/
theorem Answer.places_sublist (hids : (blocks.map Data.Block.id).Nodup) (a : Answer blocks)
    (nodeID id : Bytes) :
    (((a.placement.map fun pInfo =>
      (pInfo.blockID, (⟨nodeID, pInfo.partitionID⟩ : Placement))).filter (·.1 = id)).map
        fun e => e.2.nodeID).Sublist [nodeID] := by
  have hnodup : (a.placement.filter (·.blockID = id)).Pairwise fun p q => p.blockID ≠ q.blockID :=
    List.Pairwise.filter _ (List.pairwise_map.mp (hids.sublist a.ids))
  have hmem : ∀ p ∈ a.placement.filter (·.blockID = id), p.blockID = id := fun p hp =>
    of_decide_eq_true (List.mem_filter.mp hp).2
  have hlist : ((a.placement.map fun pInfo =>
      (pInfo.blockID, (⟨nodeID, pInfo.partitionID⟩ : Placement))).filter (·.1 = id)).map
        (fun e => e.2.nodeID) = (a.placement.filter (·.blockID = id)).map fun _ => nodeID := by
    rw [List.filter_map, List.map_map]
    rfl
  rw [hlist]
  generalize a.placement.filter (·.blockID = id) = places at hnodup hmem
  rcases places with _ | ⟨p, _ | ⟨q, ps⟩⟩
  · exact List.nil_sublist _
  · exact List.Sublist.refl _
  · refine absurd ?_ ((List.pairwise_cons.mp hnodup).1 q List.mem_cons_self)
    rw [hmem p List.mem_cons_self, hmem q (List.mem_cons_of_mem _ List.mem_cons_self)]

/-- The places of a block are on different nodes. -/
theorem placesOf_sublist (hids : (blocks.map Data.Block.id).Nodup)
    (answer : Bytes → Option (Answer blocks)) (id : Bytes) : ∀ finish : List Bytes,
    ((placesOf (answersOf answer finish) id).map Placement.nodeID).Sublist finish := by
  intro finish
  rw [placesOf, assignResult_eq, OrdMap.getD_group, List.map_map]
  induction finish with
  | nil => exact List.Sublist.refl _
  | cons nodeID finish ih =>
    rcases ha : answer nodeID with _ | a
    · rw [answersOf, List.filterMap_cons_none (by rw [ha, Option.map_none])]
      exact ih.cons _
    · rw [answersOf, List.filterMap_cons_some (by rw [ha, Option.map_some]), placements,
        List.flatMap_cons, List.filter_append, List.map_append, ← List.singleton_append]
      exact (a.places_sublist hids nodeID id).append ih

end Answers

section Places

variable {env : Env} {fate : Fate} {table : List Node} {fileID : Bytes} {blocks : List Data.Block}
  {r : ℤ} {answer : Bytes → Option (Answer blocks)} {finish order : List Bytes} {leader : Leader}

theorem transportAndRegisterBlocks_panics (hr : 1 ≤ r)
    (h : table = [] ∨ 1 < table.length ∧ ∃ node ∈ table, node.blocksUsed = none) :
    transportAndRegisterBlocks env fate table fileID blocks r answer finish order leader
      = some .panicked := by
  rw [transportAndRegisterBlocks, assignment_eq hr, if_pos h]

theorem transportAndRegisterBlocks_eq (hr : 1 ≤ r)
    (h : ¬ (table = [] ∨ 1 < table.length ∧ ∃ node ∈ table, node.blocksUsed = none)) :
    transportAndRegisterBlocks env fate table fileID blocks r answer finish order leader
      = if finish.Perm ((targets env.sorter table r).map Node.id)
            ∧ order.Perm (assignResult (answersOf answer finish)).keys then
          some (.returned (registerBlocks env fate
            (blockInfos fileID blocks (answersOf answer finish) order) leader))
        else none := by
  rw [transportAndRegisterBlocks, assignment_eq hr, if_neg h]
  dsimp only
  rw [List.map_map]
  rfl

theorem registerBlocks_ok {bInfos : List BlockInfo} {u : Unit} {leader' : Leader}
    (h : registerBlocks env fate bInfos leader = (.ok u, leader')) : leader'.log
      = leader.log ++ [(.assignBlocks, env.pb.assignBlocks.marshal (env.id, bInfos))] := by
  rcases hw : fate.write with _ | _ <;> simp only [registerBlocks, Leader.writeEntry, hw,
    Bool.false_eq_true, if_false, if_true] at h
  · cases h
  · obtain ⟨-, rfl⟩ := Prod.mk.inj h
    rfl

theorem placed_blockInfo (htable : ProperTable table) (hids : (blocks.map Data.Block.id).Nodup)
    (hr : 1 ≤ r) (hfinish : finish.Perm ((targets env.sorter table r).map Node.id))
    {b : Data.Block} (hb : b ∈ blocks)
    (hkey : b.id ∈ (assignResult (answersOf answer finish)).keys) :
    Placed table r answer fileID b
      ⟨b.id, ((blockSeq blocks)[b.id]?).getD 0, 0, fileID,
        placesOf (answersOf answer finish) b.id⟩ := by
  have hsub := placesOf_sublist hids answer b.id finish
  have hnodup : finish.Nodup := hfinish.nodup_iff.mpr (nodup_targets htable)
  refine ⟨rfl, rfl, ?_, ?_, fun p hp => (mem_placesOf.mp hp).2, ?_, hnodup.sublist hsub,
    targets env.sorter table r, fewest_targets htable hr, fun p hp => ?_⟩
  · dsimp only
    rw [blockSeq, OrdMap.get_foldl_insert hids b hb, Option.getD_some]
  · obtain ⟨nodeID, hnode, a, ha, hid⟩ := mem_keys_assignResult.mp hkey
    obtain ⟨pInfo, hp, hid⟩ := List.mem_map.mp hid
    exact List.ne_nil_of_mem (mem_placesOf (p := ⟨nodeID, pInfo.partitionID⟩).mpr
      ⟨hnode, a, ha, pInfo, hp, hid, rfl⟩)
  · have hle := hsub.length_le
    rw [List.length_map, hfinish.length_eq, List.length_map] at hle
    exact (Int.ofNat_le.mpr hle).trans (length_targets_le hr)
  · obtain ⟨node, hnode, hid⟩ := List.mem_map.mp (hfinish.mem_iff.mp (mem_placesOf.mp hp).1)
    exact ⟨node, hnode, hid⟩

theorem filter_blockInfos (fileID : Bytes) (blocks : List Data.Block)
    (answers : List (Bytes × List Data.BlockPlacementInfo)) (hnodup : order.Nodup) {id : Bytes}
    (hid : id ∈ order) :
    ((blockInfos fileID blocks answers order).filter fun info => info.id = id)
      = [⟨id, ((blockSeq blocks)[id]?).getD 0, 0, fileID, placesOf answers id⟩] := by
  rw [blockInfos, List.filter_map]
  change ((order.filter fun blockID => blockID = id).map _) = _
  rw [List.filter_eq, List.count_eq_one_of_mem hnodup hid]
  rfl

theorem full_of_has {bInfos : List BlockInfo} (h : BlocksIndexed leader.storage.blocks)
    {info : BlockInfo} (hinfo : (registerBlocks env fate bInfos leader).2.storage.blocks.Has
      blocksTable info) : blocksTable.Full info := by
  rw [registerBlocks_blocks] at hinfo
  rcases hins : leader.storage.blocks.insertAll blocksTable bInfos with _ | t <;>
    rw [hins] at hinfo
  · exact h.sound.full hinfo
  · exact (h.insertAll hins).sound.full hinfo

theorem map_id_blockInfos (fileID : Bytes) (blocks : List Data.Block)
    (answers : List (Bytes × List Data.BlockPlacementInfo)) (order : List Bytes) :
    (blockInfos fileID blocks answers order).map BlockInfo.id = order := by
  rw [blockInfos, List.map_map]
  exact List.map_id order

/-- A block that is registered has been confirmed by a node. -/
theorem confirmed_of_places (h : BlocksIndexed leader.storage.blocks)
    (horder : order.Perm (assignResult (answersOf answer finish)).keys)
    (hplaces : (Transported.returned (registerBlocks env .fine
      (blockInfos fileID blocks (answersOf answer finish) order) leader)).Places
        env table fileID blocks r answer leader) {b : Data.Block} (hb : b ∈ blocks) :
    fileID ≠ [] ∧ b.id ≠ [] ∧ ∃ nodeID ∈ finish, ∃ a ∈ answer nodeID,
      b.id ∈ a.placement.map Data.BlockPlacementInfo.blockID := by
  have hres : (registerBlocks env .fine
      (blockInfos fileID blocks (answersOf answer finish) order) leader).1 = .ok () := rfl
  have hfull : ∀ {info : BlockInfo}, (registerBlocks env .fine (blockInfos fileID blocks
      (answersOf answer finish) order) leader).2.storage.blocks.Has blocksTable info →
        blocksTable.Full info := full_of_has h
  rcases hreg : registerBlocks env .fine
    (blockInfos fileID blocks (answersOf answer finish) order) leader with ⟨_ | u, leader'⟩ <;>
    rw [hreg] at hres hplaces hfull
  · cases hres
  obtain ⟨infos, hlog, hblocks⟩ := hplaces
  obtain ⟨info, hplaced, hhas, hone⟩ := hblocks b hb
  rw [registerBlocks_ok hreg] at hlog
  -- the entry that is written says what is registered
  have hbytes := (Prod.mk.inj (List.cons.inj (List.append_cancel_left hlog)).1).2
  obtain ⟨-, rfl⟩ := Prod.mk.inj (env.pb.assignBlocks.marshal_injective hbytes)
  refine ⟨hplaced.fileID ▸ (hfull hhas).2 .fileId, hplaced.id ▸ (hfull hhas).1, ?_⟩
  have hmem := List.mem_map_of_mem (f := BlockInfo.id)
    (List.mem_of_mem_filter (hone ▸ List.mem_singleton_self info))
  rw [map_id_blockInfos, hplaced.id] at hmem
  exact mem_keys_assignResult.mp (horder.mem_iff.mp hmem)

/-- Blocks that the nodes have confirmed are registered. -/
theorem places_of_confirmed (htable : ProperTable table) (hids : (blocks.map Data.Block.id).Nodup)
    (hr : 1 ≤ r) (hfinish : finish.Perm ((targets env.sorter table r).map Node.id))
    (horder : order.Perm (assignResult (answersOf answer finish)).keys)
    (hall : ∀ b ∈ blocks, fileID ≠ [] ∧ b.id ≠ [] ∧ ∃ nodeID ∈ finish, ∃ a ∈ answer nodeID,
      b.id ∈ a.placement.map Data.BlockPlacementInfo.blockID) :
    (Transported.returned (registerBlocks env fate
      (blockInfos fileID blocks (answersOf answer finish) order) leader)).Places
        env table fileID blocks r answer leader := by
  have hnodup : order.Nodup := horder.nodup_iff.mpr Std.ExtTreeMap.nodup_keys
  have hrecorded := map_id_blockInfos fileID blocks (answersOf answer finish) order
  -- all that is recorded has its ids
  have hfull : ∀ info ∈ blockInfos fileID blocks (answersOf answer finish) order,
      blocksTable.Full info := by
    intro info hinfo
    obtain ⟨id, hid, rfl⟩ := List.mem_map.mp hinfo
    obtain ⟨nodeID, -, a, -, hid⟩ := mem_keys_assignResult.mp (horder.mem_iff.mp hid)
    obtain ⟨c, hc, rfl⟩ := List.mem_map.mp (a.ids.subset hid)
    exact ⟨(hall c hc).2.1, fun _ => (hall c hc).1⟩
  obtain ⟨t, hins, hrows⟩ :=
    Table.insertAll_spec _ leader.storage.blocks hfull (hrecorded.symm ▸ hnodup)
  have hblocks : (registerBlocks env fate (blockInfos fileID blocks (answersOf answer finish)
    order) leader).2.storage.blocks = _ := registerBlocks_blocks _
  rcases hreg : registerBlocks env fate
    (blockInfos fileID blocks (answersOf answer finish) order) leader with ⟨_ | u, leader'⟩
  · trivial
  rw [hreg, hins, Option.getD_some] at hblocks
  refine ⟨_, registerBlocks_ok hreg, fun b hb => ?_⟩
  have hkey := mem_keys_assignResult.mpr (hall b hb).2.2
  have hone := filter_blockInfos fileID blocks (answersOf answer finish) hnodup
    (horder.mem_iff.mpr hkey)
  refine ⟨_, placed_blockInfo htable hids hr hfinish hb hkey, ?_, hone⟩
  rw [hblocks, hrows]
  exact .inl (List.mem_of_mem_filter (hone ▸ List.mem_singleton_self _))

end Places

/-- Whatever the fate of the writes, the order in which the nodes answer and that of the result:
there is no panic, and where `nil` is returned every block is recorded and logged once, with places
that nodes have confirmed, on different nodes with the fewest blocks and at most
`replicationFactor`; if and only if there is a node, no two of which one has not been heartbeated,
and for every block the file and the block have ids and a node that it is sent to confirms it. -/
theorem transportAndRegisterBlocks_places_iff (env : Env) (moves : List NodesMove)
    {table : List Node} (htable : table.Perm (moves.foldl NodesMove.step [])) (fileID : Bytes)
    {blocks : List Data.Block} (hids : (blocks.map Data.Block.id).Nodup) {replicationFactor : ℤ}
    (hr : 1 ≤ replicationFactor) (answer : Bytes → Option (Answer blocks)) (leader : Leader)
    (h : BlocksIndexed leader.storage.blocks) :
    (∀ fate finish order out, transportAndRegisterBlocks env fate table fileID blocks
      replicationFactor answer finish order leader = some out →
        out.Places env table fileID blocks replicationFactor answer leader)
      ↔ (table ≠ [] ∧ (1 < table.length → ∀ node ∈ table, node.blocksUsed ≠ none))
        ∧ ∀ b ∈ blocks, fileID ≠ [] ∧ b.id ≠ []
          ∧ ∃ node ∈ targets env.sorter table replicationFactor, ∃ a ∈ answer node.id,
            b.id ∈ a.placement.map Data.BlockPlacementInfo.blockID := by
  constructor
  · intro hall
    have hsafe : ¬ (table = [] ∨ 1 < table.length ∧ ∃ node ∈ table, node.blocksUsed = none) :=
      fun hpanic => hall .fine [] [] .panicked (transportAndRegisterBlocks_panics hr hpanic)
    refine ⟨⟨fun hnil => hsafe (.inl hnil), fun htwo node hnode hnone =>
      hsafe (.inr ⟨htwo, node, hnode, hnone⟩)⟩, fun b hb => ?_⟩
    -- a run in which nothing fails
    have hplaces := hall .fine _ _ _
      ((transportAndRegisterBlocks_eq hr hsafe).trans (if_pos ⟨.refl _, .refl _⟩))
    obtain ⟨hfile, hid, nodeID, hnode, hconfirms⟩ := confirmed_of_places h (.refl _) hplaces hb
    obtain ⟨node, htarget, rfl⟩ := List.mem_map.mp hnode
    exact ⟨hfile, hid, node, htarget, hconfirms⟩
  · rintro ⟨⟨hne, hbeat⟩, hall⟩ fate finish order out hout
    have hsafe : ¬ (table = [] ∨ 1 < table.length ∧ ∃ node ∈ table, node.blocksUsed = none) := by
      rintro (hnil | ⟨htwo, node, hnode, hnone⟩)
      · exact hne hnil
      · exact hbeat htwo node hnode hnone
    rw [transportAndRegisterBlocks_eq hr hsafe] at hout
    split_ifs at hout with horders
    obtain rfl := Option.some.inj hout
    refine places_of_confirmed (.of_moves htable) hids hr horders.1 horders.2 fun b hb => ?_
    obtain ⟨hfile, hid, node, hnode, hconfirms⟩ := hall b hb
    exact ⟨hfile, hid, node.id, horders.1.mem_iff.mpr (List.mem_map_of_mem hnode), hconfirms⟩

/-- The node has both blocks in its partition `[9]`. -/
def bothTaken : Answer twoBlocks :=
  ⟨[⟨[2], [9], true⟩, ⟨[1], [9], true⟩], by decide⟩

theorem transportAndRegisterBlocks_places_iff_bothTaken :
    (twoBlocks.map Data.Block.id).Nodup ∧ ∀ fate finish order out,
      transportAndRegisterBlocks someEnv fate [⟨[7], some 0⟩] [5] twoBlocks 2
        (fun _ => some bothTaken) finish order .empty = some out →
      out.Places someEnv [⟨[7], some 0⟩] [5] twoBlocks 2 (fun _ => some bothTaken) .empty := by
  have hindexed : BlocksIndexed Leader.empty.storage.blocks :=
    ⟨Table.sound_empty, Table.complete_empty⟩
  refine ⟨cut_twoBlocks.ids, (transportAndRegisterBlocks_places_iff someEnv
    [.addNode [7], .heartbeat [7] 0] (by decide) [5] cut_twoBlocks.ids (by decide) _ .empty
    hindexed).mpr ⟨⟨by decide, by decide⟩, fun b hb => ?_⟩⟩
  have htarget : (⟨[7], some 0⟩ : Node) ∈ targets someEnv.sorter [⟨[7], some 0⟩] 2 := by
    decide +kernel
  refine ⟨by decide, cut_twoBlocks.named b hb, _, htarget, bothTaken, rfl, ?_⟩
  exact List.mem_map_of_mem (f := Data.Block.id) hb

/-- Without a node there is a panic, and so with two of which one has not been heartbeated. Where
the only node refuses the call, `nil` is returned and no block is recorded. -/
theorem not_places_refused : [.addNode [7], .heartbeat [7] 0].foldl NodesMove.step []
      = [⟨[7], some 0⟩]
    ∧ transportAndRegisterBlocks someEnv .fine [] [5] twoBlocks 2 (fun _ => none) [] [] .empty
      = some .panicked
    ∧ transportAndRegisterBlocks someEnv .fine [⟨[8], none⟩, ⟨[7], some 0⟩] [5] twoBlocks 2
      (fun _ => none) [] [] .empty = some .panicked
    ∧ ∃ leader, transportAndRegisterBlocks someEnv .fine [⟨[7], some 0⟩] [5] twoBlocks 2
        (fun _ => none) [[7]] [] .empty = some (.returned (.ok (), leader))
      ∧ ¬ (Transported.returned (.ok (), leader)).Places someEnv [⟨[7], some 0⟩] [5] twoBlocks 2
        (fun _ => none) .empty := by
  refine ⟨by decide, transportAndRegisterBlocks_panics (by decide) (.inl rfl),
    transportAndRegisterBlocks_panics (by decide) (.inr (by decide)),
    (registerBlocks someEnv .fine [] .empty).2, ?_, ?_⟩
  · rw [transportAndRegisterBlocks_eq (by decide) (by decide), if_pos (by decide +kernel)]
    rfl
  · rintro ⟨infos, -, hblocks⟩
    obtain ⟨info, hplaced, -⟩ := hblocks ⟨[1], 0, 2, [10, 11]⟩ (by decide)
    obtain ⟨p, hp⟩ := List.exists_mem_of_ne_nil _ hplaced.placed
    obtain ⟨a, ha, -⟩ := hplaced.confirmed p hp
    cases ha

end Rhosus.Registry

import Rhosus.Registry.Download
import Rhosus.Registry.Removal

/-!
# Removals on the data nodes

`RemoveFileBlocks` groups the places of a file's blocks by their nodes and calls each node by a
goroutine, which takes the node from the nodes map without a look whether it is there. What the
nodes answer is only logged, and then the file is deleted with its blocks. So the file is deleted
only when its blocks are gone from the nodes if and only if each node with one of them is in the
map, and confirms, or there is no such file to delete (`removeFileBlocksOn_forgets_iff`).
-/

namespace Rhosus.Registry

section Handler

/-- How a node meets a call of `RemoveBlocks`. -/
inductive Removing
  /-- The call returns an error. -/
  | fails
  /-- `Success` is false. -/
  | refuses
  | confirms
  deriving DecidableEq

/-- The places of the blocks by their nodes. -/
def placesByNode (blocks : List BlockInfo) : OrdMap Bytes (List Data.BlockPlacementInfo) :=
  blocks.foldl (fun m block => block.blocks.foldl (fun m p =>
    m.insert p.nodeID ((m[p.nodeID]?).getD [] ++ [⟨block.id, p.partitionID, false⟩])) m) ∅

/-- The calls that the goroutines make one after the other; `false` where one finds no node, which
ends them all. -/
def callEach (nodes : Bytes → Option Removing)
    (bMap : OrdMap Bytes (List Data.BlockPlacementInfo)) :
    List Bytes → Bool × List (Bytes × List Data.BlockPlacementInfo)
  | [] => (true, [])
  | id :: ids =>
    match nodes id with
    | none => (false, [])
    | some _ =>
      let (ok, calls) := callEach nodes bMap ids
      (ok, (id, (bMap[id]?).getD []) :: calls)

inductive Discarded
  | panicked
  /-- With the calls that were made. -/
  | returned (calls : List (Bytes × List Data.BlockPlacementInfo))
      (res : Except Err Unit × Storage)

/-- `RemoveFileBlocks`, with the goroutines in the order `sched`; nothing where that is not one of
theirs. The answers are logged. -/
def removeFileBlocksOn (nodes : Bytes → Option Removing) (sorter : Sorter) (fate : Fate)
    (sched : List Bytes) (file : FileInfo) (s : Storage) : Option Discarded :=
  let bMap := placesByNode (s.getBlocks sorter file.id)
  if sched.Perm bMap.keys then
    match callEach nodes bMap sched with
    | (false, _) => some .panicked
    | (true, calls) => some (.returned calls (removeFileBlocks fate file s))
  else none

def placedOn (blocks : List BlockInfo) (id : Bytes) : List Data.BlockPlacementInfo :=
  blocks.flatMap fun block => (block.blocks.filter (·.nodeID = id)).map fun p =>
    ⟨block.id, p.partitionID, false⟩

/-- Each node with some of the blocks is called once, with these. -/
structure Told (blocks : List BlockInfo)
    (calls : List (Bytes × List Data.BlockPlacementInfo)) : Prop where
  once : (calls.map Prod.fst).Nodup
  some : ∀ call ∈ calls, call.2 ≠ []
  all : ∀ id, (calls.filter (·.1 = id)).flatMap Prod.snd = placedOn blocks id

/-- Every node with one of the blocks has confirmed. -/
def Confirmed (nodes : Bytes → Option Removing) (blocks : List BlockInfo) : Prop :=
  ∀ block ∈ blocks, ∀ p ∈ block.blocks, nodes p.nodeID = some .confirms

/-- There is no panic, each node is told what to remove, and the storage is changed only where all
have confirmed; where `nil` is returned, that is so and the file is deleted with its blocks. -/
def Discarded.Forgets (nodes : Bytes → Option Removing) (sorter : Sorter) (file : FileInfo)
    (s : Storage) : Discarded → Prop
  | .panicked => False
  | .returned calls (res, s') => Told (s.getBlocks sorter file.id) calls
    ∧ (s' ≠ s → Confirmed nodes (s.getBlocks sorter file.id))
    ∧ (res = .ok () → Confirmed nodes (s.getBlocks sorter file.id)
      ∧ (∀ f, s'.Stored f ↔ s.Stored f ∧ f.id ≠ file.id)
      ∧ ∀ b, s'.HasBlock b ↔ s.HasBlock b ∧ b.fileID ≠ file.id)

end Handler

section Calls

variable {nodes : Bytes → Option Removing} {blocks : List BlockInfo} {id : Bytes}
  {bMap : OrdMap Bytes (List Data.BlockPlacementInfo)} {sched : List Bytes}

/-- Where the blocks are, with the nodes. -/
def allPlaces (blocks : List BlockInfo) : List (Bytes × Data.BlockPlacementInfo) :=
  blocks.flatMap fun block => block.blocks.map fun p =>
    (p.nodeID, ⟨block.id, p.partitionID, false⟩)

theorem placesByNode_eq (blocks : List BlockInfo) :
    placesByNode blocks = OrdMap.group (allPlaces blocks) := by
  rw [OrdMap.group, allPlaces, List.foldl_flatMap]
  simp only [List.foldl_map]
  rfl

theorem getD_placesByNode (blocks : List BlockInfo) (id : Bytes) :
    ((placesByNode blocks)[id]?).getD [] = placedOn blocks id := by
  rw [placesByNode_eq, OrdMap.getD_group, allPlaces, placedOn, List.filter_flatMap,
    List.map_flatMap]
  refine List.flatMap_congr fun block _ => ?_
  rw [List.filter_map, List.map_map]
  rfl

theorem mem_keys_placesByNode : id ∈ (placesByNode blocks).keys
    ↔ ∃ block ∈ blocks, ∃ p ∈ block.blocks, p.nodeID = id := by
  rw [placesByNode_eq, OrdMap.mem_keys_group, allPlaces, List.map_flatMap]
  simp only [List.mem_flatMap, List.mem_map, exists_exists_and_eq_and]

theorem placedOn_ne_nil (hid : id ∈ (placesByNode blocks).keys) : placedOn blocks id ≠ [] := by
  obtain ⟨block, hblock, p, hp, rfl⟩ := mem_keys_placesByNode.mp hid
  refine List.ne_nil_of_mem (List.mem_flatMap.mpr ⟨block, hblock, List.mem_map.mpr ⟨p, ?_, rfl⟩⟩)
  exact List.mem_filter.mpr ⟨hp, by simp⟩

theorem placedOn_eq_nil (hid : id ∉ (placesByNode blocks).keys) : placedOn blocks id = [] := by
  refine List.flatMap_eq_nil_iff.mpr fun block hblock => ?_
  rw [List.map_eq_nil_iff, List.filter_eq_nil_iff]
  exact fun p hp hpid => hid (mem_keys_placesByNode.mpr ⟨block, hblock, p, hp, by simpa using hpid⟩)

theorem callEach_eq : ∀ {sched : List Bytes}, (∀ id ∈ sched, (nodes id).isSome) →
    callEach nodes bMap sched = (true, sched.map fun id => (id, (bMap[id]?).getD []))
  | [], _ => rfl
  | id :: sched, h => by
    obtain ⟨reply, hreply⟩ := Option.isSome_iff_exists.mp (h id List.mem_cons_self)
    rw [callEach, hreply, callEach_eq fun id hid => h id (List.mem_cons_of_mem _ hid)]
    rfl

theorem callEach_panics : ∀ {sched : List Bytes}, id ∈ sched → nodes id = none →
    (callEach nodes bMap sched).1 = false
  | id' :: sched, hid, hnone => by
    rw [callEach]
    rcases hid' : nodes id' with _ | reply
    · rfl
    · rcases List.mem_cons.mp hid with rfl | hid
      · rw [hnone] at hid'
        cases hid'
      · exact callEach_panics hid hnone

theorem told_of_perm (hsched : sched.Perm (placesByNode blocks).keys) :
    Told blocks (sched.map fun id => (id, ((placesByNode blocks)[id]?).getD [])) := by
  have hnodup : sched.Nodup := hsched.nodup_iff.mpr Std.ExtTreeMap.nodup_keys
  refine ⟨?_, fun call hcall => ?_, fun id => ?_⟩
  · rw [List.map_map]
    exact (List.map_id sched).symm ▸ hnodup
  · obtain ⟨id, hid, rfl⟩ := List.mem_map.mp hcall
    rw [getD_placesByNode]
    exact placedOn_ne_nil (hsched.mem_iff.mp hid)
  · rw [List.filter_map, List.flatMap_map]
    change (sched.filter fun id' => id' = id).flatMap _ = _
    rw [List.filter_eq]
    by_cases hid : id ∈ sched
    · rw [List.count_eq_one_of_mem hnodup hid, List.replicate_one, List.flatMap_singleton,
        getD_placesByNode]
    · rw [List.count_eq_zero_of_not_mem hid, placedOn_eq_nil fun hkey =>
        hid (hsched.mem_iff.mpr hkey)]
      rfl

end Calls

section Forgets

variable {nodes : Bytes → Option Removing} {sorter : Sorter} {fate : Fate} {sched : List Bytes}
  {file : FileInfo} {s : Storage}

/-- Where the nodes are in the map, what becomes of the storage is what becomes of it without
them. -/
theorem removeFileBlocksOn_eq
    (hall : ∀ id ∈ (placesByNode (s.getBlocks sorter file.id)).keys, (nodes id).isSome)
    (hsched : sched.Perm (placesByNode (s.getBlocks sorter file.id)).keys) :
    removeFileBlocksOn nodes sorter fate sched file s
      = some (.returned (sched.map fun id =>
          (id, ((placesByNode (s.getBlocks sorter file.id))[id]?).getD []))
          (removeFileBlocks fate file s)) := by
  rw [removeFileBlocksOn, if_pos hsched, callEach_eq fun id hid => hall id (hsched.mem_iff.mp hid)]

theorem removeFileBlocksOn_panics {id : Bytes}
    (hid : id ∈ (placesByNode (s.getBlocks sorter file.id)).keys) (hnone : nodes id = none)
    (hsched : sched.Perm (placesByNode (s.getBlocks sorter file.id)).keys) :
    removeFileBlocksOn nodes sorter fate sched file s = some .panicked := by
  rw [removeFileBlocksOn, if_pos hsched]
  have hpanics : (callEach nodes (placesByNode (s.getBlocks sorter file.id)) sched).1 = false :=
    callEach_panics (hsched.mem_iff.mpr hid) hnone
  rcases hcalls : callEach nodes (placesByNode (s.getBlocks sorter file.id)) sched
    with ⟨ok, calls⟩
  rw [hcalls] at hpanics
  obtain rfl : ok = false := hpanics
  rfl

/-- The deletion fails, and changes nothing, only where there is no such file. -/
theorem removeFileBlocks_cases (fate : Fate) (file : FileInfo) (h : BlocksIndexed s.blocks) :
    s.getFile file.id = none ∧ (∃ e, removeFileBlocks fate file s = (.error e, s))
      ∨ (s.getFile file.id).isSome ∧ ∃ s', removeFileBlocks fate file s = (.ok (), s') := by
  obtain ⟨table, htable, -⟩ := Table.deleteAll_spec (s.blocks.get .fileId file.id) h.sound
    (fun b hm => ((Table.mem_get h.sound h.complete).mp hm).1)
    (Table.nodup_get h.sound .fileId file.id)
  unfold removeFileBlocks Storage.deleteFileWithBlocks Table.delete
  dsimp only
  rw [htable]
  rcases hfile : s.getFile file.id with _ | old <;>
    rw [show s.files.byId[filesTable.id file]? = _ from hfile]
  · exact .inl ⟨rfl, _, rfl⟩
  · exact .inr ⟨rfl, _, rfl⟩

end Forgets

/-- Whatever the order of the goroutines and the fate of the deletions, there is no panic, each node
is sent its places of the blocks and nothing else, and the file is deleted with its blocks, and
`nil` returned, only if every node with one of them has confirmed; if and only if every such node is
in the nodes map, and confirms, unless the file is not stored. -/
theorem removeFileBlocksOn_forgets_iff (nodes : Bytes → Option Removing) (sorter : Sorter)
    (file : FileInfo) (s : Storage) (h : BlocksIndexed s.blocks) :
    (∀ fate sched out, removeFileBlocksOn nodes sorter fate sched file s = some out →
      out.Forgets nodes sorter file s)
      ↔ (∀ block ∈ s.getBlocks sorter file.id, ∀ p ∈ block.blocks, (nodes p.nodeID).isSome)
        ∧ (s.getFile file.id = none
          ∨ ∀ block ∈ s.getBlocks sorter file.id, ∀ p ∈ block.blocks,
            nodes p.nodeID = some .confirms) := by
  constructor
  · intro hall
    have hknown : ∀ block ∈ s.getBlocks sorter file.id, ∀ p ∈ block.blocks,
        (nodes p.nodeID).isSome := by
      intro block hblock p hp
      rcases hnode : nodes p.nodeID with _ | reply
      · have hkey := mem_keys_placesByNode.mpr ⟨block, hblock, p, hp, rfl⟩
        exact (hall .fine _ _ (removeFileBlocksOn_panics hkey hnode (.refl _))).elim
      · rfl
    refine ⟨hknown, ?_⟩
    have hkeys : ∀ id ∈ (placesByNode (s.getBlocks sorter file.id)).keys, (nodes id).isSome := by
      intro id hid
      obtain ⟨block, hblock, p, hp, rfl⟩ := mem_keys_placesByNode.mp hid
      exact hknown block hblock p hp
    have hforgets := hall .fine _ _ (removeFileBlocksOn_eq hkeys (.refl _))
    rcases removeFileBlocks_cases .fine file h with ⟨hno, -⟩ | ⟨-, s', hs'⟩
    · exact .inl hno
    · rw [hs'] at hforgets
      exact .inr (hforgets.2.2 rfl).1
  · rintro ⟨hknown, hconfirmed⟩ fate sched out hout
    have hsched : sched.Perm (placesByNode (s.getBlocks sorter file.id)).keys := by
      by_contra hno
      rw [removeFileBlocksOn, if_neg hno] at hout
      cases hout
    rw [removeFileBlocksOn_eq (fun id hid => by
      obtain ⟨block, hblock, p, hp, rfl⟩ := mem_keys_placesByNode.mp hid
      exact hknown block hblock p hp) hsched] at hout
    obtain rfl := Option.some.inj hout
    rcases removeFileBlocks_cases fate file h with ⟨-, e, hs'⟩ | ⟨hstored, s', hs'⟩
    · rw [hs']
      exact ⟨told_of_perm hsched, fun hne => absurd rfl hne, fun hok => by cases hok⟩
    · have hall : Confirmed nodes (s.getBlocks sorter file.id) := by
        refine hconfirmed.resolve_left fun hno => ?_
        rw [hno] at hstored
        cases hstored
      rw [hs']
      exact ⟨told_of_perm hsched, fun _ => hall, fun _ => ⟨hall, removeFileBlocks_spec h hs'⟩⟩

theorem removeFileBlocksOn_forgets_iff_confirms : BlocksIndexed oneBlock.blocks
    ∧ ∀ fate sched out, removeFileBlocksOn (fun _ => some .confirms) someEnv.sorter fate sched
      someFile oneBlock = some out →
        out.Forgets (fun _ => some .confirms) someEnv.sorter someFile oneBlock :=
  ⟨blocksIndexed_oneBlock, (removeFileBlocksOn_forgets_iff _ someEnv.sorter someFile oneBlock
    blocksIndexed_oneBlock).mpr ⟨fun _ _ _ _ => rfl, .inr fun _ _ _ _ => rfl⟩⟩

/-- There is a panic where the node of the only block has left. Where it refuses to remove the
block, the file is deleted all the same. -/
theorem not_forgets_refused :
    removeFileBlocksOn (fun _ => none) someEnv.sorter .fine [[7]] someFile oneBlock
      = some .panicked
    ∧ ∃ s', removeFileBlocksOn (fun _ => some .refuses) someEnv.sorter .fine [[7]] someFile oneBlock
        = some (.returned [([7], [⟨[1], [9], false⟩])] (.ok (), s'))
      ∧ (oneBlock.getFile [5]).isSome ∧ s'.getFile [5] = none
      ∧ ¬ (Discarded.returned [([7], [⟨[1], [9], false⟩])] (.ok (), s')).Forgets
        (fun _ => some .refuses) someEnv.sorter someFile oneBlock := by
  have hblocks : oneBlock.getBlocks someEnv.sorter [5] = [⟨[1], 0, 0, [5], [⟨[7], [9]⟩]⟩] := by
    decide +kernel
  have hkeys : (placesByNode (oneBlock.getBlocks someEnv.sorter someFile.id)).keys = [[7]] := by
    rw [show someFile.id = [5] from rfl, hblocks]
    decide +kernel
  have hstored : (oneBlock.getFile [5]).isSome := by decide +kernel
  refine ⟨removeFileBlocksOn_panics (hkeys ▸ List.mem_singleton_self _) rfl (by rw [hkeys]), ?_⟩
  rcases removeFileBlocks_cases .fine someFile blocksIndexed_oneBlock with ⟨hno, -⟩ | ⟨-, s', hs'⟩
  · rw [show someFile.id = [5] from rfl] at hno
    rw [hno] at hstored
    cases hstored
  refine ⟨s', ?_, hstored, removeFileBlocks_gone hs', fun hforgets => ?_⟩
  · rw [removeFileBlocksOn_eq (fun _ _ => rfl) (by rw [hkeys]), hs', List.map_singleton,
      getD_placesByNode, show someFile.id = [5] from rfl, hblocks]
    rfl
  · have hconfirmed := (hforgets.2.2 rfl).1
    rw [show someFile.id = [5] from rfl, hblocks] at hconfirmed
    cases hconfirmed _ List.mem_cons_self ⟨[7], [9]⟩ List.mem_cons_self

end Rhosus.Registry

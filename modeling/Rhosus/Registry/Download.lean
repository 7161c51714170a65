import Rhosus.Data.Absent
import Rhosus.Lib.Appends
import Rhosus.Registry.Delivery

/-!
# Downloads from nodes that may fail

`GetFileHandler` over a map of nodes of which some are gone, refuse the call, break off the stream
or answer. A goroutine whose call returns an error ends without a word, and one whose stream breaks
off receives the error again and again; the goroutines add what they have to the result without a
lock. So the blocks are sent all, in order and with their data, exactly if one node has all of them
and reads them (`getFileHandler_complete_iff`).
-/

namespace Rhosus.Registry

section Handler

/-- How a node meets a call of `GetBlocks`. -/
inductive Peer
  /-- The call returns an error. -/
  | refuses
  /-- The stream breaks off. -/
  | fails
  /-- The node sends the blocks, of which it may fail to read some. -/
  | answers (node : Data.DataNode) (mishap : Bytes → Mishap)

abbrev NodesMap := Bytes → Option Peer

/-- What the stream brings; nothing where it ends in an error. -/
def stream (node : Data.DataNode) (mishap : Bytes → Mishap) :
    List Data.BlockPlacementInfo → Option (List (Option Data.Block))
  | [] => some []
  | p :: ps =>
    match node.readBlock p (mishap p.blockID) with
    | .error _ => none
    | .ok b => (stream node mishap ps).map (b :: ·)

inductive Reply
  | error
  /-- The error of the stream is received again and again. -/
  | endless
  | blocks (dBlocks : List (Option Data.Block))

/-- `GetBlocks` of the nodes map -/
def NodesMap.getBlocks (nodes : NodesMap) (nodeID : Bytes)
    (blocks : List Data.BlockPlacementInfo) : Reply :=
  match nodes nodeID with
  | none => .error
  | some .refuses => .error
  | some .fails => .endless
  | some (.answers node mishap) =>
    match stream node mishap blocks with
    | none => .endless
    | some dBlocks => .blocks dBlocks

def Reply.isEndless : Reply → Bool
  | .endless => true
  | _ => false

/-- What a goroutine adds to the result, if it does. -/
def Reply.got : Reply → Option (List (Option Data.Block))
  | .blocks dBlocks => some dBlocks
  | _ => none

inductive Download
  | noSuchFileOrDirectory
  | panicked
  | endless
  /-- The calls of `transport`; `nil` is returned. -/
  | sent (blocks : List Data.Block)

def sendBlocks (sorter : Sorter) (blocks : List BlockInfo) (result : List (Option Data.Block)) :
    Download :=
  match fillAndSortBlocks sorter blocks result with
  | none => .panicked
  | some sent => .sent sent

/-- `GetFileHandler`, with the loads and stores of the result in some order; nothing where not all
goroutines come to their end in it. -/
def getFileHandler (sorter : Sorter) (nodes : NodesMap) (path : Bytes)
    (sched : List Appends.Label) (s : Storage) : Option Download :=
  match s.getFileByPath path with
  | none => some .noSuchFileOrDirectory
  | some file =>
    let blocks := s.getBlocks sorter file.id
    match blocksByNode blocks with
    -- a block without a place
    | none => some .panicked
    | some bMap =>
      let replies := bMap.toList.map fun e => nodes.getBlocks e.1 e.2
      if replies.any Reply.isEndless then some .endless
      else
        (Appends.gather (replies.filterMap Reply.got) sched).map (sendBlocks sorter blocks)

/-- The blocks that are recorded for the file at a path. -/
def Storage.blocksAt (sorter : Sorter) (path : Bytes) (s : Storage) : List BlockInfo :=
  match s.getFileByPath path with
  | none => []
  | some file => s.getBlocks sorter file.id

/-- The node has the block where it is looked for, with this data. -/
def Keeps (nodes : NodesMap) (e : Bytes × Data.BlockPlacementInfo) (data : Bytes) : Prop :=
  ∃ node mishap sink, nodes e.1 = some (.answers node mishap)
    ∧ node.parts.lookup e.2.partitionID = some sink ∧ sink.part.Stores e.2.blockID data

/-- Every block is sent once, in the order of their `Index`es and with its data. -/
structure Whole (nodes : NodesMap) (infos : List BlockInfo) (sent : List Data.Block) : Prop where
  ids : (sent.map Data.Block.id).Perm (infos.map BlockInfo.id)
  sorted : sent.Pairwise fun b c => b.index ≤ c.index
  data : ∀ b ∈ sent, ∃ info ∈ infos, info.id = b.id ∧ info.index = b.index
    ∧ ∃ e ∈ firstPlace info, Keeps nodes e b.data

/-- An error is returned, or `nil` when every block has been sent. -/
def Download.Complete (nodes : NodesMap) (infos : List BlockInfo) : Download → Prop
  | .noSuchFileOrDirectory => True
  | .panicked => False
  | .endless => False
  | .sent blocks => Whole nodes infos blocks

/-- The node is up, and it has the block and reads it; to read no bytes cannot fail. -/
def Serves (nodes : NodesMap) (e : Bytes × Data.BlockPlacementInfo) (data : Bytes) : Prop :=
  ∃ node mishap sink, nodes e.1 = some (.answers node mishap) ∧ node.shutdown = false
    ∧ node.parts.lookup e.2.partitionID = some sink ∧ sink.part.closed = false
    ∧ sink.part.Stores e.2.blockID data ∧ (mishap e.2.blockID = none ∨ data = [])

end Handler

section Replies

variable {nodes : NodesMap} {nodeID : Bytes} {ps : List Data.BlockPlacementInfo}
  {p : Data.BlockPlacementInfo} {d : Bytes} {dBlocks : List (Option Data.Block)}

def Reads (nodes : NodesMap) (nodeID : Bytes) (p : Data.BlockPlacementInfo)
    (b : Option Data.Block) : Prop :=
  ∃ node mishap, nodes nodeID = some (.answers node mishap)
    ∧ node.readBlock p (mishap p.blockID) = .ok b

theorem Serves.keeps (h : Serves nodes (nodeID, p) d) : Keeps nodes (nodeID, p) d := by
  obtain ⟨node, mishap, sink, hnode, -, hsink, -, hst, -⟩ := h
  exact ⟨node, mishap, sink, hnode, hsink, hst⟩

theorem Serves.reads (h : Serves nodes (nodeID, p) d) :
    Reads nodes nodeID p (some ⟨p.blockID, 0, d.length, d⟩) := by
  obtain ⟨node, mishap, sink, hnode, hdown, hsink, hopen, hst, hio⟩ := h
  refine ⟨node, mishap, hnode, ?_⟩
  rw [Data.DataNode.readBlock_eq hdown hsink hopen, hst.readOne_eq, if_pos hio]

theorem Keeps.serves {b : Data.Block} (h : Keeps nodes (nodeID, p) d)
    (hread : Reads nodes nodeID p (some b)) : Serves nodes (nodeID, p) d := by
  obtain ⟨node, mishap, sink, hnode, hsink, hst⟩ := h
  obtain ⟨node', mishap', hnode', hread⟩ := hread
  dsimp only at hnode hsink hst
  rw [hnode] at hnode'
  obtain ⟨rfl, rfl⟩ := Peer.answers.inj (Option.some.inj hnode')
  have hdown : node.shutdown = false := by
    by_contra hdown
    rw [Bool.not_eq_false] at hdown
    simp [Data.DataNode.readBlock, hdown] at hread
  have hopen : sink.part.closed = false := by
    by_contra hclosed
    rw [Bool.not_eq_false] at hclosed
    simp [Data.DataNode.readBlock, hdown, hsink, Data.Partition.readBlocks, hclosed] at hread
  refine ⟨node, mishap, sink, hnode, hdown, hsink, hopen, hst, ?_⟩
  by_contra hfails
  rw [Data.DataNode.readBlock_eq hdown hsink hopen, hst.readOne_eq, if_neg hfails] at hread
  cases hread

theorem stream_eq_some {node : Data.DataNode} {mishap : Bytes → Mishap} :
    ∀ {ps : List Data.BlockPlacementInfo} {dBlocks : List (Option Data.Block)},
      stream node mishap ps = some dBlocks
        ↔ List.Forall₂ (fun p b => node.readBlock p (mishap p.blockID) = .ok b) ps dBlocks
  | [], dBlocks => by simp [stream, eq_comm]
  | p :: ps, dBlocks => by
    rw [stream]
    rcases hread : node.readBlock p (mishap p.blockID) with e | b
    · simp [List.forall₂_cons_left_iff, hread]
    · simp [List.forall₂_cons_left_iff, hread, stream_eq_some, eq_comm]

theorem NodesMap.getBlocks_reads (h : nodes.getBlocks nodeID ps = .blocks dBlocks) :
    List.Forall₂ (Reads nodes nodeID) ps dBlocks := by
  unfold getBlocks at h
  rcases hnode : nodes nodeID with _ | _ | _ | ⟨node, mishap⟩ <;> rw [hnode] at h <;>
    dsimp only at h
  · cases h
  · cases h
  · cases h
  · rcases hstream : stream node mishap ps with _ | bs <;> rw [hstream] at h
    · cases h
    · obtain rfl := Reply.blocks.inj h
      exact (stream_eq_some.mp hstream).imp fun p b hread => ⟨node, mishap, hnode, hread⟩

theorem NodesMap.exists_read (h : nodes.getBlocks nodeID ps = .blocks dBlocks) (hp : p ∈ ps) :
    ∃ b ∈ dBlocks, Reads nodes nodeID p b := by
  have hreads := getBlocks_reads h
  obtain ⟨i, hi, rfl⟩ := List.getElem_of_mem hp
  have hi' : i < dBlocks.length := hreads.length_eq ▸ hi
  exact ⟨dBlocks[i], List.getElem_mem hi', hreads.get hi hi'⟩

theorem NodesMap.getBlocks_of_reads (hne : ps ≠ [])
    (h : List.Forall₂ (Reads nodes nodeID) ps dBlocks) :
    nodes.getBlocks nodeID ps = .blocks dBlocks := by
  obtain ⟨p, ps, rfl⟩ := List.exists_cons_of_ne_nil hne
  obtain ⟨b, bs, ⟨node, mishap, hnode, -⟩, -, rfl⟩ := List.forall₂_cons_left_iff.mp h
  have hstream : stream node mishap (p :: ps) = some (b :: bs) := by
    refine stream_eq_some.mpr (h.imp fun q c => ?_)
    rintro ⟨node', mishap', hnode', hread⟩
    obtain ⟨rfl, rfl⟩ := Peer.answers.inj (Option.some.inj (hnode.symm.trans hnode'))
    exact hread
  simp only [getBlocks, hnode, hstream]

end Replies

section Groups

variable {infos : List BlockInfo} {e : Bytes × List Data.BlockPlacementInfo}

/-- The nodes with the blocks that each is asked for. -/
def groups (infos : List BlockInfo) : List (Bytes × List Data.BlockPlacementInfo) :=
  (OrdMap.group (infos.filterMap firstPlace)).toList

theorem mem_firstPlace (he : e ∈ groups infos) {p : Data.BlockPlacementInfo} :
    p ∈ e.2 ↔ ∃ info ∈ infos, firstPlace info = some (e.1, p) := by
  have hget := Std.ExtTreeMap.mem_toList_iff_getElem?_eq_some.mp he
  rw [← List.mem_filterMap, ← OrdMap.mem_group, hget, Option.getD_some]

theorem groups_ne_nil (he : e ∈ groups infos) : e.2 ≠ [] :=
  OrdMap.group_ne_nil (Std.ExtTreeMap.mem_toList_iff_getElem?_eq_some.mp he)

theorem exists_group {info : BlockInfo} (hinfo : info ∈ infos)
    {place : Bytes × Data.BlockPlacementInfo} (hplace : firstPlace info = some place) :
    ∃ ps, (place.1, ps) ∈ groups infos ∧ place.2 ∈ ps := by
  have hmem : place.2 ∈ ((OrdMap.group (infos.filterMap firstPlace))[place.1]?).getD [] :=
    OrdMap.mem_group.mpr (List.mem_filterMap.mpr ⟨info, hinfo, hplace⟩)
  rcases hget : (OrdMap.group (infos.filterMap firstPlace))[place.1]? with _ | ps <;>
    rw [hget] at hmem
  · cases hmem
  · exact ⟨ps, Std.ExtTreeMap.mem_toList_iff_getElem?_eq_some.mpr hget, hmem⟩

theorem groups_ids_perm (hplaced : ∀ info ∈ infos, info.blocks ≠ []) :
    (((groups infos).flatMap Prod.snd).map Data.BlockPlacementInfo.blockID).Perm
      (infos.map BlockInfo.id) := by
  refine ((OrdMap.toList_group_perm (infos.filterMap firstPlace)).map _).trans (.of_eq ?_)
  rw [List.map_map, ← map_firstPlace hplaced]
  rfl

theorem length_groups (hplaced : ∀ info ∈ infos, info.blocks ≠ []) :
    ((groups infos).flatMap Prod.snd).length = infos.length := by
  simpa using (groups_ids_perm hplaced).length_eq

/-- A block without a place is the one that panics. -/
theorem blocksByNode_eq_none {info : BlockInfo} (hinfo : info ∈ infos) (hno : info.blocks = []) :
    blocksByNode infos = none := by
  have hfold : ∀ (infos : List BlockInfo) (m : OrdMap Bytes (List Data.BlockPlacementInfo)),
      info ∈ infos → infos.foldlM (fun m block => block.blocks.head?.map fun p =>
        m.insert p.nodeID ((m[p.nodeID]?).getD [] ++ [⟨block.id, p.partitionID, false⟩])) m
          = none := by
    intro infos
    induction infos with
    | nil => exact fun _ h => absurd h List.not_mem_nil
    | cons info' infos ih =>
      intro m h
      rw [List.foldlM_cons]
      rcases List.mem_cons.mp h with rfl | h
      · rw [hno]
        rfl
      · rcases info'.blocks.head? with _ | p
        · rfl
        · exact ih _ h
  exact hfold infos ∅ hinfo

end Groups

section Answers

variable {nodes : NodesMap} {es : List (Bytes × List Data.BlockPlacementInfo)}

def answered (nodes : NodesMap) (es : List (Bytes × List Data.BlockPlacementInfo)) :
    List (List (Option Data.Block)) :=
  (es.map fun e => nodes.getBlocks e.1 e.2).filterMap Reply.got

theorem answered_cons (e : Bytes × List Data.BlockPlacementInfo) :
    answered nodes (e :: es) = ((nodes.getBlocks e.1 e.2).got).toList ++ answered nodes es := by
  rw [answered, List.map_cons, List.filterMap_cons]
  rcases (nodes.getBlocks e.1 e.2).got with _ | dBlocks <;> rfl

theorem length_of_got {nodeID : Bytes} {ps : List Data.BlockPlacementInfo}
    {dBlocks : List (Option Data.Block)} (h : (nodes.getBlocks nodeID ps).got = some dBlocks) :
    nodes.getBlocks nodeID ps = .blocks dBlocks ∧ dBlocks.length = ps.length := by
  rcases hreply : nodes.getBlocks nodeID ps with _ | _ | bs <;> rw [hreply] at h
  · cases h
  · cases h
  · obtain rfl := Option.some.inj h
    exact ⟨rfl, (NodesMap.getBlocks_reads hreply).length_eq.symm⟩

theorem length_answered_le (nodes : NodesMap) : ∀ es : List (Bytes × List Data.BlockPlacementInfo),
    (answered nodes es).flatten.length ≤ (es.flatMap Prod.snd).length
  | [] => Nat.le_refl _
  | e :: es => by
    have ih := length_answered_le nodes es
    rw [answered_cons, List.flatMap_cons, List.flatten_append, List.length_append,
      List.length_append]
    rcases hgot : (nodes.getBlocks e.1 e.2).got with _ | dBlocks
    · rw [Option.toList_none, List.flatten_nil, List.length_nil]
      omega
    · rw [Option.toList_some, List.flatten_singleton, (length_of_got hgot).2]
      omega

/-- Where no block is missing, every node has answered. -/
theorem replied_of_length : ∀ {es : List (Bytes × List Data.BlockPlacementInfo)},
    (∀ e ∈ es, e.2 ≠ []) →
    (es.flatMap Prod.snd).length ≤ (answered nodes es).flatten.length →
      ∀ e ∈ es, ∃ dBlocks, nodes.getBlocks e.1 e.2 = .blocks dBlocks
  | e :: es, hne, hlen, e', he' => by
    have hle := length_answered_le nodes es
    have hpos := List.length_pos_of_ne_nil (hne e List.mem_cons_self)
    rw [answered_cons, List.flatMap_cons, List.flatten_append, List.length_append,
      List.length_append] at hlen
    rcases hgot : (nodes.getBlocks e.1 e.2).got with _ | dBlocks <;> rw [hgot] at hlen
    · rw [Option.toList_none, List.flatten_nil, List.length_nil] at hlen
      omega
    · rw [Option.toList_some, List.flatten_singleton, (length_of_got hgot).2] at hlen
      rcases List.mem_cons.mp he' with rfl | he'
      · exact ⟨dBlocks, (length_of_got hgot).1⟩
      · exact replied_of_length (fun e he => hne e (List.mem_cons_of_mem _ he)) (by omega) e' he'

theorem mem_answered {e : Bytes × List Data.BlockPlacementInfo} (he : e ∈ es)
    {dBlocks : List (Option Data.Block)} (h : nodes.getBlocks e.1 e.2 = .blocks dBlocks) :
    dBlocks ∈ answered nodes es :=
  List.mem_filterMap.mpr ⟨_, List.mem_map_of_mem he, by rw [h]; rfl⟩

theorem answered_serves : ∀ {es : List (Bytes × List Data.BlockPlacementInfo)},
    (∀ e ∈ es, e.2 ≠ []) → (∀ e ∈ es, ∀ p ∈ e.2, ∃ d, Serves nodes (e.1, p) d) →
      (∀ e ∈ es, ∃ dBlocks, nodes.getBlocks e.1 e.2 = .blocks dBlocks)
      ∧ ∃ bs : List Data.Block, (answered nodes es).flatten = bs.map some
        ∧ bs.map Data.Block.id = (es.flatMap Prod.snd).map Data.BlockPlacementInfo.blockID
        ∧ ∀ b ∈ bs, ∃ e ∈ es, ∃ p ∈ e.2, p.blockID = b.id ∧ Serves nodes (e.1, p) b.data
  | [], _, _ => ⟨by simp, [], rfl, rfl, by simp⟩
  | e :: es, hne, hserves => by
    obtain ⟨hrest, bs, hbs, hids, hdata⟩ := answered_serves
      (fun e he => hne e (List.mem_cons_of_mem _ he))
      fun e he => hserves e (List.mem_cons_of_mem _ he)
    choose! d hd using hserves e List.mem_cons_self
    let own : List Data.Block := e.2.map fun p => ⟨p.blockID, 0, (d p).length, d p⟩
    have hreply : nodes.getBlocks e.1 e.2 = .blocks (own.map some) := by
      refine NodesMap.getBlocks_of_reads (hne e List.mem_cons_self) ?_
      rw [List.map_map, List.forall₂_map_right_iff]
      exact List.forall₂_same.mpr fun p hp => (hd p hp).reads
    refine ⟨fun e' he' => ?_, own ++ bs, ?_, ?_, fun b hb => ?_⟩
    · rcases List.mem_cons.mp he' with rfl | he'
      · exact ⟨_, hreply⟩
      · exact hrest e' he'
    · rw [answered_cons, hreply, Reply.got, Option.toList_some, List.flatten_append,
        List.flatten_singleton, hbs, List.map_append]
    · rw [List.map_append, List.flatMap_cons, List.map_append, hids, List.map_map]
      rfl
    · rcases List.mem_append.mp hb with hb | hb
      · obtain ⟨p, hp, rfl⟩ := List.mem_map.mp hb
        exact ⟨e, List.mem_cons_self, p, hp, rfl, hd p hp⟩
      · obtain ⟨e', he', hp⟩ := hdata b hb
        exact ⟨e', List.mem_cons_of_mem _ he', hp⟩

end Answers

section Sorted

variable {sorter : Sorter} {infos : List BlockInfo} {result : List (Option Data.Block)}
  {sent : List Data.Block}

theorem mapM_id_eq_some {α : Type} : ∀ {os : List (Option α)} {xs : List α},
    os.mapM id = some xs → os = xs.map some
  | [], xs, h => by
    obtain rfl := Option.some.inj h
    rfl
  | o :: os, xs, h => by
    rw [List.mapM_cons] at h
    obtain ⟨x, hx, h⟩ := Option.bind_eq_some_iff.mp h
    obtain ⟨ys, hys, h⟩ := Option.bind_eq_some_iff.mp h
    obtain rfl := Option.some.inj h
    rw [mapM_id_eq_some hys, List.map_cons, ← show o = some x from hx]

def indexOf (infos : List BlockInfo) (id : Bytes) : ℕ :=
  ((infos.foldl (fun m block => m.insert block.id block.index)
    (∅ : OrdMap Bytes ℕ))[id]?).getD 0

theorem indexOf_eq (hids : (infos.map BlockInfo.id).Nodup) {info : BlockInfo}
    (hinfo : info ∈ infos) : indexOf infos info.id = info.index := by
  rw [indexOf, OrdMap.get_foldl_insert hids info hinfo, Option.getD_some]

/-- None of the blocks was `nil`, and they are sorted by what is recorded about them. -/
theorem fillAndSortBlocks_eq_some (h : fillAndSortBlocks sorter infos result = some sent) :
    ∃ bs : List Data.Block, result = bs.map some
      ∧ sent.Perm (bs.map fun b => { b with index := indexOf infos b.id })
      ∧ sent.Pairwise fun b c => b.index ≤ c.index := by
  unfold fillAndSortBlocks at h
  obtain ⟨bs, hbs, rfl⟩ := Option.map_eq_some_iff.mp h
  have hperm := sorter.perm (fun block : Data.Block => indexOf infos block.id)
    (bs.map fun b => { b with index := indexOf infos b.id })
  have hsorted := sorter.sorted (fun block : Data.Block => indexOf infos block.id)
    (bs.map fun b => { b with index := indexOf infos b.id })
  refine ⟨bs, mapM_id_eq_some hbs, hperm, hsorted.imp_of_mem fun {b c} hb hc hbc => ?_⟩
  obtain ⟨b', -, rfl⟩ := List.mem_map.mp (hperm.mem_iff.mp hb)
  obtain ⟨c', -, rfl⟩ := List.mem_map.mp (hperm.mem_iff.mp hc)
  exact hbc

theorem indexOf_injOn (hids : (infos.map BlockInfo.id).Nodup)
    (hindexes : (infos.map BlockInfo.index).Nodup) :
    Set.InjOn (indexOf infos) { id | id ∈ infos.map BlockInfo.id } := by
  intro id hid id' hid' h
  obtain ⟨info, hinfo, rfl⟩ := List.mem_map.mp hid
  obtain ⟨info', hinfo', rfl⟩ := List.mem_map.mp hid'
  rw [indexOf_eq hids hinfo, indexOf_eq hids hinfo'] at h
  rw [List.inj_on_of_nodup_map hindexes hinfo hinfo' h]

/-- Different blocks of the list have different indexes, so that the order is strict. -/
theorem fillAndSortBlocks_lt {blocks : List Data.Block}
    (hids : (infos.map BlockInfo.id).Nodup) (hindexes : (infos.map BlockInfo.index).Nodup)
    (hnodup : (blocks.map Data.Block.id).Nodup)
    (hfrom : ∀ b ∈ blocks, b.id ∈ infos.map BlockInfo.id)
    (h : fillAndSortBlocks sorter infos (blocks.map some) = some sent) :
    sent.Perm (blocks.map fun b => { b with index := indexOf infos b.id })
      ∧ sent.Pairwise fun b c => b.index < c.index := by
  obtain ⟨bs, hbs, hperm, hsorted⟩ := fillAndSortBlocks_eq_some h
  obtain rfl := List.map_injective_iff.mpr (Option.some_injective _) hbs
  have hne : (blocks.map fun b => { b with index := indexOf infos b.id }).Pairwise
      fun b c : Data.Block => b.index ≠ c.index := by
    refine List.pairwise_map.mpr ((List.pairwise_map.mp hnodup).imp_of_mem ?_)
    intro b c hb hc hbc heq
    exact hbc (indexOf_injOn hids hindexes (hfrom b hb) (hfrom c hc) heq)
  have hne := hperm.symm.pairwise hne Ne.symm
  exact ⟨hperm, (hsorted.and hne).imp fun h => Nat.lt_of_le_of_ne h.1 h.2⟩

/-- Whatever order the answers come in, and whatever `sort.Slice` does with equal items, the
blocks are the same: those that came, each with the `Index` that is recorded for it. -/
theorem fillAndSortBlocks_perm (sorter sorter' : Sorter) (infos : List BlockInfo)
    (blocks blocks' : List Data.Block) (hids : (infos.map BlockInfo.id).Nodup)
    (hindexes : (infos.map BlockInfo.index).Nodup)
    (hnodup : (blocks.map Data.Block.id).Nodup)
    (hfrom : ∀ b ∈ blocks, b.id ∈ infos.map BlockInfo.id) (hperm : blocks'.Perm blocks) :
    ∃ sent, fillAndSortBlocks sorter infos (blocks.map some) = some sent
      ∧ fillAndSortBlocks sorter' infos (blocks'.map some) = some sent
      ∧ (sent.map fun b => (b.id, b.len, b.data)).Perm
          (blocks.map fun b => (b.id, b.len, b.data))
      ∧ sent.Pairwise (fun b c => b.index < c.index)
      ∧ ∀ b ∈ sent, ∃ info ∈ infos, info.id = b.id ∧ b.index = info.index := by
  have hsome : ∀ (s : Sorter) (bs : List Data.Block),
      ∃ sent, fillAndSortBlocks s infos (bs.map some) = some sent := fun s bs =>
    ⟨_, by rw [fillAndSortBlocks, mapM_id_map_some, Option.map_some]⟩
  obtain ⟨sent, hsent⟩ := hsome sorter blocks
  obtain ⟨sent', hsent'⟩ := hsome sorter' blocks'
  obtain ⟨hsentPerm, hlt⟩ := fillAndSortBlocks_lt hids hindexes hnodup hfrom hsent
  obtain ⟨hsentPerm', hlt'⟩ := fillAndSortBlocks_lt hids hindexes
    ((hperm.map Data.Block.id).nodup_iff.mpr hnodup) (fun b hb => hfrom b (hperm.mem_iff.mp hb))
    hsent'
  -- two lists that increase and hold the same blocks
  have heq : sent' = sent :=
    (hsentPerm'.trans ((hperm.map _).trans hsentPerm.symm)).eq_of_pairwise
      (fun b c _ _ h h' => absurd h (Nat.lt_asymm h')) hlt' hlt
  subst heq
  refine ⟨sent', hsent, hsent', ?_, hlt, fun b hb => ?_⟩
  · have := hsentPerm.map fun b : Data.Block => (b.id, b.len, b.data)
    rwa [List.map_map] at this
  · obtain ⟨c, hc, rfl⟩ := List.mem_map.mp (hsentPerm.mem_iff.mp hb)
    obtain ⟨info, hinfo, hid⟩ := List.mem_map.mp (hfrom c hc)
    refine ⟨info, hinfo, hid, ?_⟩
    rw [← indexOf_eq hids hinfo, hid]

theorem fillAndSortBlocks_perm_two : ∃ sent,
    fillAndSortBlocks someEnv.sorter [⟨[1], 1, 2, [5], []⟩, ⟨[2], 0, 2, [5], []⟩]
        ([⟨[1], 0, 2, [10, 11]⟩, ⟨[2], 0, 2, [12, 13]⟩].map some) = some sent
      ∧ fillAndSortBlocks someEnv.sorter [⟨[1], 1, 2, [5], []⟩, ⟨[2], 0, 2, [5], []⟩]
        ([⟨[2], 0, 2, [12, 13]⟩, ⟨[1], 0, 2, [10, 11]⟩].map some) = some sent := by
  obtain ⟨sent, h, h', -⟩ := fillAndSortBlocks_perm someEnv.sorter someEnv.sorter
    [⟨[1], 1, 2, [5], []⟩, ⟨[2], 0, 2, [5], []⟩] [⟨[1], 0, 2, [10, 11]⟩, ⟨[2], 0, 2, [12, 13]⟩]
    [⟨[2], 0, 2, [12, 13]⟩, ⟨[1], 0, 2, [10, 11]⟩] (by decide) (by decide) (by decide)
    (by decide) (by decide)
  exact ⟨sent, h, h'⟩

theorem Whole.length_eq {nodes : NodesMap} (h : Whole nodes infos sent) :
    sent.length = infos.length := by
  simpa using h.ids.length_eq

end Sorted

section Complete

variable {sorter : Sorter} {nodes : NodesMap} {path : Bytes} {s : Storage} {file : FileInfo}
  {sched : List Appends.Label} {infos : List BlockInfo} {result : List (Option Data.Block)}

theorem blocksAt_eq (hfile : s.getFileByPath path = some file) :
    s.blocksAt sorter path = s.getBlocks sorter file.id := by
  rw [Storage.blocksAt, hfile]

theorem getFileHandler_endless (hfile : s.getFileByPath path = some file)
    (hplaced : ∀ info ∈ s.blocksAt sorter path, info.blocks ≠ [])
    {e : Bytes × List Data.BlockPlacementInfo} (he : e ∈ groups (s.blocksAt sorter path))
    (hend : (nodes.getBlocks e.1 e.2).isEndless = true) :
    getFileHandler sorter nodes path sched s = some .endless := by
  rw [blocksAt_eq hfile] at hplaced he
  simp only [getFileHandler, hfile, blocksByNode_eq hplaced]
  exact if_pos (List.any_eq_true.mpr ⟨_, List.mem_map_of_mem he, hend⟩)

theorem getFileHandler_eq (hfile : s.getFileByPath path = some file)
    (hplaced : ∀ info ∈ s.blocksAt sorter path, info.blocks ≠ [])
    (hend : ∀ e ∈ groups (s.blocksAt sorter path),
      ¬ (nodes.getBlocks e.1 e.2).isEndless = true) :
    getFileHandler sorter nodes path sched s
      = (Appends.gather (answered nodes (groups (s.blocksAt sorter path))) sched).map
          (sendBlocks sorter (s.blocksAt sorter path)) := by
  rw [blocksAt_eq hfile] at hplaced hend ⊢
  simp only [getFileHandler, hfile, blocksByNode_eq hplaced]
  refine if_neg fun hany => ?_
  obtain ⟨_, hr, hr'⟩ := List.any_eq_true.mp hany
  obtain ⟨e, he, rfl⟩ := List.mem_map.mp hr
  exact hend e he hr'

theorem complete_sendBlocks (h : (sendBlocks sorter infos result).Complete nodes infos) :
    ∃ sent, fillAndSortBlocks sorter infos result = some sent ∧ Whole nodes infos sent := by
  unfold sendBlocks at h
  rcases hsent : fillAndSortBlocks sorter infos result with _ | sent <;> rw [hsent] at h
  · exact h.elim
  · exact ⟨sent, rfl, h⟩

theorem length_of_complete (h : (sendBlocks sorter infos result).Complete nodes infos) :
    result.length = infos.length := by
  obtain ⟨sent, hsent, hwhole⟩ := complete_sendBlocks h
  obtain ⟨bs, rfl, hperm, -⟩ := fillAndSortBlocks_eq_some hsent
  rw [← hwhole.length_eq, hperm.length_eq, List.length_map, List.length_map]

/-- Where the answers of the nodes are sent as they should, each node has answered and has the
blocks. -/
theorem serves_of_complete (hids : (infos.map BlockInfo.id).Nodup)
    (hplaced : ∀ info ∈ infos, info.blocks ≠ [])
    (h : (sendBlocks sorter infos (answered nodes (groups infos)).flatten).Complete nodes infos) :
    (∀ e ∈ groups infos, ∃ dBlocks, nodes.getBlocks e.1 e.2 = .blocks dBlocks)
      ∧ ∀ info ∈ infos, ∃ e ∈ firstPlace info, ∃ d, Serves nodes e d := by
  have hlen : ((groups infos).flatMap Prod.snd).length
      ≤ (answered nodes (groups infos)).flatten.length := by
    rw [length_groups hplaced, length_of_complete h]
  have hreplied := replied_of_length (fun e he => groups_ne_nil he) hlen
  refine ⟨hreplied, fun info hinfo => ?_⟩
  obtain ⟨sent, hsent, hwhole⟩ := complete_sendBlocks h
  obtain ⟨bs, hbs, -⟩ := fillAndSortBlocks_eq_some hsent
  -- the block that was sent with this id
  obtain ⟨b, hb, hid⟩ := List.mem_map.mp (hwhole.ids.mem_iff.mpr (List.mem_map_of_mem hinfo))
  obtain ⟨info', hinfo', hid', -, place, hplace, hkeeps⟩ := hwhole.data b hb
  obtain rfl : info' = info := List.inj_on_of_nodup_map hids hinfo' hinfo (hid'.trans hid)
  refine ⟨place, hplace, b.data, ?_⟩
  -- what its node has read of it is in the result
  obtain ⟨ps, hps, hp⟩ := exists_group hinfo hplace
  obtain ⟨dBlocks, hreply⟩ := hreplied _ hps
  obtain ⟨o, ho, hread⟩ := NodesMap.exists_read hreply hp
  have hmem : o ∈ bs.map some := hbs ▸ List.mem_flatten_of_mem (mem_answered hps hreply) ho
  obtain ⟨c, -, rfl⟩ := List.mem_map.mp hmem
  exact hkeeps.serves hread

/-- Nodes that have the blocks answer, and the answers one after the other are what is sent. -/
theorem whole_of_serves (sorter : Sorter) (hids : (infos.map BlockInfo.id).Nodup)
    (hserves : ∀ info ∈ infos, ∃ e ∈ firstPlace info, ∃ d, Serves nodes e d) :
    (∀ e ∈ groups infos, ∃ dBlocks, nodes.getBlocks e.1 e.2 = .blocks dBlocks)
      ∧ (sendBlocks sorter infos (answered nodes (groups infos)).flatten).Complete nodes infos := by
  have hplaced : ∀ info ∈ infos, info.blocks ≠ [] := fun info hinfo hno => by
    obtain ⟨e, he, -⟩ := hserves info hinfo
    simp [firstPlace, hno] at he
  have hgroups : ∀ e ∈ groups infos, ∀ p ∈ e.2, ∃ d, Serves nodes (e.1, p) d := by
    intro e he p hp
    obtain ⟨info, hinfo, hplace⟩ := (mem_firstPlace he).mp hp
    obtain ⟨e', he', d, hd⟩ := hserves info hinfo
    obtain rfl := Option.some.inj (hplace.symm.trans he')
    exact ⟨d, hd⟩
  obtain ⟨hreplied, bs, hbs, hbids, hdata⟩ :=
    answered_serves (fun e he => groups_ne_nil he) hgroups
  refine ⟨hreplied, ?_⟩
  rw [hbs]
  obtain ⟨sent, hsent⟩ : ∃ sent, fillAndSortBlocks sorter infos (bs.map some) = some sent :=
    ⟨_, by rw [fillAndSortBlocks, mapM_id_map_some, Option.map_some]⟩
  obtain ⟨cs, hcs, hperm, hsorted⟩ := fillAndSortBlocks_eq_some hsent
  obtain rfl : bs = cs := List.map_injective_iff.mpr (Option.some_injective _) hcs
  simp only [sendBlocks, hsent]
  refine ⟨?_, hsorted, fun b hb => ?_⟩
  · refine ((hperm.map _).trans (.of_eq ?_)).trans (groups_ids_perm hplaced)
    rw [← hbids, List.map_map]
    rfl
  · obtain ⟨c, hc, rfl⟩ := List.mem_map.mp (hperm.mem_iff.mp hb)
    obtain ⟨e, he, p, hp, hpid, hd⟩ := hdata c hc
    obtain ⟨info, hinfo, hplace⟩ := (mem_firstPlace he).mp hp
    have hid : info.id = c.id := by
      obtain ⟨q, -, hq⟩ := Option.map_eq_some_iff.mp hplace
      rw [← hpid, ← (Prod.mk.inj hq).2]
    exact ⟨info, hinfo, hid, hid ▸ (indexOf_eq hids hinfo).symm, _, hplace, hd.keeps⟩

/-- The goroutines are at most one if the blocks are on one node. -/
theorem length_groups_le_one (hone : ∀ info ∈ infos, ∀ info' ∈ infos,
    (firstPlace info).map Prod.fst = (firstPlace info').map Prod.fst) :
    (groups infos).length ≤ 1 := by
  have hnode : ∀ e ∈ groups infos, ∃ info ∈ infos, (firstPlace info).map Prod.fst = some e.1 := by
    intro e he
    obtain ⟨p, hp⟩ := List.exists_mem_of_ne_nil _ (groups_ne_nil he)
    obtain ⟨info, hinfo, hplace⟩ := (mem_firstPlace he).mp hp
    exact ⟨info, hinfo, by rw [hplace, Option.map_some]⟩
  have hkeys : (groups infos).Pairwise fun e e' => e.1 ≠ e'.1 :=
    (Std.ExtTreeMap.distinct_keys_toList (t := OrdMap.group (infos.filterMap firstPlace))).imp
      fun h he => h (Std.LawfulEqCmp.compare_eq_iff_eq.mpr he)
  match hg : groups infos with
  | [] | [_] => simp
  | e :: e' :: es =>
    rw [hg] at hnode hkeys
    obtain ⟨info, hinfo, he⟩ := hnode e List.mem_cons_self
    obtain ⟨info', hinfo', he'⟩ := hnode e' (List.mem_cons_of_mem _ List.mem_cons_self)
    refine absurd ?_ ((List.pairwise_cons.mp hkeys).1 e' List.mem_cons_self)
    exact Option.some.inj (he.symm.trans ((hone info hinfo info' hinfo').trans he'))

theorem eq_of_length_groups (hlen : (groups infos).length ≤ 1) {info info' : BlockInfo}
    (hinfo : info ∈ infos) (hinfo' : info' ∈ infos) {e e' : Bytes × Data.BlockPlacementInfo}
    (he : firstPlace info = some e) (he' : firstPlace info' = some e') : e.1 = e'.1 := by
  obtain ⟨ps, hps, -⟩ := exists_group hinfo he
  obtain ⟨ps', hps', -⟩ := exists_group hinfo' he'
  match hg : groups infos with
  | [] =>
    rw [hg] at hps
    cases hps
  | [g] =>
    rw [hg, List.mem_singleton] at hps hps'
    exact (Prod.mk.inj (hps.trans hps'.symm)).1
  | _ :: _ :: _ => simp [hg] at hlen

/-- Of two nodes that have answered, the blocks of one may be lost. -/
theorem exists_short_result {es : List (Bytes × List Data.BlockPlacementInfo)}
    (hne : ∀ e ∈ es, e.2 ≠ [])
    (hreplied : ∀ e ∈ es, ∃ dBlocks, nodes.getBlocks e.1 e.2 = .blocks dBlocks)
    (htwo : 1 < es.length) : ∃ sched result, Appends.gather (answered nodes es) sched = some result
      ∧ result.length < (es.flatMap Prod.snd).length := by
  match es, htwo with
  | e :: e' :: es, _ =>
    obtain ⟨as, has⟩ := hreplied e List.mem_cons_self
    obtain ⟨bs, hbs⟩ := hreplied e' (List.mem_cons_of_mem _ List.mem_cons_self)
    refine ⟨Appends.overlapping (answered nodes es).length, bs ++ (answered nodes es).flatten,
      ?_, ?_⟩
    · rw [answered_cons, answered_cons, has, hbs]
      exact Appends.gather_overlapping as bs (answered nodes es)
    · have hpos := List.length_pos_of_ne_nil (hne e List.mem_cons_self)
      have hlen := (NodesMap.getBlocks_reads hbs).length_eq
      have hle := length_answered_le nodes es
      simp only [List.flatMap_cons, List.length_append]
      omega

end Complete

/-- Whatever the order of the loads and stores of the result, an error is returned or every block
recorded for the file is sent once, in order and with its data, if and only if every block is on
the same node first, which is up and has the block and reads it. -/
theorem getFileHandler_complete_iff (sorter : Sorter) (nodes : NodesMap) (path : Bytes)
    (s : Storage) (h : BlocksIndexed s.blocks) :
    (∀ sched out, getFileHandler sorter nodes path sched s = some out →
      out.Complete nodes (s.blocksAt sorter path))
      ↔ (∀ info ∈ s.blocksAt sorter path, ∃ e ∈ firstPlace info, ∃ d, Serves nodes e d)
        ∧ ∀ info ∈ s.blocksAt sorter path, ∀ info' ∈ s.blocksAt sorter path,
          (firstPlace info).map Prod.fst = (firstPlace info').map Prod.fst := by
  rcases hfile : s.getFileByPath path with _ | file
  · refine iff_of_true (fun sched out hout => ?_) (by simp [Storage.blocksAt, hfile])
    rw [getFileHandler, hfile] at hout
    obtain rfl := Option.some.inj hout
    trivial
  have hids : ((s.blocksAt sorter path).map BlockInfo.id).Nodup := by
    rw [blocksAt_eq hfile]
    exact h.nodup_getBlocks
  constructor
  · intro hall
    have hplaced : ∀ info ∈ s.blocksAt sorter path, info.blocks ≠ [] := fun info hinfo hno => by
      refine hall [] .panicked ?_
      rw [blocksAt_eq hfile] at hinfo
      simp only [getFileHandler, hfile, blocksByNode_eq_none hinfo hno]
    have hend : ∀ e ∈ groups (s.blocksAt sorter path),
        ¬ (nodes.getBlocks e.1 e.2).isEndless = true :=
      fun e he hendless => hall [] .endless (getFileHandler_endless hfile hplaced he hendless)
    have hcomplete : ∀ sched result,
        Appends.gather (answered nodes (groups (s.blocksAt sorter path))) sched = some result →
          (sendBlocks sorter (s.blocksAt sorter path) result).Complete nodes
            (s.blocksAt sorter path) := fun sched result hresult =>
      hall sched _ (by rw [getFileHandler_eq hfile hplaced hend, hresult, Option.map_some])
    obtain ⟨hreplied, hserves⟩ :=
      serves_of_complete hids hplaced (hcomplete _ _ (Appends.gather_inTurn _))
    refine ⟨hserves, fun info hinfo info' hinfo' => ?_⟩
    have hlen : (groups (s.blocksAt sorter path)).length ≤ 1 := by
      by_contra htwo
      obtain ⟨sched, result, hresult, hshort⟩ :=
        exists_short_result (fun e he => groups_ne_nil he) hreplied (Nat.lt_of_not_le htwo)
      rw [length_of_complete (hcomplete sched result hresult), length_groups hplaced] at hshort
      exact Nat.lt_irrefl _ hshort
    obtain ⟨e, he, -⟩ := hserves info hinfo
    obtain ⟨e', he', -⟩ := hserves info' hinfo'
    rw [he, he', Option.map_some, Option.map_some, eq_of_length_groups hlen hinfo hinfo' he he']
  · rintro ⟨hserves, hone⟩ sched out hout
    have hplaced : ∀ info ∈ s.blocksAt sorter path, info.blocks ≠ [] := fun info hinfo hno => by
      obtain ⟨e, he, -⟩ := hserves info hinfo
      simp [firstPlace, hno] at he
    obtain ⟨hreplied, hwhole⟩ := whole_of_serves sorter hids hserves
    rw [getFileHandler_eq hfile hplaced fun e he hend => by
      obtain ⟨dBlocks, hreply⟩ := hreplied e he
      rw [hreply] at hend
      cases hend] at hout
    obtain ⟨result, hresult, rfl⟩ := Option.map_eq_some_iff.mp hout
    have hlen : (answered nodes (groups (s.blocksAt sorter path))).length ≤ 1 :=
      (List.length_filterMap_le _ _).trans
        (by rw [List.length_map]; exact length_groups_le_one hone)
    rwa [Appends.gather_single hlen hresult]

/-- A file with one block, on the node `[7]`. -/
def oneBlock : Storage :=
  { Storage.empty with
    files := (Table.empty.insert filesTable { someFile with parentID := root }).getD .empty
    blocks := (Table.empty.insertAll blocksTable [⟨[1], 0, 0, [5], [⟨[7], [9]⟩]⟩]).getD .empty }

theorem blocksIndexed_oneBlock : BlocksIndexed oneBlock.blocks := by
  have hins : (Table.empty.insertAll blocksTable [⟨[1], 0, 0, [5], [⟨[7], [9]⟩]⟩]).isSome := by
    decide +kernel
  obtain ⟨t, ht⟩ := Option.isSome_iff_exists.mp hins
  have hblocks : oneBlock.blocks = t := by rw [oneBlock, ht, Option.getD_some]
  rw [hblocks]
  exact BlocksIndexed.insertAll ⟨Table.sound_empty, Table.complete_empty⟩ ht

theorem blocksAt_oneBlock :
    oneBlock.blocksAt someEnv.sorter [102] = [⟨[1], 0, 0, [5], [⟨[7], [9]⟩]⟩] := by
  decide +kernel

/-- The node gets the block, and its sink is flushed. -/
def writtenOne : List Data.NodeMove :=
  [.create [9], .assign [[9]] [⟨[1], 0, 2, [10, 11]⟩], .look 0 none, .look 0 none, .put 0,
    .finish 0, .part [9] .tick, .part [9] .drain, .part [9] .drain, .part [9] .check,
    .part [9] (.write [([1], [10, 11])] []), .part [9] (.index [(0, ⟨[1], 2, 0⟩)] [])]

theorem getFileHandler_complete_iff_writtenOne : ∃ node,
    runSteps Data.DataNode.step writtenOne .new = some node ∧ BlocksIndexed oneBlock.blocks
      ∧ ∀ sched out, getFileHandler someEnv.sorter (fun _ => some (.answers node fun _ => none))
        [102] sched oneBlock = some out → out.Complete (fun _ => some (.answers node fun _ => none))
          (oneBlock.blocksAt someEnv.sorter [102]) := by
  have hrun : (runSteps Data.DataNode.step writtenOne .new).any (fun node =>
      !node.shutdown && (node.parts.lookup [9]).any fun sink =>
        !sink.part.closed && (sink.part.blocksMap.lookup [1]).any fun b =>
          b.size = 2 ∧ sink.part.file.readAt 2 (b.slot * Data.defaultBlockSize)
            = some [10, 11]) = true := by decide +kernel
  obtain ⟨node, hnode, hrun⟩ := (Option.any_eq_true _ _).mp hrun
  obtain ⟨hdown, hrun⟩ := Bool.and_eq_true_iff.mp hrun
  obtain ⟨sink, hsink, hrun⟩ := (Option.any_eq_true _ _).mp hrun
  obtain ⟨hopen, hrun⟩ := Bool.and_eq_true_iff.mp hrun
  obtain ⟨b, hb, hread⟩ := (Option.any_eq_true _ _).mp hrun
  obtain ⟨hsize, hbytes⟩ := of_decide_eq_true hread
  refine ⟨node, hnode, blocksIndexed_oneBlock, ?_⟩
  refine (getFileHandler_complete_iff someEnv.sorter _ [102] oneBlock blocksIndexed_oneBlock).mpr ?_
  rw [blocksAt_oneBlock]
  simp only [List.mem_singleton, forall_eq, and_true]
  exact ⟨_, rfl, [10, 11], node, fun _ => none, sink, rfl, by simpa using hdown, hsink,
    by simpa using hopen, ⟨b, hb, hsize, hbytes⟩, .inl rfl⟩

/-- The node of the only block has left: `nil` is returned and nothing is sent. -/
theorem not_complete_absent : BlocksIndexed oneBlock.blocks
    ∧ oneBlock.blocksAt someEnv.sorter [102] = [⟨[1], 0, 0, [5], [⟨[7], [9]⟩]⟩]
    ∧ getFileHandler someEnv.sorter (fun _ => none) [102] [] oneBlock = some (.sent [])
    ∧ ¬ (Download.sent []).Complete (fun _ => none) (oneBlock.blocksAt someEnv.sorter [102]) := by
  refine ⟨blocksIndexed_oneBlock, blocksAt_oneBlock, ?_, fun h => ?_⟩
  · obtain ⟨file, hfile⟩ := Option.isSome_iff_exists.mp
      (by decide +kernel : (oneBlock.getFileByPath [102]).isSome)
    rw [getFileHandler_eq hfile (by rw [blocksAt_oneBlock]; simp) fun e _ => by
      simp [NodesMap.getBlocks, Reply.isEndless], blocksAt_oneBlock]
    rfl
  · have hlen := Whole.length_eq h
    rw [blocksAt_oneBlock] at hlen
    cases hlen

end Rhosus.Registry

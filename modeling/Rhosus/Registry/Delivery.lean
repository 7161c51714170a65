import Rhosus.Lib.Calls
import Rhosus.Registry.Blocks
import Rhosus.Registry.Transfer

/-!
# A file comes back as it was stored

What holds of a transfer in each phase (`Transfer.Holds`) is kept by its steps (`Carried.step`): the
calls on the nodes are tracked until they are answered, the answers are what the registry enters,
and once the sinks are flushed the nodes have each block where the registry looks for it. What the
goroutines of `GetFileHandler` have received and are still to receive are then all the blocks, in
some order (`Fetching`), so it ends with the blocks in their own (`stored_blocks_come_back`).
-/

namespace Rhosus.Registry

section Choice

variable {table nodes : List Node} {r : ℤ}

theorem getNodesWithLeastBlocks_spec (sorter : Sorter) (htable : table ≠ [])
    (hbeat : ∀ node ∈ table, node.blocksUsed ≠ none) (hr : 1 ≤ r) :
    ∃ nodes, getNodesWithLeastBlocks sorter table r = some nodes ∧ nodes ≠ []
      ∧ nodes.length ≤ r := by
  have hpanic : ¬ (1 < table.length ∧ ∃ node ∈ table, node.blocksUsed = none) :=
    fun ⟨_, node, hnode, hnone⟩ => hbeat node hnode hnone
  have hlen :=
    (sorter.perm (fun node : Node => (node.blocksUsed.getD 0 + 2 ^ 31).toNat) table).length_eq
  have hpos := List.length_pos_of_ne_nil htable
  unfold getNodesWithLeastBlocks
  rw [if_neg hpanic]
  dsimp only
  rw [hlen]
  split_ifs with hfew hneg
  · exact ⟨_, rfl, List.ne_nil_of_length_pos (by omega), by omega⟩
  · omega
  · refine ⟨_, rfl, List.ne_nil_of_length_pos ?_, ?_⟩ <;> rw [List.length_take, hlen] <;> omega

theorem blocksAssignment_spec (hnodes : nodes ≠ []) (hle : nodes.length ≤ r)
    (blocks : List Data.Block) : ∃ assignment, blocksAssignment nodes r blocks = some assignment
      ∧ assignment ≠ [] ∧ ∀ a ∈ assignment, a.2 = blocks := by
  unfold blocksAssignment
  split_ifs with hfew heq
  · obtain ⟨node, rest, rfl⟩ := List.exists_cons_of_ne_nil hnodes
    exact ⟨_, rfl, by simp, by simp⟩
  · exact ⟨_, rfl, by simpa using hnodes, by simp⟩
  · omega

/-- Every node that is chosen gets all the blocks. -/
theorem Transfer.begin_spec (sorter : Sorter) (htable : table ≠ [])
    (hbeat : ∀ node ∈ table, node.blocksUsed ≠ none) (blocks : List Data.Block) (hr : 1 ≤ r)
    (leader : Leader) :
    ∃ t, begin sorter table blocks r leader = some t ∧ t.leader = leader
      ∧ t.phase = .transporting [] ∧ (∀ id, t.nodes id = .new) ∧ t.jobs ≠ []
      ∧ ∀ job ∈ t.jobs, job.blocks = blocks ∧ job.stage = .start := by
  obtain ⟨nodes, hnodes, hne, hle⟩ := getNodesWithLeastBlocks_spec sorter htable hbeat hr
  obtain ⟨assignment, hassign, hne', hall⟩ := blocksAssignment_spec hne hle blocks
  refine ⟨_, by rw [begin, hnodes, Option.bind_eq_bind, Option.bind_some, hassign]; rfl,
    rfl, rfl, fun _ => rfl, by simpa using hne', fun job hjob => ?_⟩
  obtain ⟨a, ha, rfl⟩ := List.mem_map.mp hjob
  exact ⟨hall a ha, rfl⟩

end Choice

section Groups

def firstPlace (block : BlockInfo) : Option (Bytes × Data.BlockPlacementInfo) :=
  block.blocks.head?.map fun p => (p.nodeID, ⟨block.id, p.partitionID, false⟩)

theorem foldlM_firstPlace : ∀ {infos : List BlockInfo}
    {m : OrdMap Bytes (List Data.BlockPlacementInfo)}, (∀ info ∈ infos, info.blocks ≠ []) →
      infos.foldlM (fun m block => block.blocks.head?.map fun p =>
        m.insert p.nodeID ((m[p.nodeID]?).getD [] ++ [⟨block.id, p.partitionID, false⟩])) m
          = some ((infos.filterMap firstPlace).foldl OrdMap.push m)
  | [], _, _ => rfl
  | info :: infos, m, h => by
    obtain ⟨p, ps, hp⟩ := List.exists_cons_of_ne_nil (h info List.mem_cons_self)
    have hplace : firstPlace info = some (p.nodeID, ⟨info.id, p.partitionID, false⟩) := by
      rw [firstPlace, hp]
      rfl
    rw [List.foldlM_cons, List.filterMap_cons_some hplace, List.foldl_cons, hp, List.head?_cons,
      Option.map_some]
    exact foldlM_firstPlace fun info hinfo => h info (List.mem_cons_of_mem _ hinfo)

theorem blocksByNode_eq {infos : List BlockInfo} (h : ∀ info ∈ infos, info.blocks ≠ []) :
    blocksByNode infos = some (OrdMap.group (infos.filterMap firstPlace)) :=
  foldlM_firstPlace h

theorem map_firstPlace : ∀ {infos : List BlockInfo}, (∀ info ∈ infos, info.blocks ≠ []) →
    (infos.filterMap firstPlace).map (fun e => e.2.blockID) = infos.map BlockInfo.id
  | [], _ => rfl
  | info :: infos, h => by
    obtain ⟨p, ps, hp⟩ := List.exists_cons_of_ne_nil (h info List.mem_cons_self)
    have hplace : firstPlace info = some (p.nodeID, ⟨info.id, p.partitionID, false⟩) := by
      rw [firstPlace, hp]
      rfl
    rw [List.filterMap_cons_some hplace, List.map_cons, List.map_cons,
      map_firstPlace fun info hinfo => h info (List.mem_cons_of_mem _ hinfo)]

end Groups

section Sorted

variable {blocks : List Data.Block} {infos : List BlockInfo}

/-- The blocks of a file: their ids and their `Index`es are all different. -/
structure Cut (blocks : List Data.Block) : Prop where
  ids : (blocks.map Data.Block.id).Nodup
  named : ∀ b ∈ blocks, b.id ≠ []
  indexes : (blocks.map Data.Block.index).Nodup
  small : ∀ b ∈ blocks, b.data.length ≤ Data.defaultBlockSize
  len : ∀ b ∈ blocks, b.len = b.data.length

def unindexed (b : Data.Block) : Data.Block := ⟨b.id, 0, b.data.length, b.data⟩

/-- What the registry knows about the blocks. -/
structure Lists (infos : List BlockInfo) (blocks : List Data.Block) : Prop where
  ids : (infos.map BlockInfo.id).Nodup
  all : ∀ b ∈ blocks, ∃ info ∈ infos, info.id = b.id ∧ info.index = b.index

theorem Cut.eq_of_id (h : Cut blocks) {b c : Data.Block} (hb : b ∈ blocks) (hc : c ∈ blocks)
    (hid : b.id = c.id) : b = c :=
  List.inj_on_of_nodup_map h.ids hb hc hid

theorem Cut.find (h : Cut blocks) {b : Data.Block} (hb : b ∈ blocks) :
    blocks.find? (fun c => c.id = b.id) = some b := by
  rcases hf : blocks.find? (fun c => c.id = b.id) with _ | c
  · exact absurd (List.find?_eq_none.mp hf b hb) (by simp)
  · have hid : c.id = b.id := by simpa using List.find?_some hf
    exact hf.trans (congrArg some (h.eq_of_id (List.mem_of_find?_eq_some hf) hb hid))

theorem mapM_id_map_some {α : Type} : ∀ xs : List α, (xs.map some).mapM id = some xs
  | [] => rfl
  | x :: xs => by
    rw [List.map_cons, List.mapM_cons, mapM_id_map_some xs]
    rfl

theorem exists_map_some {α : Type} {os : List (Option α)} {xs : List α}
    (h : os.Perm (xs.map some)) : ∃ ys : List α, os = ys.map some ∧ ys.Perm xs := by
  refine ⟨os.filterMap id, ?_, by simpa using h.filterMap id⟩
  have hsome : ∀ o ∈ os, o.isSome := fun o ho => by
    obtain ⟨x, -, rfl⟩ := List.mem_map.mp (h.mem_iff.mp ho)
    rfl
  rw [List.map_filterMap_some_eq_filter_map_isSome, List.map_id, List.filter_eq_self.mpr hsome]

theorem Lists.get (h : Lists infos blocks) {b : Data.Block} (hb : b ∈ blocks) :
    (infos.foldl (fun m block => m.insert block.id block.index) (∅ : OrdMap Bytes ℕ))[b.id]?
      = some b.index := by
  obtain ⟨info, hinfo, hid, hindex⟩ := h.all b hb
  rw [← hid, ← hindex]
  exact OrdMap.get_foldl_insert h.ids info hinfo

/-- Blocks that have come in any order are put into theirs, as they were. -/
theorem fillAndSortBlocks_spec (sorter : Sorter) (hcut : Cut blocks) (h : Lists infos blocks)
    {result : List (Option Data.Block)}
    (hperm : result.Perm (blocks.map fun b => some (unindexed b))) :
    ∃ sent, fillAndSortBlocks sorter infos result = some sent ∧ sent.Perm blocks
      ∧ sent.Pairwise fun b c => b.index < c.index := by
  -- none of them is `nil`
  obtain ⟨dBlocks, rfl, hdBlocks⟩ : ∃ dBlocks : List Data.Block, result = dBlocks.map some
      ∧ dBlocks.Perm (blocks.map unindexed) := by
    refine exists_map_some ?_
    rwa [List.map_map]
  unfold fillAndSortBlocks
  rw [mapM_id_map_some, Option.map_some]
  generalize hm : infos.foldl (fun m block => m.insert block.id block.index)
    (∅ : OrdMap Bytes ℕ) = bMap
  have hget : ∀ b ∈ blocks, (bMap[b.id]?).getD 0 = b.index := fun b hb => by
    rw [← hm, h.get hb, Option.getD_some]
  have hfill : (dBlocks.map fun block : Data.Block =>
      { block with index := (bMap[block.id]?).getD 0 }).Perm blocks := by
    refine (hdBlocks.map _).trans (.of_eq ?_)
    rw [List.map_map]
    refine (List.map_congr_left fun b hb => ?_).trans (List.map_id blocks)
    simp only [Function.comp_apply, unindexed, hget b hb, ← hcut.len b hb, id]
  refine ⟨_, rfl, (sorter.perm _ _).trans hfill, ?_⟩
  have hsorted := sorter.sorted (fun block : Data.Block => (bMap[block.id]?).getD 0)
    (dBlocks.map fun block => { block with index := (bMap[block.id]?).getD 0 })
  have hsent := (sorter.perm (fun block : Data.Block => (bMap[block.id]?).getD 0) _).trans hfill
  have hnodup := List.pairwise_map.mp ((hsent.map _).nodup_iff.mpr hcut.indexes)
  refine (hsorted.and hnodup).imp_of_mem fun {b c} hb hc hbc => ?_
  rw [hget b (hsent.mem_iff.mp hb), hget c (hsent.mem_iff.mp hc)] at hbc
  exact Nat.lt_of_le_of_ne hbc.1 hbc.2

end Sorted

section Moved

variable {blocks : List Data.Block} {t t' : Transfer}

/-- Each node is as it was, or has taken a step that is careful with the blocks. -/
def Transfer.Moved (blocks : List Data.Block) (t t' : Transfer) : Prop :=
  ∀ id, t'.nodes id = t.nodes id ∨ ∃ l : Data.NodeMove,
    l.Careful (blocks.map Data.Block.id) (t.nodes id) ∧ (t.nodes id).step l = some (t'.nodes id)

theorem Transfer.moved_setNode {id : Bytes} {l : Data.NodeMove} {n : Data.DataNode}
    (hl : l.Careful (blocks.map Data.Block.id) (t.nodes id))
    (hstep : (t.nodes id).step l = some n) : t.Moved blocks (t.setNode id n) := by
  intro id'
  by_cases hid : id' = id
  · subst hid
    exact .inr ⟨l, hl, by simp [setNode, hstep]⟩
  · exact .inl (Function.update_of_ne hid _ _)

theorem Transfer.Moved.sound (h : t.Moved blocks t') (hs : ∀ id, Data.Sound (t.nodes id))
    (id : Bytes) : Data.Sound (t'.nodes id) := by
  rcases h id with hid | ⟨l, hl, hstep⟩
  · rw [hid]
    exact hs id
  · exact (hs id).step hl.1 hl.2.1 hstep

theorem Transfer.Moved.stores (h : t.Moved blocks t') (hs : ∀ id, Data.Sound (t.nodes id))
    {id pid : Bytes} {b : Data.Block} (hb : b ∈ blocks) (hst : (t.nodes id).Stores pid b) :
    (t'.nodes id).Stores pid b := by
  rcases h id with hid | ⟨l, hl, hstep⟩
  · rwa [hid]
  · exact hst.step (hs id) hl (List.mem_map_of_mem hb) hstep

/-- The call `k` of a node is one with the blocks. -/
def Transfer.Calls (blocks : List Data.Block) (t : Transfer) (id : Bytes) (k : ℕ)
    (a : Data.Assign) : Prop :=
  (t.nodes id).calls[k]? = some a ∧ a.blocks = blocks ∧ Data.Tracks (t.nodes id) a

theorem Transfer.Moved.calls (h : t.Moved blocks t') (hs : ∀ id, Data.Sound (t.nodes id))
    {id : Bytes} {k : ℕ} {a : Data.Assign} (ha : t.Calls blocks id k a) :
    ∃ a', t'.Calls blocks id k a' ∧ (a.stage = .done → a' = a) := by
  obtain ⟨hk, hblocks, htracks⟩ := ha
  rcases h id with hid | ⟨l, hl, hstep⟩
  · exact ⟨a, ⟨hid ▸ hk, hblocks, hid ▸ htracks⟩, fun _ => rfl⟩
  · obtain ⟨a', hk', hblocks', htracks'⟩ := htracks.step (hs id) hk
      (fun b hb => List.mem_map_of_mem (hblocks ▸ hb)) hl hstep
    refine ⟨a', ⟨hk', hblocks'.trans hblocks, htracks'⟩, fun hdone => ?_⟩
    exact Option.some.inj (hk'.symm.trans (Data.DataNode.calls_step hk hdone hstep))

/-- The node of a goroutine has answered so. -/
def Answered (blocks : List Data.Block) (t : Transfer)
    (answer : Bytes × List Data.BlockPlacementInfo) : Prop :=
  (∃ job ∈ t.jobs, job.node = answer.1) ∧ ∃ k a, t.Calls blocks answer.1 k a ∧ a.stage = .done
    ∧ a.placement = answer.2

theorem Answered.moved {answer : Bytes × List Data.BlockPlacementInfo}
    (h : Answered blocks t answer) (hm : t.Moved blocks t')
    (hs : ∀ id, Data.Sound (t.nodes id)) (hjobs : t'.jobs = t.jobs) :
    Answered blocks t' answer := by
  obtain ⟨hjob, k, a, ha, hdone, hplace⟩ := h
  obtain ⟨a', ha', heq⟩ := hm.calls hs ha
  obtain rfl := heq hdone
  exact ⟨hjobs ▸ hjob, k, a', ha', hdone, hplace⟩

end Moved

section Carried

variable (env : Env) (file : FileInfo) (blocks : List Data.Block) (leader : Leader)

structure Transporting (t : Transfer)
    (answers : List (Bytes × List Data.BlockPlacementInfo)) : Prop where
  leader : t.leader = leader
  answered : ∀ answer ∈ answers, Answered blocks t answer
  called : ∀ job ∈ t.jobs, ∀ k, job.stage = .called k → ∃ a, t.Calls blocks job.node k a
  done : ∀ job ∈ t.jobs, job.stage = .done → ∃ answer ∈ answers, answer.1 = job.node

/-- The answers of the nodes are entered in the table of blocks. -/
def Recorded (t : Transfer) : Prop :=
  ∃ answers order, answers ≠ [] ∧ (∀ answer ∈ answers, Answered blocks t answer)
    ∧ order.Perm (assignResult answers).keys
    ∧ t.leader.storage.blocks = (leader.storage.blocks.insertAll blocksTable
        (blockInfos file.id blocks answers order)).getD leader.storage.blocks

structure Registered (t : Transfer) : Prop where
  recorded : Recorded file blocks leader t
  named : file.id ≠ []
  found : ∃ f, t.leader.storage.getFileByPath file.path = some f ∧ f.id = file.id

def expected (id : Bytes) : Option Data.Block := (blocks.find? fun b => b.id = id).map unindexed

/-- What a goroutine is still to add to the result. -/
def Fetch.pending (f : Fetch) : List (Option Data.Block) :=
  if f.done then [] else f.got ++ f.todo.map fun p => expected blocks p.blockID

structure Fetching (t : Transfer) (infos : List BlockInfo) (fetches : List Fetch)
    (result : List (Option Data.Block)) : Prop where
  lists : Lists infos blocks
  stored : ∀ f ∈ fetches, ∀ p ∈ f.todo, ∃ b ∈ blocks, b.id = p.blockID
    ∧ (t.nodes f.node).Stores p.partitionID b
  perm : (result ++ fetches.flatMap (Fetch.pending blocks)).Perm
    (blocks.map fun b => some (unindexed b))

/-- What holds in each phase. -/
def Transfer.Holds (t : Transfer) : Phase → Prop
  | .transporting answers => Transporting blocks leader t answers
  | .transported => Recorded file blocks leader t
  | .registered => Registered file blocks leader t
  | .getting infos fetches result => Fetching blocks t infos fetches result
  | .got sent => sent.Perm blocks ∧ sent.Pairwise fun b c => b.index < c.index
  | .refused => True
  | .failed => False

structure Carried (t : Transfer) : Prop where
  sound : ∀ id, Data.Sound (t.nodes id)
  jobs : ∀ job ∈ t.jobs, job.blocks = blocks
  started : t.jobs ≠ []
  holds : t.Holds file blocks leader t.phase

variable {env file blocks leader} {t t' : Transfer}

/-- What the nodes do leaves what holds. -/
theorem Transfer.Holds.moved {phase : Phase} (h : t.Holds file blocks leader phase)
    (hm : t.Moved blocks t') (hs : ∀ id, Data.Sound (t.nodes id)) (hjobs : t'.jobs = t.jobs)
    (hleader : t'.leader = t.leader) : t'.Holds file blocks leader phase := by
  have hrecorded : Recorded file blocks leader t → Recorded file blocks leader t' := by
    rintro ⟨answers, order, hne, hall, hperm, htable⟩
    exact ⟨answers, order, hne, fun answer ha => (hall answer ha).moved hm hs hjobs, hperm,
      hleader ▸ htable⟩
  cases phase with
  | transporting answers =>
    refine ⟨hleader.trans h.leader, fun answer ha => (h.answered answer ha).moved hm hs hjobs,
      fun job hjob k hk => ?_, hjobs ▸ h.done⟩
    obtain ⟨a, ha⟩ := h.called job (hjobs ▸ hjob) k hk
    obtain ⟨a', ha', -⟩ := hm.calls hs ha
    exact ⟨a', ha'⟩
  | transported => exact hrecorded h
  | registered => exact ⟨hrecorded h.recorded, h.named, hleader ▸ h.found⟩
  | getting infos fetches result =>
    refine ⟨h.lists, fun f hf p hp => ?_, h.perm⟩
    obtain ⟨b, hb, hid, hst⟩ := h.stored f hf p hp
    exact ⟨b, hb, hid, hm.stores hs hb hst⟩
  | got | refused | failed => exact h

theorem Carried.of_phase {phase : Phase} (hs : ∀ id, Data.Sound (t.nodes id))
    (hjobs : ∀ job ∈ t.jobs, job.blocks = blocks) (hstarted : t.jobs ≠ [])
    (hphase : t.phase = phase) (h : t.Holds file blocks leader phase) :
    Carried file blocks leader t := by
  subst hphase
  exact ⟨hs, hjobs, hstarted, h⟩

theorem Transporting.setJob {answers : List (Bytes × List Data.BlockPlacementInfo)} {i : ℕ}
    {job : Job} {phase : Phase} (h : Transporting blocks leader t answers)
    (hi : t.jobs[i]? = some job) (job' : Job) (hnode : job'.node = job.node)
    (hcalled : ∀ k, job'.stage = .called k → ∃ a, t.Calls blocks job'.node k a)
    (hdone : job'.stage = .done → ∃ answer ∈ answers, answer.1 = job'.node) :
    Transporting blocks leader { t with jobs := t.jobs.set i job', phase } answers := by
  refine ⟨h.leader, fun answer ha => ?_, fun j hj k hk => ?_, fun j hj hd => ?_⟩
  · obtain ⟨⟨j, hj, hid⟩, hcall⟩ := h.answered answer ha
    refine ⟨?_, hcall⟩
    obtain ⟨c, hc⟩ := List.getElem?_of_mem hj
    by_cases hci : c = i
    · subst hci
      obtain rfl := Option.some.inj (hi.symm.trans hc)
      exact ⟨job', List.mem_set (List.getElem?_eq_some_iff.mp hi).1 _, hnode.trans hid⟩
    · refine ⟨j, List.mem_of_getElem? ((List.getElem?_set_ne (Ne.symm hci)).trans hc), hid⟩
  · rcases List.mem_or_eq_of_mem_set hj with hj | rfl
    · exact h.called j hj k hk
    · exact hcalled k hk
  · rcases List.mem_or_eq_of_mem_set hj with hj | rfl
    · exact h.done j hj hd
    · exact hdone hd

theorem Transporting.concat {answers : List (Bytes × List Data.BlockPlacementInfo)}
    {answer : Bytes × List Data.BlockPlacementInfo} (h : Transporting blocks leader t answers)
    (ha : Answered blocks t answer) : Transporting blocks leader t (answers ++ [answer]) := by
  refine ⟨h.leader, fun c hc => ?_, h.called, fun job hjob hd => ?_⟩
  · rcases List.mem_append.mp hc with hc | hc
    · exact h.answered c hc
    · rwa [List.mem_singleton.mp hc]
  · obtain ⟨c, hc, hid⟩ := h.done job hjob hd
    exact ⟨c, List.mem_append_left _ hc, hid⟩

theorem Carried.jobs_set (h : Carried file blocks leader t) (i : ℕ) (job : Job)
    (hjob : job.blocks = blocks) :
    (∀ j ∈ t.jobs.set i job, j.blocks = blocks) ∧ t.jobs.set i job ≠ [] := by
  refine ⟨fun j hj => ?_, fun hnil => h.started (by simpa using hnil)⟩
  rcases List.mem_or_eq_of_mem_set hj with hj | rfl
  · exact h.jobs j hj
  · exact hjob

theorem Carried.send {answers : List (Bytes × List Data.BlockPlacementInfo)} {i : ℕ}
    {order : List Bytes} (h : Carried file blocks leader t) (hcut : Cut blocks)
    (hphase : t.phase = .transporting answers)
    (hnew : ∀ job ∈ t.jobs[i]?, ∀ b ∈ job.blocks, b.id ∉ (t.nodes job.node).used)
    (hstep : t.send i order = some t') : Carried file blocks leader t' := by
  unfold Transfer.send at hstep
  split at hstep
  · rename_i id bs hi
    obtain ⟨n, hn, rfl⟩ := Option.map_eq_some_iff.mp hstep
    obtain rfl : bs = blocks := h.jobs _ (List.mem_of_getElem? hi)
    have hcareful : (Data.NodeMove.assign order bs).Careful (bs.map Data.Block.id) (t.nodes id) :=
      ⟨hcut.small, ⟨hcut.ids, hnew _ hi⟩, trivial⟩
    have hmoved := Transfer.moved_setNode hcareful hn
    have hholds := h.holds.moved hmoved h.sound rfl rfl
    rw [hphase] at hholds
    let job : Job := ⟨id, bs, .called (t.nodes id).calls.length⟩
    obtain ⟨hjobs, hstarted⟩ := h.jobs_set i job rfl
    refine .of_phase (hmoved.sound h.sound) hjobs hstarted hphase ?_
    refine Transporting.setJob hholds hi job rfl (fun k hk => ?_) (fun hd => by cases hd)
    obtain rfl := JobStage.called.inj hk
    cases Data.nodeStepped hn with
    | assign stage hstage =>
      refine ⟨⟨bs, order, [], 0, [], stage⟩, ?_, rfl, Data.tracks_assign _ _ _ hstage⟩
      simp [Transfer.setNode, job]
  · cases hstep

theorem Carried.receive {answers : List (Bytes × List Data.BlockPlacementInfo)} {i : ℕ}
    (h : Carried file blocks leader t) (hphase : t.phase = .transporting answers)
    (hdone : ∀ c ∈ t.call i, c.2.stage = .done) (hstep : t.receive i answers = some t') :
    Carried file blocks leader t' := by
  have hholds := h.holds
  rw [hphase] at hholds
  unfold Transfer.receive at hstep
  split at hstep
  · rename_i job a hcall
    have ha := hdone _ hcall
    dsimp only at ha hstep
    rw [ha] at hstep
    obtain rfl := Option.some.inj hstep
    -- the goroutine and its call
    obtain ⟨k, hi, hk⟩ : ∃ k, t.jobs[i]? = some job ∧ job.stage = .called k
        ∧ (t.nodes job.node).calls[k]? = some a := by
      unfold Transfer.call at hcall
      split at hcall
      · rename_i id bs k hi
        obtain ⟨a', ha', heq⟩ := Option.map_eq_some_iff.mp hcall
        obtain ⟨rfl, rfl⟩ := Prod.mk.inj heq
        exact ⟨k, hi, rfl, ha'⟩
      · cases hcall
    obtain ⟨a', ha'⟩ := hholds.called job (List.mem_of_getElem? hi) k hk.1
    obtain rfl := Option.some.inj (hk.2.symm.trans ha'.1)
    have hanswered : Answered blocks t (job.node, a.placement) :=
      ⟨⟨job, List.mem_of_getElem? hi, rfl⟩, k, a, ha', ha, rfl⟩
    obtain ⟨hjobs, hstarted⟩ := h.jobs_set i { job with stage := .done }
      (h.jobs job (List.mem_of_getElem? hi))
    refine .of_phase h.sound hjobs hstarted rfl ?_
    exact Transporting.setJob (Transporting.concat hholds hanswered) hi { job with stage := .done }
      rfl (fun k hk => by cases hk)
      fun _ => ⟨_, List.mem_append_right _ (List.mem_singleton_self _), rfl⟩
  · cases hstep

theorem Carried.register {answers : List (Bytes × List Data.BlockPlacementInfo)}
    {order : List Bytes} (fate : Fate) (h : Carried file blocks leader t)
    (hphase : t.phase = .transporting answers) (hdone : ∀ job ∈ t.jobs, job.stage = .done)
    (hperm : order.Perm (assignResult answers).keys) :
    Carried file blocks leader (t.after .transported
      (registerBlocks env fate (blockInfos file.id blocks answers order) t.leader)) := by
  have hholds := h.holds
  rw [hphase] at hholds
  obtain ⟨job, hjob⟩ := List.exists_mem_of_ne_nil _ h.started
  obtain ⟨answer, ha, -⟩ := hholds.done job hjob (hdone job hjob)
  have htable : (registerBlocks env fate (blockInfos file.id blocks answers order)
    t.leader).2.storage.blocks = _ := registerBlocks_blocks _
  rcases hres : registerBlocks env fate (blockInfos file.id blocks answers order) t.leader
    with ⟨_ | _, leader'⟩
  · exact ⟨h.sound, h.jobs, h.started, trivial⟩
  · rw [hres, hholds.leader] at htable
    exact ⟨h.sound, h.jobs, h.started, answers, order, List.ne_nil_of_mem ha, hholds.answered,
      hperm, htable⟩

theorem registerFile_ok {fate : Fate} {r r' : Leader} {u : Unit}
    (h : registerFile env fate file r = (.ok u, r')) : file.id ≠ []
      ∧ ∃ f, r'.storage.getFileByPath file.path = some f ∧ f.id = file.id := by
  have hfiles := registerFile_files env fate file r
  rw [h] at hfiles
  unfold registerFile at h
  split at h
  · cases h
  rename_i hfree
  split at h
  · cases h
  rename_i parentID hparent
  rcases hins : r.storage.files.insert filesTable { file with parentID } with _ | files
  · simp [storeAndWrite, Storage.storeFile, hins] at h
  · refine ⟨(Table.full_of_insert hins).1, { file with parentID }, ?_, rfl⟩
    unfold Storage.create at hfiles
    rw [hfree, hparent] at hfiles
    dsimp only at hfiles
    rw [hins, Option.getD_some] at hfiles
    rw [Storage.getFileByPath, hfiles, Table.first, Table.index_insert hins]
    exact if_pos (filesTable_pathKey _)

theorem Carried.registerFile (fate : Fate) (h : Carried file blocks leader t)
    (hphase : t.phase = .transported) : Carried file blocks leader
      (t.after .registered (Registry.registerFile env fate file t.leader)) := by
  have hholds := h.holds
  rw [hphase] at hholds
  have hblocks : (Registry.registerFile env fate file t.leader).2.storage.blocks = _ :=
    registerFile_blocks file
  rcases hres : Registry.registerFile env fate file t.leader with ⟨_ | _, leader'⟩
  · exact ⟨h.sound, h.jobs, h.started, trivial⟩
  · rw [hres] at hblocks
    obtain ⟨hnamed, hfound⟩ := registerFile_ok hres
    obtain ⟨answers, order, hne, hall, hperm, htable⟩ := hholds
    exact ⟨h.sound, h.jobs, h.started,
      ⟨⟨answers, order, hne, hall, hperm, hblocks.trans htable⟩, hnamed, hfound⟩⟩

/-- Once the sinks are flushed, the nodes have the blocks where they said. -/
theorem Answered.stores {answer : Bytes × List Data.BlockPlacementInfo}
    (h : Answered blocks t answer)
    (hflushed : ∀ job ∈ t.jobs, (t.nodes job.node).Flushed (blocks.map Data.Block.id)) :
    answer.2.map Data.BlockPlacementInfo.blockID = blocks.map Data.Block.id
      ∧ ∀ p ∈ answer.2, ∃ b ∈ blocks, b.id = p.blockID
        ∧ (t.nodes answer.1).Stores p.partitionID b := by
  obtain ⟨⟨job, hjob, hid⟩, k, a, ⟨hk, hblocks, htracks⟩, hdone, hplace⟩ := h
  have hst := htracks.stores hdone (List.mem_of_getElem? hk)
    (fun b hb => List.mem_map_of_mem (hblocks ▸ hb)) (hid ▸ hflushed job hjob)
  rwa [hplace, hblocks] at hst

theorem Registered.getBlocks (h : Registered file blocks leader t) (hcut : Cut blocks)
    (sorter : Sorter) (hindexed : BlocksIndexed leader.storage.blocks)
    (hnew : leader.storage.getBlocks sorter file.id = [])
    (hflushed : ∀ job ∈ t.jobs, (t.nodes job.node).Flushed (blocks.map Data.Block.id)) :
    ((t.leader.storage.getBlocks sorter file.id).map BlockInfo.id).Perm
        (blocks.map Data.Block.id)
      ∧ ∀ info ∈ t.leader.storage.getBlocks sorter file.id, info.blocks ≠ []
        ∧ ∃ b ∈ blocks, b.id = info.id ∧ b.index = info.index
          ∧ ∀ p ∈ info.blocks, (t.nodes p.nodeID).Stores p.partitionID b := by
  obtain ⟨⟨answers, order, hne, hall, hperm, htable⟩, hnamed, -⟩ := h
  have hstores := fun answer ha => (hall answer ha).stores hflushed
  have hcovers : Covers blocks answers := ⟨hcut.ids, hne, fun answer ha => (hstores answer ha).1⟩
  have hspec := fun info (hinfo : info ∈ blockInfos file.id blocks answers order) =>
    hcovers.blockInfos_spec hperm file.id hinfo
  have horder : (blockInfos file.id blocks answers order).map BlockInfo.id = order := by
    rw [blockInfos, List.map_map]
    exact List.map_id order
  have hfound : (t.leader.storage.getBlocks sorter file.id).Perm
      (blockInfos file.id blocks answers order) := by
    refine getBlocks_registered hindexed hnew htable (fun info hinfo => ?_) ?_
      fun info hinfo => (hspec info hinfo).1
    · obtain ⟨hfile, ⟨b, hb, hid, -⟩, -⟩ := hspec info hinfo
      exact ⟨fun hnil => hcut.named b hb (hid.trans hnil), fun _ hnil => hnamed (hfile ▸ hnil)⟩
    · rw [horder]
      exact (hcovers.order_perm hperm).nodup_iff.mpr hcut.ids
  refine ⟨(hfound.map _).trans (.trans (.of_eq horder) (hcovers.order_perm hperm)),
    fun info hinfo => ?_⟩
  obtain ⟨-, ⟨b, hb, hid, hindex⟩, hplaced, hplaces⟩ := hspec info (hfound.mem_iff.mp hinfo)
  refine ⟨hplaced, b, hb, hid, hindex, fun p hp => ?_⟩
  obtain ⟨answer, ha, pInfo, hpInfo, hpid, rfl⟩ := hplaces p hp
  obtain ⟨c, hc, hcid, hst⟩ := (hstores answer ha).2 pInfo hpInfo
  rwa [hcut.eq_of_id hb hc (hid.trans (hpid.symm.trans hcid.symm))]

open scoped List in
theorem Carried.get (h : Carried file blocks leader t) (hcut : Cut blocks)
    (hindexed : BlocksIndexed leader.storage.blocks)
    (hnew : leader.storage.getBlocks env.sorter file.id = []) (hphase : t.phase = .registered)
    (hflushed : ∀ job ∈ t.jobs, (t.nodes job.node).Flushed (blocks.map Data.Block.id)) :
    Carried file blocks leader (t.get env file.path) := by
  have hholds := h.holds
  rw [hphase] at hholds
  obtain ⟨hids, hinfos⟩ := hholds.getBlocks hcut env.sorter hindexed hnew hflushed
  obtain ⟨f, hf, hfid⟩ := hholds.found
  unfold Transfer.get
  rw [hf]
  dsimp only
  rw [hfid]
  generalize t.leader.storage.getBlocks env.sorter file.id = infos at hids hinfos ⊢
  have hplaced : ∀ info ∈ infos, info.blocks ≠ [] := fun info hinfo => (hinfos info hinfo).1
  rw [blocksByNode_eq hplaced]
  refine ⟨h.sound, h.jobs, h.started, ⟨⟨hids.nodup_iff.mpr hcut.ids, fun b hb => ?_⟩,
    fun fetch hfetch p hp => ?_, ?_⟩⟩
  · obtain ⟨info, hinfo, hid⟩ := List.mem_map.mp (hids.mem_iff.mpr (List.mem_map_of_mem hb))
    obtain ⟨-, c, hc, hcid, hindex, -⟩ := hinfos info hinfo
    obtain rfl := hcut.eq_of_id hc hb (hcid.trans hid)
    exact ⟨info, hinfo, hid, hindex.symm⟩
  · obtain ⟨e, he, rfl⟩ := List.mem_map.mp hfetch
    have hget := Std.ExtTreeMap.mem_toList_iff_getElem?_eq_some.mp he
    have hmem := OrdMap.mem_group.mp (by rw [hget]; exact hp)
    obtain ⟨info, hinfo, hplace⟩ := List.mem_filterMap.mp hmem
    obtain ⟨pl, hpl, heq⟩ := Option.map_eq_some_iff.mp hplace
    obtain ⟨hnode, rfl⟩ := Prod.mk.inj heq
    obtain ⟨-, b, hb, hid, -, hst⟩ := hinfos info hinfo
    exact ⟨b, hb, hid, hnode ▸ hst pl (List.mem_of_mem_head? hpl)⟩
  · rw [List.nil_append, List.flatMap_map]
    let places := infos.filterMap firstPlace
    calc (OrdMap.group places).toList.flatMap (fun e => Fetch.pending blocks ⟨e.1, e.2, [], false⟩)
        = ((OrdMap.group places).toList.flatMap Prod.snd).map
            (fun p => expected blocks p.blockID) := by
          rw [List.map_flatMap]
          rfl
      _ ~ (places.map Prod.snd).map (fun p => expected blocks p.blockID) :=
          (OrdMap.toList_group_perm places).map _
      _ = (infos.map BlockInfo.id).map (expected blocks) := by
          rw [← map_firstPlace hplaced, List.map_map, List.map_map]
          rfl
      _ ~ (blocks.map Data.Block.id).map (expected blocks) := hids.map _
      _ = blocks.map fun b => some (unindexed b) := by
          rw [List.map_map]
          refine List.map_congr_left fun b hb => ?_
          rw [Function.comp_apply, expected, hcut.find hb, Option.map_some]

variable {infos : List BlockInfo} {fetches : List Fetch} {result : List (Option Data.Block)}
  {i : ℕ} {id : Bytes} {p : Data.BlockPlacementInfo} {todo : List Data.BlockPlacementInfo}
  {got : List (Option Data.Block)}

theorem Carried.read_eq (h : Carried file blocks leader t) (hcut : Cut blocks)
    (hphase : t.phase = .getting infos fetches result)
    (hi : fetches[i]? = some ⟨id, p :: todo, got, false⟩) :
    ∃ t', t.read i none infos fetches result = some t' ∧ Carried file blocks leader t'
      ∧ ∃ b, t'.phase = .getting infos (fetches.set i ⟨id, todo, got ++ [b], false⟩) result := by
  have hholds := h.holds
  rw [hphase] at hholds
  obtain ⟨b, hb, hid, hst⟩ := hholds.stored _ (List.mem_of_getElem? hi) p List.mem_cons_self
  have hread : (t.nodes id).readBlock p none = .ok (some (unindexed b)) :=
    hst.read (h.sound id) hid
  unfold Transfer.read
  rw [hi]
  dsimp only
  rw [hread]
  refine ⟨_, rfl, ⟨h.sound, h.jobs, h.started, ⟨hholds.lists, fun f hf q hq => ?_, ?_⟩⟩, _, rfl⟩
  · rcases List.mem_or_eq_of_mem_set hf with hf | rfl
    · exact hholds.stored f hf q hq
    · exact hholds.stored _ (List.mem_of_getElem? hi) q (List.mem_cons_of_mem _ hq)
  · rw [flatMap_set_eq hi]
    · exact hholds.perm
    · simp [Fetch.pending, expected, ← hid, hcut.find hb]

theorem Carried.append_eq (h : Carried file blocks leader t)
    (hphase : t.phase = .getting infos fetches result)
    (hi : fetches[i]? = some ⟨id, [], got, false⟩) :
    ∃ t', t.append i infos fetches result = some t' ∧ Carried file blocks leader t'
      ∧ t'.phase = .getting infos (fetches.set i ⟨id, [], got, true⟩) (result ++ got) := by
  have hholds := h.holds
  rw [hphase] at hholds
  unfold Transfer.append
  rw [hi]
  refine ⟨_, rfl, ⟨h.sound, h.jobs, h.started, ⟨hholds.lists, fun f hf q hq => ?_, ?_⟩⟩, rfl⟩
  · rcases List.mem_or_eq_of_mem_set hf with hf | rfl
    · exact hholds.stored f hf q hq
    · cases hq
  · have hgot : Fetch.pending blocks ⟨id, [], got, false⟩ = got := by simp [Fetch.pending]
    have hperm := flatMap_set_perm (f := Fetch.pending blocks) (y := ⟨id, [], got, true⟩) hi rfl
    rw [hgot] at hperm
    rw [List.append_assoc]
    exact (hperm.append_left _).trans hholds.perm

theorem Carried.transport_eq (h : Carried file blocks leader t) (hcut : Cut blocks)
    (sorter : Sorter) (hphase : t.phase = .getting infos fetches result)
    (hdone : ∀ f ∈ fetches, f.done = true) :
    ∃ t' sent, t.transport sorter infos fetches result = some t' ∧ Carried file blocks leader t'
      ∧ t'.phase = .got sent := by
  have hholds := h.holds
  rw [hphase] at hholds
  have hnil : fetches.flatMap (Fetch.pending blocks) = [] :=
    List.flatMap_eq_nil_iff.mpr fun f hf => by simp [Fetch.pending, hdone f hf]
  have hperm := hholds.perm
  rw [hnil, List.append_nil] at hperm
  obtain ⟨sent, hsent, hspec⟩ := fillAndSortBlocks_spec sorter hcut hholds.lists hperm
  unfold Transfer.transport
  rw [if_pos hdone, hsent]
  exact ⟨_, sent, rfl, ⟨h.sound, h.jobs, h.started, hspec⟩, rfl⟩

theorem Transfer.of_read {mishap : Mishap} (h : t.read i mishap infos fetches result = some t') :
    ∃ id p todo got, fetches[i]? = some ⟨id, p :: todo, got, false⟩ := by
  unfold read at h
  split at h
  · exact ⟨_, _, _, _, ‹_›⟩
  · cases h

theorem Transfer.of_append (h : t.append i infos fetches result = some t') :
    ∃ id got, fetches[i]? = some ⟨id, [], got, false⟩ := by
  unfold append at h
  split at h
  · exact ⟨_, _, ‹_›⟩
  · cases h

theorem Carried.step (h : Carried file blocks leader t) (hcut : Cut blocks)
    (hindexed : BlocksIndexed leader.storage.blocks)
    (hnew : leader.storage.getBlocks env.sorter file.id = []) {l : TransferLabel}
    (hl : l.Orderly (blocks.map Data.Block.id) t)
    (hstep : Transfer.step env file blocks l t = some t') : Carried file blocks leader t' := by
  unfold Transfer.step at hstep
  split at hstep
  · rename_i id l _
    obtain ⟨n, hn, rfl⟩ := Option.map_eq_some_iff.mp hstep
    have hmoved := Transfer.moved_setNode hl hn
    exact ⟨hmoved.sound h.sound, h.jobs, h.started, h.holds.moved hmoved h.sound rfl rfl⟩
  · rename_i hphase
    exact h.send hcut hphase hl hstep
  · rename_i hphase
    exact h.receive hphase hl hstep
  · rename_i hphase
    split_ifs at hstep with hif
    obtain rfl := Option.some.inj hstep
    exact h.register _ hphase hif.1 hif.2
  · rename_i hphase
    obtain rfl := Option.some.inj hstep
    exact h.registerFile _ hphase
  · rename_i hphase
    obtain rfl := Option.some.inj hstep
    exact h.get hcut hindexed hnew hphase hl
  · rename_i i mishap infos fetches result hphase
    obtain rfl : mishap = none := hl
    obtain ⟨id, p, todo, got, hi⟩ := Transfer.of_read hstep
    obtain ⟨t₁, ht₁, hcarried, -⟩ := h.read_eq hcut hphase hi
    exact Option.some.inj (ht₁.symm.trans hstep) ▸ hcarried
  · rename_i hphase
    obtain ⟨id, got, hi⟩ := Transfer.of_append hstep
    obtain ⟨t₁, ht₁, hcarried, -⟩ := h.append_eq hphase hi
    exact Option.some.inj (ht₁.symm.trans hstep) ▸ hcarried
  · rename_i fetches result hphase
    have hdone : ∀ f ∈ fetches, f.done = true := by
      unfold Transfer.transport at hstep
      split_ifs at hstep with hdone
      exact hdone
    obtain ⟨t₁, sent, ht₁, hcarried, -⟩ := h.transport_eq hcut env.sorter hphase hdone
    exact Option.some.inj (ht₁.symm.trans hstep) ▸ hcarried
  · cases hstep

/-- How much a goroutine has still to do. -/
def Fetch.rest (f : Fetch) : ℕ := if f.done then 0 else f.todo.length + 1

theorem Carried.fetch_step (h : Carried file blocks leader t) (env : Env) (hcut : Cut blocks)
    (hphase : t.phase = .getting infos fetches result) {f : Fetch} (hf : f ∈ fetches)
    (hnot : f.done ≠ true) : ∃ l t' fetches' result', l.isFetch = true
      ∧ Transfer.step env file blocks l t = some t' ∧ Carried file blocks leader t'
      ∧ t'.phase = .getting infos fetches' result'
      ∧ (fetches'.map Fetch.rest).sum < (fetches.map Fetch.rest).sum := by
  obtain ⟨i, hi⟩ := List.getElem?_of_mem hf
  obtain ⟨id, todo, got, done⟩ := f
  obtain rfl : done = false := by simpa using hnot
  cases todo with
  | nil =>
    obtain ⟨t', ht', hcarried, hphase'⟩ := h.append_eq hphase hi
    refine ⟨.append i, t', _, _, rfl, ?_, hcarried, hphase',
      sum_map_set_lt hi (by simp [Fetch.rest])⟩
    simp only [Transfer.step, hphase, ht']
  | cons p todo =>
    obtain ⟨t', ht', hcarried, b, hphase'⟩ := h.read_eq hcut hphase hi
    refine ⟨.read i none, t', _, _, rfl, ?_, hcarried, hphase',
      sum_map_set_lt hi (by simp [Fetch.rest])⟩
    simp only [Transfer.step, hphase, ht']

/-- `GetFileHandler` goes on until it has sent the blocks. -/
theorem Carried.finishes (env : Env) (hcut : Cut blocks) (n : ℕ) : ∀ {t : Transfer}
    {fetches : List Fetch} {result : List (Option Data.Block)}, Carried file blocks leader t →
    t.phase = .getting infos fetches result → (fetches.map Fetch.rest).sum < n →
      ∃ ls t' sent, (∀ l ∈ ls, l.isFetch = true)
        ∧ runSteps (Transfer.step env file blocks) ls t = some t'
        ∧ Carried file blocks leader t' ∧ t'.phase = .got sent := by
  induction n with
  | zero => exact fun _ _ hn => by cases hn
  | succ n ih =>
    intro t fetches result h hphase hn
    by_cases hdone : ∀ f ∈ fetches, f.done = true
    · obtain ⟨t', sent, ht', hcarried, hgot⟩ := h.transport_eq hcut env.sorter hphase hdone
      refine ⟨[.transport], t', sent, by simp [TransferLabel.isFetch], ?_, hcarried, hgot⟩
      simp [runSteps, Transfer.step, hphase, ht']
    · obtain ⟨f, hf, hnot⟩ := not_forall₂.mp hdone
      obtain ⟨l, t₁, fetches₁, result₁, hl, hstep, hcarried, hphase₁, hless⟩ :=
        h.fetch_step env hcut hphase hf hnot
      obtain ⟨ls, t', sent, hls, hrun, hend⟩ := ih hcarried hphase₁ (by omega)
      refine ⟨l :: ls, t', sent, by simpa [hl] using hls, ?_, hend⟩
      rw [runSteps, hstep]
      exact hrun

end Carried

section Whole

/-- Where `begin` gets, nothing has been lost yet. -/
theorem Carried.begin (file : FileInfo) (sorter : Sorter) {table : List Node}
    (htable : table ≠ []) (hbeat : ∀ node ∈ table, node.blocksUsed ≠ none)
    (blocks : List Data.Block) {replicationFactor : ℤ} (hr : 1 ≤ replicationFactor)
    (leader : Leader) :
    ∃ t₀, Transfer.begin sorter table blocks replicationFactor leader = some t₀
      ∧ Carried file blocks leader t₀ := by
  obtain ⟨t₀, ht₀, hleader, hphase₀, hnodes, hstarted, hjobs⟩ :=
    Transfer.begin_spec sorter htable hbeat blocks hr leader
  refine ⟨t₀, ht₀, .of_phase (fun id => hnodes id ▸ Data.sound_new)
    (fun job hjob => (hjobs job hjob).1) hstarted hphase₀
    ⟨hleader, by simp, fun job hjob k hk => ?_, fun job hjob hd => ?_⟩⟩
  · rw [(hjobs job hjob).2] at hk
    cases hk
  · rw [(hjobs job hjob).2] at hd
    cases hd

/-- What holds of the blocks in the order of their `Index` holds of those that are sent. -/
theorem Carried.sends {env : Env} {leader : Leader} {file : FileInfo} {blocks : List Data.Block}
    {table : List Node} {replicationFactor : ℤ} {Q : List Data.Block → Prop}
    (hindexed : BlocksIndexed leader.storage.blocks)
    (hnew : leader.storage.getBlocks env.sorter file.id = []) (hcut : Cut blocks)
    (htable : table ≠ []) (hbeat : ∀ node ∈ table, node.blocksUsed ≠ none)
    (hr : 1 ≤ replicationFactor)
    (hQ : ∀ sent, sent.Perm blocks ∧ (sent.Pairwise fun b c => b.index < c.index) → Q sent) :
    ∃ t₀, Transfer.begin env.sorter table blocks replicationFactor leader = some t₀
      ∧ ∀ ls t, Along (Transfer.step env file blocks)
          (TransferLabel.Orderly (blocks.map Data.Block.id)) ls t₀ →
        runSteps (Transfer.step env file blocks) ls t₀ = some t → t.phase ≠ .failed
          ∧ (∀ sent, t.phase = .got sent → Q sent)
          ∧ ∀ infos fetches result, t.phase = .getting infos fetches result →
            ∃ ls' t' sent, (∀ l ∈ ls', l.isFetch = true)
              ∧ runSteps (Transfer.step env file blocks) ls' t = some t' ∧ t'.phase = .got sent
              ∧ Q sent := by
  obtain ⟨t₀, ht₀, hbegin⟩ := Carried.begin file env.sorter htable hbeat blocks hr leader
  refine ⟨t₀, ht₀, fun ls t horderly hrun => ?_⟩
  have hcarried : Carried file blocks leader t :=
    Along.invariant (fun _ _ _ h hl hs => h.step hcut hindexed hnew hl hs) ls hbegin horderly hrun
  have hgot : ∀ {t : Transfer} {sent : List Data.Block}, Carried file blocks leader t →
      t.phase = .got sent → Q sent := by
    intro t sent h hsent
    have hholds := h.holds
    rw [hsent] at hholds
    exact hQ sent hholds
  refine ⟨fun hfailed => ?_, fun sent hsent => hgot hcarried hsent,
    fun infos fetches result hphase => ?_⟩
  · have hholds := hcarried.holds
    rwa [hfailed] at hholds
  · obtain ⟨ls', t', sent, hls, hrun', h', hsent⟩ :=
      Carried.finishes env hcut _ hcarried hphase (Nat.lt_succ_self _)
    exact ⟨ls', t', sent, hls, hrun', hsent, hgot h' hsent⟩

/-- Whatever the registry has served before, whichever nodes it knows, at least one and each with a
heartbeat, and whatever they hold: where the nodes that are chosen answer, and each sink that one of
the blocks goes to is flushed in batches that fit its partition, `GetFileHandler` does not fail and
can always go on; and the blocks it sends are those of the file, each once and as it was, in the
order of their `Index`. -/
theorem stored_blocks_come_back (env : Env) (reqs : List (Request × Fate)) {leader : Leader}
    (hserved : runSteps (serve env) reqs .empty = some leader) (file : FileInfo)
    (hnew : leader.storage.getBlocks env.sorter file.id = []) {blocks : List Data.Block}
    (hcut : Cut blocks) {table : List Node} (htable : table ≠ [])
    (hbeat : ∀ node ∈ table, node.blocksUsed ≠ none) {replicationFactor : ℤ}
    (hr : 1 ≤ replicationFactor) :
    ∃ t₀, Transfer.begin env.sorter table blocks replicationFactor leader = some t₀
      ∧ ∀ ls t, Along (Transfer.step env file blocks)
          (TransferLabel.Orderly (blocks.map Data.Block.id)) ls t₀ →
        runSteps (Transfer.step env file blocks) ls t₀ = some t → t.phase ≠ .failed
          ∧ (∀ sent, t.phase = .got sent →
            sent.Perm blocks ∧ sent.Pairwise fun b c => b.index < c.index)
          ∧ ∀ infos fetches result, t.phase = .getting infos fetches result →
            ∃ ls' t' sent, (∀ l ∈ ls', l.isFetch = true)
              ∧ runSteps (Transfer.step env file blocks) ls' t = some t' ∧ t'.phase = .got sent
              ∧ sent.Perm blocks ∧ sent.Pairwise fun b c => b.index < c.index :=
  Carried.sends (blocksIndexed_served hserved) hnew hcut htable hbeat hr fun _ h => h

/-- The second block of the file comes first. -/
def twoBlocks : List Data.Block := [⟨[2], 1, 1, [20]⟩, ⟨[1], 0, 2, [10, 11]⟩]

def someFile : FileInfo := ⟨[5], [], .file, [102], [102], 3, 0, [], [], [], 2⟩

/-- Both blocks go to one partition of a node that is new, and are fetched when they are written. -/
def throughOneNode : List TransferLabel :=
  [.send 0 [], .node [7] (.look 0 (some [9])), .node [7] (.put 0), .node [7] (.put 0),
    .node [7] (.finish 0), .receive 0, .register [[1], [2]] .fine,
    .node [7] (.part [9] .tick), .node [7] (.part [9] .drain), .node [7] (.part [9] .drain),
    .node [7] (.part [9] .drain), .node [7] (.part [9] .check),
    .node [7] (.part [9] (.write [([2], [20]), ([1], [10, 11])] [])),
    .node [7] (.part [9] (.index [(0, ⟨[2], 1, 0⟩), (1, ⟨[1], 2, 44⟩)] [])),
    .registerFile .fine, .get, .read 0 none, .read 0 none, .append 0, .transport]

theorem cut_twoBlocks : Cut twoBlocks := by
  constructor <;> decide

theorem stored_blocks_come_back_throughOneNode : ∃ t₀ t sent,
    Transfer.begin someEnv.sorter [⟨[7], some 0⟩] twoBlocks 2 .empty = some t₀
      ∧ runSteps (Transfer.step someEnv someFile twoBlocks) throughOneNode t₀ = some t
      ∧ t.phase = .got sent ∧ sent.Perm twoBlocks
      ∧ sent.Pairwise fun b c => b.index < c.index := by
  have htable : ([⟨[7], some 0⟩] : List Node) ≠ [] := by decide
  obtain ⟨t₀, ht₀, hall⟩ := stored_blocks_come_back someEnv [] rfl someFile (by decide +kernel)
    cut_twoBlocks htable (by decide) (by decide : (1 : ℤ) ≤ 2)
  have horderly : ∀ t ∈ Transfer.begin someEnv.sorter [⟨[7], some 0⟩] twoBlocks 2 .empty,
      Along (Transfer.step someEnv someFile twoBlocks)
        (TransferLabel.Orderly (twoBlocks.map Data.Block.id)) throughOneNode t := by
    decide +kernel
  have hsent : ((Transfer.begin someEnv.sorter [⟨[7], some 0⟩] twoBlocks 2 .empty).bind
      (runSteps (Transfer.step someEnv someFile twoBlocks) throughOneNode)).any
        (fun t => t.phase matches .got _) = true := by
    decide +kernel
  rw [ht₀, Option.bind_some, Option.any_eq_true] at hsent
  obtain ⟨t, hrun, hgot⟩ := hsent
  cases hphase : t.phase with
  | got sent =>
    exact ⟨t₀, t, sent, ht₀, hrun, hphase, (hall _ t (horderly t₀ ht₀) hrun).2.1 sent hphase⟩
  | _ =>
    rw [hphase] at hgot
    cases hgot

end Whole

end Rhosus.Registry

import Rhosus.Data.Uploads

/-!
# What a data node has taken

A call of `WriteBlocks` answers with a place for each of its blocks, and once the sinks have emptied
their queues each block is stored there (`Tracks.stores`), where the batches of these sinks fit. A
block may be left out because its queue was full for too long. But a full queue holds more blocks
than a partition has slots, so it is not emptied by batches that fit.
-/

namespace Rhosus.Data

section Moves

/-- The call has chosen its partitions, and the block goes to this one. -/
def Assign.Sends (a : Assign) (id pid : Bytes) : Prop :=
  a.stage ≠ .looking ∧ ∃ i < a.blocks.length,
    (a.blocks[i]?).map Block.id = some id ∧ a.parts[i % a.parts.length]? = some pid

/-- One of the blocks goes to the partition. -/
def DataNode.Involves (n : DataNode) (ids : List Bytes) (pid : Bytes) : Prop :=
  ∃ a ∈ n.calls, ∃ id ∈ ids, a.Sends id pid

/-- Blocks fit the slots and have new ids, and file operations succeed. Of the blocks `ids` none is
removed, and a batch fits where one of them may be in it. -/
def NodeMove.Careful (ids : List Bytes) (l : NodeMove) (n : DataNode) : Prop :=
  l.Plain ∧ l.Fresh n ∧ match l with
    | .part pid l =>
      (∀ id ∈ ids, l.Spares id) ∧ (n.Involves ids pid → ∀ s ∈ n.parts.lookup pid, l.Fits s)
    | _ => True

instance (a : Assign) (id pid : Bytes) : Decidable (a.Sends id pid) :=
  inferInstanceAs (Decidable (_ ∧ _))

instance (n : DataNode) (ids : List Bytes) (pid : Bytes) : Decidable (n.Involves ids pid) :=
  inferInstanceAs (Decidable (∃ a ∈ n.calls, ∃ id ∈ ids, _))

instance Move.decidableSpares : ∀ (l : Move) (id : Bytes), Decidable (l.Spares id)
  | .remove ids, id => inferInstanceAs (Decidable (id ∉ ids))
  | .put _, _ | .tick, _ | .drain, _ | .check, _ | .choose _, _ | .write .., _ | .index .., _
  | .look _, _ | .clearFull _, _ | .erase .., _ => inferInstanceAs (Decidable True)

instance NodeMove.decidableCareful (ids : List Bytes) :
    ∀ (l : NodeMove) (n : DataNode), Decidable (l.Careful ids n)
  | .part pid l, n => inferInstanceAs (Decidable (_ ∧ _ ∧ (∀ id ∈ ids, l.Spares id)
      ∧ (n.Involves ids pid → ∀ s ∈ n.parts.lookup pid, l.Fits s)))
  | .create _, _ | .assign .., _ | .look _ _, _ | .put _, _ | .wait _, _ | .expire _, _
  | .finish _, _ => inferInstanceAs (Decidable (_ ∧ _ ∧ True))

end Moves

section Kept

variable {n n' : DataNode} {l : NodeMove} {ids : List Bytes} {pid id d : Bytes} {b : Block}
  {s s' : Sink} {m : Bytes → Option Bytes}

/-- The block was put, and no call is to put it again. -/
def DataNode.Spent (n : DataNode) (id : Bytes) : Prop := id ∈ n.used ∧ id ∉ n.todo

theorem DataNode.Spent.step (h : n.Spent id) (hfresh : l.Fresh n) (hstep : n.step l = some n') :
    n'.Spent id :=
  ⟨used_step hstep h.1, fun hid => (todo_step hfresh hstep hid).elim h.2 (absurd h.1)⟩

theorem Touched.agrees (h : Touched n l pid s s') (hs : s.Holds m) (hagree : s.Agrees id d)
    (hspent : n.Spent id) : s'.Agrees id d := by
  cases h with
  | same => exact hagree
  | @own l' s' hl hput hstep =>
    refine hagree.step hs ?_ hstep
    cases l' with
    | put b => exact absurd rfl (hput b)
    | _ => trivial
  | put htodo hsmall hstep =>
    have hput : Move.Agrees (.put _) id d := fun hid => absurd (hid ▸ htodo) hspent.2
    exact hagree.step hs hput hstep

def DataNode.Keeps (n : DataNode) (pid : Bytes) (b : Block) : Prop :=
  ∃ s, n.parts.lookup pid = some s ∧ s.Keeps b.id b.data ∧ s.Agrees b.id b.data ∧ n.Spent b.id

def DataNode.Stores (n : DataNode) (pid : Bytes) (b : Block) : Prop :=
  ∃ s, n.parts.lookup pid = some s ∧ s.part.Stores b.id b.data ∧ s.Agrees b.id b.data
    ∧ n.Spent b.id

/-- The queue of the partition has been full and was not emptied since. -/
def DataNode.Jams (n : DataNode) (pid : Bytes) : Prop :=
  ∃ s Q, n.parts.lookup pid = some s ∧ s.Jams Q ∧ Q.Nodup ∧ partitionBlocksCount < Q.length

theorem DataNode.Keeps.step (h : n.Keeps pid b) (hn : Sound n) (hl : l.Careful ids n)
    (hb : b.id ∈ ids) (hinv : n.Involves ids pid) (hstep : n.step l = some n') :
    n'.Keeps pid b := by
  obtain ⟨s, hs, hkeeps, hagrees, hspent⟩ := h
  obtain ⟨m, hm⟩ := hn.holds pid s hs
  obtain ⟨s', hs', htouched⟩ := hn.touched hstep hs
  refine ⟨s', hs', ?_, htouched.agrees hm hagrees hspent, hspent.step hl.2.1 hstep⟩
  cases htouched with
  | same => exact hkeeps
  | own heq hput hsink =>
    subst heq
    exact hkeeps.step hm hl.1 (hl.2.2.1 _ hb) hagrees (hl.2.2.2 hinv s hs) hsink
  | put htodo hsmall hsink =>
    have hplain : Move.Plain (.put _) := hsmall
    exact hkeeps.step hm hplain trivial hagrees trivial hsink

theorem DataNode.Stores.step (h : n.Stores pid b) (hn : Sound n) (hl : l.Careful ids n)
    (hb : b.id ∈ ids) (hstep : n.step l = some n') : n'.Stores pid b := by
  obtain ⟨s, hs, hstores, hagrees, hspent⟩ := h
  obtain ⟨m, hm⟩ := hn.holds pid s hs
  obtain ⟨s', hs', htouched⟩ := hn.touched hstep hs
  refine ⟨s', hs', ?_, htouched.agrees hm hagrees hspent, hspent.step hl.2.1 hstep⟩
  cases htouched with
  | same => exact hstores
  | own heq hput hsink =>
    subst heq
    exact Sink.stores_step hstores hm hl.1 (hl.2.2.1 _ hb) hagrees hsink
  | put htodo hsmall hsink =>
    have hplain : Move.Plain (.put _) := hsmall
    exact Sink.stores_step hstores hm hplain trivial hagrees hsink

theorem DataNode.Jams.step (h : n.Jams pid) (hn : Sound n) (hl : l.Careful ids n)
    (hinv : n.Involves ids pid) (hstep : n.step l = some n') : n'.Jams pid := by
  obtain ⟨s, Q, hs, hjams, hQ, hlen⟩ := h
  obtain ⟨m, hm⟩ := hn.holds pid s hs
  obtain ⟨s', hs', htouched⟩ := hn.touched hstep hs
  refine ⟨s', Q, hs', ?_, hQ, hlen⟩
  cases htouched with
  | same => exact hjams
  | own heq hput hsink =>
    subst heq
    exact hjams.step hm hQ hlen (hl.2.2.2 hinv s hs) hsink
  | @put b _ htodo hsmall hsink =>
    have hfits : (Move.put b).Fits s := trivial
    exact hjams.step hm hQ hlen hfits hsink

/-- The sink has nothing in its queue and nothing in hand. -/
def Sink.Flushed (s : Sink) : Prop := s.queue = [] ∧ s.stage.blocks = []

instance : Decidable s.Flushed := inferInstanceAs (Decidable (_ ∧ _))

theorem Sink.Flushed.ids_eq (h : s.Flushed) : s.queued = [] ∧ s.stage.ids = [] := by
  simp [queued, Stage.ids, h.1, h.2]

/-- Each sink that one of the blocks goes to is flushed. -/
def DataNode.Flushed (n : DataNode) (ids : List Bytes) : Prop :=
  ∀ e ∈ n.parts.entries, n.Involves ids e.1 → e.2.Flushed

instance : Decidable (n.Flushed ids) := inferInstanceAs (Decidable (∀ e ∈ n.parts.entries, _))

/-- A batch in hand is written, which leaves the node flushed if it has no other partition. -/
theorem DataNode.exists_write (ids : List Bytes) {n : DataNode} {pid : Bytes} {s : Sink}
    {batch : List (Bytes × Bytes)} (hkeys : n.parts.keys = [pid])
    (hs : n.parts.lookup pid = some s) (hopen : s.part.closed = false) (hqueue : s.queue = [])
    (hstage : s.stage = .write batch) :
    ∃ l n', l.Careful ids n ∧ n.step l = some n' ∧ n'.Flushed ids := by
  have hstep : s.step (.write batch []) = some { s with
      part := (s.part.writeBlocks batch []).part
      stage := .index ((s.part.writeBlocks batch []).idxs.entries.map fun e => (e.1, e.2)) } := by
    simp [Sink.step, Sink.flush, hstage, hopen]
  refine ⟨.part pid (.write batch []), _, ⟨rfl, trivial, fun _ _ => trivial, fun _ _ _ => trivial⟩,
    by simp only [step, hs, hstep, Option.map_some]; rfl, fun e he _ => ?_⟩
  have hlookup := AList.mem_lookup_iff.mpr he
  rcases eq_or_ne e.1 pid with hpid | hpid
  · rw [hpid, setSink, AList.lookup_insert] at hlookup
    rw [← Option.some.inj hlookup]
    exact ⟨hqueue, rfl⟩
  · rw [setSink, AList.lookup_insert_ne hpid] at hlookup
    have hmem : e.1 ∈ n.parts.keys := AList.lookup_isSome.mp (Option.isSome_of_mem hlookup)
    rw [hkeys] at hmem
    exact absurd (List.mem_singleton.mp hmem) hpid

theorem DataNode.Flushed.sink (h : n.Flushed ids) (hinv : n.Involves ids pid) {s : Sink}
    (hs : n.parts.lookup pid = some s) : s.Flushed :=
  h ⟨pid, s⟩ (AList.mem_lookup_iff.mp hs) hinv

theorem DataNode.Keeps.stores (h : n.Keeps pid b) (hflushed : n.Flushed ids)
    (hinv : n.Involves ids pid) : n.Stores pid b := by
  obtain ⟨s, hs, hkeeps, hrest⟩ := h
  obtain ⟨hq, hst⟩ := (hflushed.sink hinv hs).ids_eq
  refine ⟨s, hs, ?_, hrest⟩
  simpa [Sink.Keeps, hq, hst] using hkeeps

theorem DataNode.Jams.not_flushed (h : n.Jams pid) (hinv : n.Involves ids pid) :
    ¬ n.Flushed ids := by
  intro hflushed
  obtain ⟨s, Q, hs, hjams, -, hlen⟩ := h
  obtain ⟨hq, hst⟩ := (hflushed.sink hinv hs).ids_eq
  have hsub : Q ⊆ [] := by
    rw [Sink.Jams, hq, hst] at hjams
    refine hjams.elim id fun h => ?_
    split at h
    · exact h
    · exact h
    · exact h.elim
  rw [List.subset_nil.mp hsub] at hlen
  cases hlen

theorem DataNode.Stores.read {p : BlockPlacementInfo} (h : n.Stores p.partitionID b)
    (hn : Sound n) (hid : b.id = p.blockID) :
    n.readBlock p none = .ok (some ⟨b.id, 0, b.data.length, b.data⟩) := by
  obtain ⟨s, hs, hstores, -⟩ := h
  obtain ⟨m, hm⟩ := hn.holds _ s hs
  obtain ⟨result, hread, hlook⟩ := hstores.read hm.isOpen (List.mem_singleton_self b.id)
  have hread : s.part.readBlocks [b.id] [none] = .ok result := hread
  rw [hid] at hread hlook
  simp only [readBlock, hn.up, Bool.false_eq_true, if_false, hs, hread, hlook, hid]

end Kept

section Tracked

variable {n n' : DataNode} {l : NodeMove} {ids : List Bytes} {pid : Bytes} {k : ℕ} {a a' : Assign}

/-- The call has put each block it came to, and the sinks keep them; or a queue was full. -/
structure Tracks (n : DataNode) (a : Assign) : Prop where
  looking : a.stage = .looking → a.next = 0
  ended : a.stage = .done → a.blocks.length ≤ a.next
  placed : (∃ b ∈ a.blocks, ∃ pid, a.Sends b.id pid ∧ n.Jams pid)
    ∨ a.stage ≠ .waiting
      ∧ a.placement.map BlockPlacementInfo.blockID = (a.blocks.take a.next).map Block.id
      ∧ ∀ p ∈ a.placement, ∃ b ∈ a.blocks, b.id = p.blockID ∧ a.Sends b.id p.partitionID
        ∧ n.Keeps p.partitionID b

theorem Assign.Sends.involves {id : Bytes} (h : a.Sends id pid) (ha : a ∈ n.calls)
    (hid : id ∈ ids) : n.Involves ids pid :=
  ⟨a, ha, id, hid, h⟩

theorem Assign.sends_target {b : Block} (ht : a.target = some (b, pid)) (hst : a.stage ≠ .looking) :
    a.Sends b.id pid := by
  obtain ⟨hb, hp⟩ := target_eq ht
  refine ⟨hst, a.next, (List.getElem?_eq_some_iff.mp hb).1, ?_, hp⟩
  rw [hb, Option.map_some]

theorem Tracks.sinks (h : Tracks n a) (hn : Sound n) (ha : a ∈ n.calls)
    (hids : ∀ b ∈ a.blocks, b.id ∈ ids) (hl : l.Careful ids n) (hstep : n.step l = some n') :
    Tracks n' a := by
  refine ⟨h.looking, h.ended, h.placed.imp ?_ ?_⟩
  · rintro ⟨b, hb, pid, hsends, hjams⟩
    exact ⟨b, hb, pid, hsends, hjams.step hn hl (hsends.involves ha (hids b hb)) hstep⟩
  · rintro ⟨hst, hmap, hplaced⟩
    refine ⟨hst, hmap, fun p hp => ?_⟩
    obtain ⟨b, hb, hid, hsends, hkeeps⟩ := hplaced p hp
    exact ⟨b, hb, hid, hsends,
      hkeeps.step hn hl (hids b hb) (hsends.involves ha (hids b hb)) hstep⟩

theorem Tracks.look (h : Tracks n a) (ha : a.stage = .looking) (looking parts : List Bytes)
    {stage : AssignStage} (hst : stage ≠ .waiting ∧ stage ≠ .done) :
    Tracks n { a with looking, parts, stage } := by
  have hnext := h.looking ha
  have hplacement : a.placement = [] := by
    rcases h.placed with ⟨b, hb, pid, hsends, -⟩ | ⟨-, hmap, -⟩
    · exact absurd ha hsends.1
    · simpa [hnext] using hmap
  refine ⟨fun _ => hnext, fun hd => absurd hd hst.2, .inr ⟨hst.1, ?_, ?_⟩⟩
  · simp [hplacement, hnext]
  · simp [hplacement]

theorem Tracks.put {b : Block} (h : Tracks n a) (ht : a.target = some (b, pid))
    (ha : a.stage = .putting ∨ a.stage = .waiting) (hkeeps : n.Keeps pid b) :
    Tracks n (a.placed b pid) := by
  have hst : a.stage ≠ .looking := by rcases ha with ha | ha <;> rw [ha] <;> decide
  have hsends : ∀ {id q : Bytes}, a.Sends id q → (a.placed b pid).Sends id q :=
    fun hs => ⟨nofun, hs.2⟩
  obtain ⟨hb, -⟩ := Assign.target_eq ht
  refine ⟨nofun, nofun, h.placed.imp ?_ ?_⟩
  · rintro ⟨c, hc, q, hc', hjams⟩
    exact ⟨c, hc, q, hsends hc', hjams⟩
  · rintro ⟨-, hmap, hplaced⟩
    refine ⟨nofun, ?_, fun p hp => ?_⟩
    · have htake : a.blocks.take (a.next + 1) = a.blocks.take a.next ++ [b] := by
        rw [List.take_add_one, hb]
        rfl
      simp only [Assign.placed, List.map_append, hmap, htake, List.map_cons, List.map_nil]
    · rcases List.mem_append.mp hp with hp | hp
      · obtain ⟨c, hc, hid, hc', hkeeps⟩ := hplaced p hp
        exact ⟨c, hc, hid, hsends hc', hkeeps⟩
      · obtain rfl := List.mem_singleton.mp hp
        exact ⟨b, List.mem_of_getElem? hb, rfl, hsends (Assign.sends_target ht hst), hkeeps⟩

theorem Sound.keeps_put (hn : Sound n) {b : Block} {s s' : Sink} (hk : n.calls[k]? = some a)
    (ht : a.target = some (b, pid)) (hs : n.parts.lookup pid = some s)
    (hput : s.step (.put b) = some s') :
    ((n.setSink pid s').setCall k (a.placed b pid)).Keeps pid b := by
  have hb := List.mem_of_getElem? (Assign.target_eq ht).1
  have hnew := hn.apart pid s hs _ (Assign.target_todo hk ht)
  refine ⟨s', AList.lookup_insert _, ?_, ?_, ?_, ?_⟩
  · left
    rw [(Sink.queued_put hput).1]
    exact List.mem_append_right _ (List.mem_singleton_self _)
  · rw [Sink.ids, List.mem_append, not_or] at hnew
    have hagrees : s.Agrees b.id b.data :=
      ⟨fun c hc hid => absurd (hid ▸ List.mem_map_of_mem hc) hnew.1,
        fun c hc hid => absurd (hid ▸ List.mem_map_of_mem hc) hnew.2⟩
    obtain ⟨m, hm⟩ := hn.holds pid s hs
    have hsame : (Move.put b).Agrees b.id b.data := fun _ => rfl
    exact hagrees.step hm hsame hput
  · exact DataNode.used_setCall (DataNode.mem_used (List.mem_of_getElem? hk) hb) hk rfl
  · exact notMem_flatMap_set hk (Assign.todo_placed ht) hn.todo

theorem Sound.jams_of_full (hn : Sound n) {s : Sink} (hs : n.parts.lookup pid = some s)
    (hfull : sinkCapacity ≤ s.queue.length) : n.Jams pid := by
  refine ⟨s, s.queued, hs, .inl (List.Subset.refl _), hn.queued pid s hs, ?_⟩
  rw [Sink.queued, List.length_map]
  exact Nat.lt_of_lt_of_le (by decide) hfull

theorem Tracks.step (h : Tracks n a) (hn : Sound n) (hk : n.calls[k]? = some a)
    (hids : ∀ b ∈ a.blocks, b.id ∈ ids) (hl : l.Careful ids n) (hstep : n.step l = some n') :
    ∃ a', n'.calls[k]? = some a' ∧ a'.blocks = a.blocks ∧ Tracks n' a' := by
  have hsinks := h.sinks hn (List.mem_of_getElem? hk) hids hl hstep
  have hset : ∀ {j : ℕ} {c c' : Assign}, n.calls[j]? = some c → c'.blocks = c.blocks →
      (Tracks n' c → Tracks n' c') →
        ∃ a', (n.calls.set j c')[k]? = some a' ∧ a'.blocks = a.blocks ∧ Tracks n' a' := by
    intro j c c' hj hblocks htracks
    by_cases hjk : j = k
    · subst hjk
      obtain rfl := Option.some.inj (hj.symm.trans hk)
      exact ⟨c', List.getElem?_set_self (List.getElem?_eq_some_iff.mp hk).1,
        hblocks, htracks hsinks⟩
    · exact ⟨a, (List.getElem?_set_ne hjk).trans hk, rfl, hsinks⟩
  cases nodeStepped hstep with
  | part | create => exact ⟨a, hk, rfl, hsinks⟩
  | assign =>
    exact ⟨a, (List.getElem?_append_left (List.getElem?_eq_some_iff.mp hk).1).trans hk, rfl, hsinks⟩
  | look hj hc looking parts stage hparts hstage =>
    exact hset hj rfl fun h => h.look hc looking parts hstage
  | lookCreate hj hc => exact hset hj rfl fun h => h.look hc _ _ ⟨nofun, nofun⟩
  | put hj hc ht hs hput =>
    exact hset hj rfl fun h => h.put ht hc (hn.keeps_put hj ht hs hput)
  | @wait j c b q s hj hc ht hs hfull =>
    refine hset hj rfl fun _ => ⟨nofun, nofun, .inl ?_⟩
    have hb := List.mem_of_getElem? (Assign.target_eq ht).1
    have hsends := Assign.sends_target ht (by rw [hc]; decide)
    exact ⟨b, hb, q, ⟨nofun, hsends.2⟩, hn.jams_of_full hs hfull⟩
  | @expire j c hj hc =>
    refine hset hj rfl fun h => ⟨nofun, nofun, .inl ?_⟩
    obtain ⟨b, hb, q, hsends, hjams⟩ := h.placed.resolve_right fun h => h.1 hc
    exact ⟨b, hb, q, ⟨nofun, hsends.2⟩, hjams⟩
  | @finish j c hj hc hall =>
    refine hset hj rfl fun h => ⟨nofun, fun _ => hall, h.placed.imp ?_ ?_⟩
    · rintro ⟨b, hb, q, hsends, hjams⟩
      exact ⟨b, hb, q, ⟨nofun, hsends.2⟩, hjams⟩
    · rintro ⟨-, hmap, hplaced⟩
      refine ⟨nofun, hmap, fun p hp => ?_⟩
      obtain ⟨b, hb, hid, hsends, hkeeps⟩ := hplaced p hp
      exact ⟨b, hb, hid, ⟨nofun, hsends.2⟩, hkeeps⟩

theorem tracks_assign (n : DataNode) (blocks : List Block) (order : List Bytes)
    {stage : AssignStage} (hst : stage = .looking ∨ ∃ e, stage = .failed e) :
    Tracks n ⟨blocks, order, [], 0, [], stage⟩ := by
  refine ⟨fun _ => rfl, fun hd => ?_, .inr ⟨fun hw => ?_, rfl, by simp⟩⟩
  · rcases hst with rfl | ⟨e, rfl⟩ <;> cases hd
  · rcases hst with rfl | ⟨e, rfl⟩ <;> cases hw

/-- Once the sinks are flushed, every block of a call that has ended is stored where it says. -/
theorem Tracks.stores (h : Tracks n a) (ha : a.stage = .done) (hcall : a ∈ n.calls)
    (hids : ∀ b ∈ a.blocks, b.id ∈ ids) (hflushed : n.Flushed ids) :
    a.placement.map BlockPlacementInfo.blockID = a.blocks.map Block.id
      ∧ ∀ p ∈ a.placement, ∃ b ∈ a.blocks, b.id = p.blockID ∧ n.Stores p.partitionID b := by
  rcases h.placed with ⟨b, hb, pid, hsends, hjams⟩ | ⟨-, hmap, hplaced⟩
  · exact absurd hflushed (hjams.not_flushed (hsends.involves hcall (hids b hb)))
  · rw [List.take_of_length_le (h.ended ha)] at hmap
    refine ⟨hmap, fun p hp => ?_⟩
    obtain ⟨b, hb, hid, hsends, hkeeps⟩ := hplaced p hp
    exact ⟨b, hb, hid, hkeeps.stores hflushed (hsends.involves hcall (hids b hb))⟩

end Tracked

end Rhosus.Data

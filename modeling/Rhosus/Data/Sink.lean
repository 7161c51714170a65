import Rhosus.Data.Slots
import Rhosus.Lib.Runs

/-!
# The sink of a partition

Blocks come to a partition through a queue. A goroutine drains it at every tick and writes the
blocks as a batch, or as many of them as there is room for. Calls that remove blocks run beside it.
Both look at the table and at `full` outside the lock as well, so a step here is what they do
between two such looks.

A batch is written only where it fits, as blocks can but leave between the look and the write. So
the partition is a map from ids to data, in which each write sets what it is given and each removal
drops what it names (`partition_refines_map`).
-/

namespace Rhosus.Data

def sinkCapacity : ℕ := 1000

/-- How far the goroutine of the sink is. -/
inductive Stage
  | idle
  | draining (blocks : AList fun _ : Bytes => Bytes)
  | drained (blocks : List (Bytes × Bytes))
  /-- There is no room for all of the batch. -/
  | over (blocks : List (Bytes × Bytes))
  | write (blocks : List (Bytes × Bytes))
  /-- The blocks are in the table, and their headers are to be written. -/
  | index (idxs : List (ℕ × IdxBlock))

/-- How far a call of `RemoveBlocks` is that has let go of the lock, with the slots whose headers
are to be erased. -/
inductive Removal
  | unlocked (slots : List ℕ)
  /-- It has seen room in the table. -/
  | notFull (slots : List ℕ)
  | erase (slots : List ℕ)
  | done

structure Sink where
  part : Partition
  queue : List Block
  stage : Stage
  removals : List Removal

/-- The batch the goroutine has in hand. -/
def Stage.blocks : Stage → List (Bytes × Bytes)
  | .draining blocks => blocks.entries.map fun e => (e.1, e.2)
  | .drained blocks | .over blocks | .write blocks => blocks
  | .idle | .index _ => []

inductive Move
  /-- A `put` finds room in the queue. -/
  | put (b : Block)
  | tick
  /-- The next block is taken from the queue, if there is one. -/
  | drain
  | check
  /-- The blocks that there is room for are chosen, in an order in which the batch
  is gone through. -/
  | choose (order : List (Bytes × Bytes))
  | write (order : List (Bytes × Bytes)) (io : List Mishap)
  | index (order : List (ℕ × IdxBlock)) (io : List Mishap)
  | remove (ids : List Bytes)
  /-- The removal `k` looks at the table. -/
  | look (k : ℕ)
  | clearFull (k : ℕ)
  | erase (k : ℕ) (io : List Mishap)

namespace Sink

def new (file idxFile : File) : Sink := ⟨.new file idxFile, [], .idle, []⟩

/-- The first `count` of the blocks: all of them for a negative `count`, which is never reached. -/
def firstBlocks (count : ℤ) (order : List (Bytes × Bytes)) : List (Bytes × Bytes) :=
  if count < 0 then order else order.take count.toNat

def flush (l : Move) (s : Sink) : Option Sink :=
  match l, s.stage with
  | .tick, .idle => some { s with stage := .draining ∅ }
  | .drain, .draining blocks =>
    match s.queue with
    | b :: queue => some { s with queue, stage := .draining (blocks.insert b.id b.data) }
    | [] => some { s with stage := if blocks.entries = [] then .idle else .drained s.stage.blocks }
  | .check, .drained blocks =>
    some { s with
      stage := if s.part.isAvailable blocks.length then .write blocks else .over blocks }
  | .choose order, .over blocks =>
    if order.Perm blocks then
      some { s with stage := .write (firstBlocks s.part.getAvailableBlocks order) }
    else none
  | .write order io, .write blocks =>
    if order.Perm blocks then
      if s.part.closed then some { s with stage := .idle }
      else
        let w := s.part.writeBlocks order io
        some { s with part := w.part, stage := .index (w.idxs.entries.map fun e => (e.1, e.2)) }
    else none
  | .index order io, .index idxs =>
    -- an error is logged, and a `Sync` follows otherwise
    if order.Perm idxs then some { s with part := (s.part.writeIdxs order io).2, stage := .idle }
    else none
  | _, _ => none

def removal (l : Move) (s : Sink) : Option Sink :=
  match l with
  | .remove ids =>
    if s.part.closed then some s
    else
      let (slots, part) := s.part.removeBlocks ids
      some { s with part, removals := s.removals ++ [.unlocked slots] }
  | .look k =>
    match s.removals[k]? with
    | some (.unlocked slots) =>
      let next := if s.part.len < partitionBlocksCount then .notFull slots else .erase slots
      some { s with removals := s.removals.set k next }
    | _ => none
  | .clearFull k =>
    match s.removals[k]? with
    | some (.notFull slots) =>
      some { s with
        part := { s.part with full := false }, removals := s.removals.set k (.erase slots) }
    | _ => none
  | .erase k io =>
    match s.removals[k]? with
    | some (.erase slots) =>
      some { s with
        part := s.part.eraseIdxs (Partition.headerBytes slots) io
        removals := s.removals.set k .done }
    | _ => none
  | _ => none

def step (l : Move) (s : Sink) : Option Sink :=
  match l with
  | .put b =>
    if s.queue.length < sinkCapacity then some { s with queue := s.queue ++ [b] } else none
  | .tick | .drain | .check | .choose _ | .write .. | .index .. => s.flush l
  | .remove _ | .look _ | .clearFull _ | .erase .. => s.removal l

end Sink

section Cases

/-- The moves that leave the data and the queue as they are. -/
def Move.touches : Move → Bool
  | .index .. | .look _ | .clearFull _ | .erase .. => true
  | _ => false

inductive Stepped (s : Sink) : Move → Sink → Prop
  | put (b : Block) (hroom : s.queue.length < sinkCapacity) :
    Stepped s (.put b) { s with queue := s.queue ++ [b] }
  | tick (hs : s.stage = .idle) : Stepped s .tick { s with stage := .draining ∅ }
  | take {blocks : AList fun _ : Bytes => Bytes} {b : Block} {queue : List Block}
    (hs : s.stage = .draining blocks) (hq : s.queue = b :: queue) :
    Stepped s .drain { s with queue, stage := .draining (blocks.insert b.id b.data) }
  | empty {blocks : AList fun _ : Bytes => Bytes} (hs : s.stage = .draining blocks)
    (hq : s.queue = []) : Stepped s .drain
      { s with stage := if blocks.entries = [] then .idle else .drained s.stage.blocks }
  | check {blocks : List (Bytes × Bytes)} (hs : s.stage = .drained blocks) : Stepped s .check
      { s with stage := if s.part.isAvailable blocks.length then .write blocks else .over blocks }
  | choose {blocks order : List (Bytes × Bytes)} (hs : s.stage = .over blocks)
    (ho : order.Perm blocks) : Stepped s (.choose order)
      { s with stage := .write (Sink.firstBlocks s.part.getAvailableBlocks order) }
  | write {blocks order : List (Bytes × Bytes)} {io : List Mishap} (hs : s.stage = .write blocks)
    (ho : order.Perm blocks) (hopen : s.part.closed = false) (idxs : List (ℕ × IdxBlock)) :
    Stepped s (.write order io)
      { s with part := (s.part.writeBlocks order io).part, stage := .index idxs }
  | remove (ids : List Bytes) (hopen : s.part.closed = false) (removals : List Removal) :
    Stepped s (.remove ids) { s with part := (s.part.removeBlocks ids).2, removals }
  /-- The batch is dropped. -/
  | refusedWrite {blocks order : List (Bytes × Bytes)} {io : List Mishap}
    (hclosed : s.part.closed = true) (hs : s.stage = .write blocks) (ho : order.Perm blocks) :
    Stepped s (.write order io) { s with stage := .idle }
  | refusedRemove {ids : List Bytes} (hclosed : s.part.closed = true) : Stepped s (.remove ids) s
  /-- Only headers, `full`, and what is to be done to them change. -/
  | touch {l : Move} (hl : l.touches = true) {part : Partition} {stage : Stage}
    (removals : List Removal) (hfile : part.file = s.part.file)
    (hmap : part.blocksMap = s.part.blocksMap) (hclosed : part.closed = s.part.closed)
    (hstage : stage = s.stage ∨ s.stage.blocks = [] ∧ stage = .idle) :
    Stepped s l { s with part, stage, removals }

variable {s s' : Sink} {l : Move}

theorem Sink.flush_stepped (h : s.flush l = some s') : Stepped s l s' := by
  unfold flush at h
  split at h
  · rename_i hs
    exact Option.some.inj h ▸ .tick hs
  · rename_i blocks hs
    split at h
    · rename_i hq
      exact Option.some.inj h ▸ .take hs hq
    · rename_i hq
      exact Option.some.inj h ▸ .empty hs hq
  · rename_i hs
    exact Option.some.inj h ▸ .check hs
  · rename_i hs
    split_ifs at h with ho
    exact Option.some.inj h ▸ .choose hs ho
  · rename_i hs
    split_ifs at h with ho hc
    · exact Option.some.inj h ▸ .refusedWrite hc hs ho
    · exact Option.some.inj h ▸ .write hs ho (by simpa using hc) _
  · rename_i order io idxs hs
    split_ifs at h with ho
    obtain ⟨idxFile, hidx⟩ := Partition.writeIdxs_eq order io s.part
    obtain rfl := Option.some.inj h
    rw [hidx]
    exact .touch rfl s.removals rfl rfl rfl (.inr ⟨by rw [hs]; rfl, rfl⟩)
  · cases h

theorem Sink.removal_stepped (h : s.removal l = some s') : Stepped s l s' := by
  unfold removal at h
  split at h
  · split_ifs at h with hc
    · exact Option.some.inj h ▸ .refusedRemove hc
    · exact Option.some.inj h ▸ .remove _ (by simpa using hc) _
  · split at h
    · exact Option.some.inj h ▸ .touch rfl _ rfl rfl rfl (.inl rfl)
    · cases h
  · split at h
    · obtain rfl := Option.some.inj h
      exact .touch rfl _ rfl rfl rfl (.inl rfl)
    · cases h
  · rename_i k io
    split at h
    · rename_i slots _
      obtain ⟨idxFile, hidx⟩ := Partition.eraseIdxs_eq (Partition.headerBytes slots) io s.part
      obtain rfl := Option.some.inj h
      rw [hidx]
      exact .touch rfl _ rfl rfl rfl (.inl rfl)
    · cases h
  · cases h

theorem stepped (h : s.step l = some s') : Stepped s l s' := by
  cases l with
  | put b =>
    rw [Sink.step] at h
    split_ifs at h with hroom
    exact Option.some.inj h ▸ .put b hroom
  | tick | drain | check | choose | write | index => exact Sink.flush_stepped h
  | remove | look | clearFull | erase => exact Sink.removal_stepped h

end Cases

section Refine

variable {s s' : Sink} {l : Move} {m : Bytes → Option Bytes}

/-- What a step asks of a map from ids to data. -/
def Move.apply : Move → (Bytes → Option Bytes) → Bytes → Option Bytes
  | .write order _, m => Partition.store order m
  | .remove ids, m => Partition.unstore ids m
  | _, m => m

def contents (moves : List Move) : Bytes → Option Bytes :=
  moves.foldl (fun m l => l.apply m) fun _ => none

/-- Blocks that are put fit a slot, and file operations succeed. -/
def Move.Plain : Move → Prop
  | .put b => b.data.length ≤ defaultBlockSize
  | .write _ io | .index _ io | .erase _ io => io = []
  | _ => True

instance : ∀ l : Move, Decidable l.Plain
  | .put _ => inferInstanceAs (Decidable (_ ≤ _))
  | .write _ _ | .index _ _ | .erase _ _ => inferInstanceAs (Decidable (_ = _))
  | .tick | .drain | .check | .choose _ | .remove _ | .look _ | .clearFull _ =>
    inferInstanceAs (Decidable True)

/-- The partition holds the map; the blocks on their way to it fit its slots, and where they are to
be written there is room for them. -/
structure Sink.Holds (s : Sink) (m : Bytes → Option Bytes) : Prop where
  part : s.part.Holds m
  isOpen : s.part.closed = false
  queue : ∀ b ∈ s.queue, b.data.length ≤ defaultBlockSize
  batch : ∀ b ∈ s.stage.blocks, b.2.length ≤ defaultBlockSize
  room : ∀ blocks, s.stage = .write blocks → s.part.len + blocks.length ≤ partitionBlocksCount

theorem Sink.holds_new (file idxFile : File) : (Sink.new file idxFile).Holds fun _ => none :=
  ⟨Partition.holds_new _ _, rfl, by simp [new], by simp [new, Stage.blocks], by simp [new]⟩

theorem Sink.Holds.not_closed (h : s.Holds m) : s.part.closed ≠ true := by simp [h.isOpen]

theorem Stage.mem_blocks_insert {blocks : AList fun _ : Bytes => Bytes} {id data : Bytes}
    {b : Bytes × Bytes} (hb : b ∈ (Stage.draining (blocks.insert id data)).blocks) :
    b = (id, data) ∨ b ∈ (Stage.draining blocks).blocks := by
  simp only [Stage.blocks, AList.entries_insert, List.map_cons, List.mem_cons] at hb ⊢
  refine hb.imp_right fun hb => ?_
  obtain ⟨e, he, rfl⟩ := List.mem_map.mp hb
  exact List.mem_map.mpr ⟨e, (List.kerase_sublist id _).mem he, rfl⟩

theorem Sink.length_firstBlocks {p : Partition} (h : p.Wf) (order : List (Bytes × Bytes)) :
    p.len + (firstBlocks p.getAvailableBlocks order).length ≤ partitionBlocksCount
      ∧ ∀ b ∈ firstBlocks p.getAvailableBlocks order, b ∈ order := by
  have hlen := h.len_le
  have hcount : ¬ p.getAvailableBlocks < 0 := by
    unfold Partition.getAvailableBlocks
    omega
  rw [firstBlocks, if_neg hcount]
  refine ⟨?_, fun b hb => List.mem_of_mem_take hb⟩
  rw [List.length_take]
  unfold Partition.getAvailableBlocks at hcount ⊢
  omega

theorem Sink.Holds.step (h : s.Holds m) (hl : l.Plain) (hstep : s.step l = some s') :
    s'.Holds (l.apply m) := by
  cases stepped hstep with
  | put b hroom =>
    refine ⟨h.part, h.isOpen, fun c hc => ?_, h.batch, h.room⟩
    rcases List.mem_append.mp hc with hc | hc
    · exact h.queue c hc
    · rw [List.mem_singleton.mp hc]
      exact hl
  | tick => exact ⟨h.part, h.isOpen, h.queue, by simp [Stage.blocks], by simp⟩
  | @take blocks b queue hs hq =>
    refine ⟨h.part, h.isOpen, fun c hc => h.queue c (hq ▸ List.mem_cons_of_mem _ hc),
      fun c hc => ?_, by simp⟩
    rcases Stage.mem_blocks_insert hc with rfl | hc
    · exact h.queue b (hq ▸ List.mem_cons_self)
    · exact h.batch c (hs ▸ hc)
  | empty hs hq =>
    refine ⟨h.part, h.isOpen, h.queue, fun c hc => ?_, fun blocks hb => ?_⟩
    · dsimp only at hc
      split_ifs at hc
      · simp [Stage.blocks] at hc
      · exact h.batch c hc
    · dsimp only at hb
      split_ifs at hb
  | @check blocks hs =>
    have hbatch : ∀ c ∈ blocks, c.2.length ≤ defaultBlockSize := fun c hc => h.batch c (hs ▸ hc)
    refine ⟨h.part, h.isOpen, h.queue, fun c hc => ?_, fun blocks' hb => ?_⟩
    · dsimp only at hc
      split_ifs at hc
      · exact hbatch c hc
      · exact hbatch c hc
    · dsimp only at hb
      split_ifs at hb with ha
      obtain rfl := Stage.write.inj hb
      simp only [Partition.isAvailable, Bool.and_eq_true, decide_eq_true_eq] at ha
      exact ha.2
  | @choose blocks order hs ho =>
    obtain ⟨hlen, hmem⟩ := length_firstBlocks h.part.wf order
    refine ⟨h.part, h.isOpen, h.queue, fun c hc => ?_, fun blocks' hb => ?_⟩
    · exact h.batch c (hs ▸ ho.subset (hmem c hc))
    · obtain rfl := Stage.write.inj hb
      exact hlen
  | @write blocks order io hs ho hopen idxs =>
    obtain rfl : io = [] := hl
    have hlen := h.room blocks hs
    rw [← ho.length_eq] at hlen
    obtain ⟨hpart, -⟩ := Partition.Holds.blocks order (w := ⟨s.part, ∅, [], []⟩) h.part rfl hlen
      fun b hb => h.batch b (hs ▸ ho.subset hb)
    refine ⟨hpart, ?_, h.queue, by simp [Stage.blocks], by simp⟩
    exact (Partition.writeBlocks_closed _ _ _).trans hopen
  | remove ids hopen removals =>
    obtain ⟨blocksMap, heq⟩ := s.part.removeBlocks_eq ids
    refine ⟨h.part.removeBlocks ids, ?_, h.queue, h.batch, fun blocks hb => ?_⟩
    · rw [heq]
      exact hopen
    · exact (Nat.add_le_add_right (s.part.len_removeBlocks_le ids) _).trans (h.room blocks hb)
  | refusedWrite hclosed | refusedRemove hclosed => exact (h.not_closed hclosed).elim
  | @touch _ hl' part stage removals hfile hmap hclosed hstage =>
    have happly : l.apply m = m := by cases l <;> first | rfl | cases hl'
    have hlen : part.len = s.part.len := by rw [Partition.len, hmap, Partition.len]
    rw [happly]
    refine ⟨h.part.congr hfile hmap, hclosed.trans h.isOpen, h.queue, fun b hb => ?_,
      fun blocks hb => ?_⟩
    · rcases hstage with rfl | ⟨-, rfl⟩
      · exact h.batch b hb
      · simp [Stage.blocks] at hb
    · rcases hstage with rfl | ⟨-, rfl⟩
      · dsimp only
        rw [hlen]
        exact h.room blocks hb
      · cases hb

/-- The bytes of each block of a batch go to a slot that no block is in, and to no others; no other
step writes to the data file. -/
def Contained (l : Move) (s : Sink) : Prop :=
  ∀ s', s.step l = some s' → match l with
    | .write order io => ∀ written id data rest, order = written ++ (id, data) :: rest →
      let p := (s.part.writeBlocks written io).part
      let p' := (s.part.writeBlocks (written ++ [(id, data)]) io).part
      p.firstFree < partitionBlocksCount
        ∧ (∀ id' b, p.blocksMap.lookup id' = some b → b.slot ≠ p.firstFree)
        ∧ ∀ k, k < p.firstFree * defaultBlockSize ∨ (p.firstFree + 1) * defaultBlockSize ≤ k →
          p'.file.byte k = p.file.byte k
    | _ => s'.part.file = s.part.file

theorem Sink.Holds.contained (h : s.Holds m) (hl : l.Plain) : Contained l s := by
  intro s' hstep
  cases stepped hstep with
  | @write blocks order io hs ho hopen idxs =>
    obtain rfl : io = [] := hl
    rintro written id data rest rfl
    have hlen := h.room blocks hs
    have hbatch : ∀ b ∈ written ++ (id, data) :: rest, b.2.length ≤ defaultBlockSize :=
      fun b hb => h.batch b (hs ▸ ho.subset hb)
    rw [← ho.length_eq, List.length_append, List.length_cons] at hlen
    -- what is written of the batch leaves room for the block
    obtain ⟨hpart, hlen'⟩ := Partition.Holds.blocks written (w := ⟨s.part, ∅, [], []⟩) h.part rfl
      (by dsimp only; omega) fun b hb => hbatch b (List.mem_append_left _ hb)
    dsimp only at hlen' ⊢
    obtain ⟨hlt, hfree⟩ := Partition.firstFree_spec
      (p := (s.part.writeBlocks written []).part) (by unfold Partition.writeBlocks; omega)
    refine ⟨hlt, fun id' b hb hslot => ?_, fun k hk => ?_⟩
    · rw [Partition.isBlockAllocated_iff.mpr ⟨id', b, hb, hslot⟩] at hfree
      cases hfree
    · have happend : s.part.writeBlocks (written ++ [(id, data)]) []
          = (s.part.writeBlocks written []).block id data := by
        simp [Partition.writeBlocks, List.foldl_append]
      rw [happend]
      exact Partition.byte_block (hbatch (id, data) (by simp)) hk
  | remove ids hopen removals =>
    obtain ⟨blocksMap, heq⟩ := s.part.removeBlocks_eq ids
    dsimp only
    rw [heq]
  | refusedWrite hclosed | refusedRemove hclosed => exact (h.not_closed hclosed).elim
  | touch hl' removals hfile =>
    cases l <;> first | exact hfile | cases hl'
  | put | tick | take | empty | check | choose => rfl

/-- The partition is the map: its slots are of one block each, and it has the blocks of the map and
reads their data. -/
structure Partition.Refines (p : Partition) (m : Bytes → Option Bytes) : Prop where
  slot_ne : ∀ id id' b b', p.blocksMap.lookup id = some b → p.blocksMap.lookup id' = some b' →
    id ≠ id' → b.slot ≠ b'.slot
  slot_lt : ∀ id b, p.blocksMap.lookup id = some b → b.slot < partitionBlocksCount
  len_le : p.len ≤ partitionBlocksCount
  stored : ∀ id, id ∈ p.blocksMap ↔ ∃ d, m id = some d
  read : ∀ id d ids, m id = some d → id ∈ ids → ∃ result, p.readBlocks ids [] = .ok result
    ∧ result.lookup id = some ⟨id, 0, d.length, d⟩

theorem Sink.Holds.refines (h : s.Holds m) : s.part.Refines m where
  slot_ne id id' b b' hb hb' hne hslot := hne (h.part.wf.slot_inj id id' b b' hb hb' hslot)
  slot_lt := h.part.wf.slot_lt
  len_le := h.part.wf.len_le
  stored id := by
    rcases hm : m id with _ | d
    · have := AList.lookup_eq_none.mp (h.part.absent id hm)
      simpa using this
    · obtain ⟨b, hb, -⟩ := h.part.stored id d hm
      have : id ∈ s.part.blocksMap := AList.lookup_isSome.mp (by rw [hb]; rfl)
      simpa using this
  read id d ids hm hid := (h.part.stored id d hm).read h.isOpen hid

/-- In every run on a partition that was empty, it is the map that the writes and the removals make,
and no write goes beyond its slot. -/
theorem partition_refines_map (file idxFile : File) (moves : List Move)
    (hplain : ∀ l ∈ moves, l.Plain)
    (hrun : runSteps Sink.step moves (.new file idxFile) = some s) :
    s.part.Refines (contents moves) ∧ Along Sink.step Contained moves (.new file idxFile) := by
  have halong : Along Sink.step (fun l _ => l.Plain) moves (.new file idxFile) :=
    Along.of_forall fun l hl _ => hplain l hl
  have hnew := Sink.holds_new file idxFile
  refine ⟨(Along.simulation (R := Sink.Holds) (f := Move.apply)
    (fun _ _ _ _ h hl hs => h.step hl hs) moves hnew halong hrun).refines, ?_⟩
  exact Along.imp_of_invariant (I := fun s => ∃ m, s.Holds m)
    (fun l _ _ ⟨m, h⟩ hl hs => ⟨_, h.step hl hs⟩) (fun l _ ⟨m, h⟩ hl => h.contained hl) moves
    ⟨_, hnew⟩ halong

/-- A block is written, then another and the first one anew in one batch; a removal of the other
runs beside the writing of the headers. -/
def overwritten : List Move :=
  [.put ⟨[1], 0, 1, [10]⟩, .tick, .drain, .drain, .check, .write [([1], [10])] [],
    .index [(0, ⟨[1], 1, 0⟩)] [],
    .put ⟨[2], 0, 2, [20, 21]⟩, .put ⟨[1], 0, 1, [11]⟩, .tick, .drain, .drain, .drain, .check,
    .write [([2], [20, 21]), ([1], [11])] [], .remove [[2], [3]],
    .index [(2, ⟨[1], 1, 88⟩), (1, ⟨[2], 2, 44⟩)] [], .look 0, .clearFull 0, .erase 0 []]

theorem partition_refines_map_overwritten : ∃ s,
    runSteps Sink.step overwritten (.new ⟨0, fun _ => 0⟩ ⟨0, fun _ => 0⟩) = some s
      ∧ s.part.len = 1 ∧ s.part.Refines (contents overwritten)
      ∧ contents overwritten [1] = some [11] ∧ contents overwritten [2] = none := by
  obtain ⟨s, hrun⟩ : ∃ s,
      runSteps Sink.step overwritten (.new ⟨0, fun _ => 0⟩ ⟨0, fun _ => 0⟩) = some s :=
    Option.isSome_iff_exists.mp (by decide +kernel)
  have hlen : (runSteps Sink.step overwritten (.new ⟨0, fun _ => 0⟩ ⟨0, fun _ => 0⟩)).map
      (fun s => s.part.len) = some 1 := by decide +kernel
  rw [hrun] at hlen
  exact ⟨s, hrun, Option.some.inj hlen,
    (partition_refines_map _ _ overwritten (by decide +kernel) hrun).1, by decide +kernel,
    by decide +kernel⟩

end Refine

end Rhosus.Data

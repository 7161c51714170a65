import Rhosus.Data.Partition
import Mathlib.Data.List.Perm.Subperm

/-!
# The slots of a partition

The blocks of a partition are in slots of their own (`Partition.Wf`). While there are fewer blocks
than slots the scan finds a free one, so a batch that fits is written past every block that is
stored: each block of it is then stored with its data, and the others stay as they were.
-/

namespace Rhosus.Data

namespace Partition

variable {p : Partition} {id id' data d : Bytes} {b : IdxBlock} {n : ℕ}

/-- The blocks are in slots of their own and fit them. -/
structure Wf (p : Partition) : Prop where
  slot_lt : ∀ id b, p.blocksMap.lookup id = some b → b.slot < partitionBlocksCount
  size_le : ∀ id b, p.blocksMap.lookup id = some b → b.size ≤ defaultBlockSize
  slot_inj : ∀ id id' b b', p.blocksMap.lookup id = some b → p.blocksMap.lookup id' = some b' →
    b.slot = b'.slot → id = id'

/-- The partition has the block, with this data. -/
def Stores (p : Partition) (id d : Bytes) : Prop :=
  ∃ b, p.blocksMap.lookup id = some b ∧ b.size = d.length
    ∧ p.file.readAt d.length (b.slot * defaultBlockSize) = some d

theorem isBlockAllocated_iff :
    p.isBlockAllocated n = true ↔ ∃ id b, p.blocksMap.lookup id = some b ∧ b.slot = n := by
  simp only [isBlockAllocated, List.any_eq_true, decide_eq_true_eq]
  constructor
  · rintro ⟨⟨id, b⟩, he, hn⟩
    exact ⟨id, b, AList.mem_lookup_iff.mpr he, hn⟩
  · rintro ⟨id, b, hb, hn⟩
    exact ⟨⟨id, b⟩, AList.mem_lookup_iff.mp hb, hn⟩

theorem wf_new (file idxFile : File) : (new file idxFile).Wf := by
  constructor <;> intros <;> simp_all [new]

theorem len_eq_length_entries (p : Partition) : p.len = p.blocksMap.entries.length :=
  List.length_map _

section Free

def slots (p : Partition) : List ℕ := p.blocksMap.entries.map fun e => e.2.slot

theorem length_slots (p : Partition) : p.slots.length = p.len := by
  simp [slots, len, AList.keys, List.keys]

theorem mem_slots : n ∈ p.slots ↔ p.isBlockAllocated n = true := by
  simp [slots, isBlockAllocated]

theorem Wf.slots_nodup (h : p.Wf) : p.slots.Nodup := by
  have hkeys : (p.blocksMap.entries.map Sigma.fst).Nodup := p.blocksMap.keys_nodup
  refine List.Nodup.map_on ?_ (List.Nodup.of_map _ hkeys)
  rintro ⟨id, b⟩ he ⟨id', b'⟩ he' hslot
  have hb := AList.mem_lookup_iff.mpr he
  have hb' := AList.mem_lookup_iff.mpr he'
  obtain rfl := h.slot_inj id id' b b' hb hb' hslot
  obtain rfl := Option.some.inj (hb.symm.trans hb')
  rfl

theorem Wf.len_le (h : p.Wf) : p.len ≤ partitionBlocksCount := by
  have hsub : p.slots ⊆ List.range partitionBlocksCount := by
    intro n hn
    obtain ⟨id, b, hb, rfl⟩ := isBlockAllocated_iff.mp (mem_slots.mp hn)
    exact List.mem_range.mpr (h.slot_lt id b hb)
  have := (h.slots_nodup.subperm hsub).length_le
  rwa [length_slots, List.length_range] at this

/-- The scan finds a slot that is free, where there are fewer blocks than slots. -/
theorem firstFree_spec (h : p.len < partitionBlocksCount) :
    p.firstFree < partitionBlocksCount ∧ p.isBlockAllocated p.firstFree = false := by
  rw [firstFree]
  rcases hf : (List.range partitionBlocksCount).find? fun n => !p.isBlockAllocated n with _ | n
  · -- all slots in use would be as many blocks
    have hsub : List.range partitionBlocksCount ⊆ p.slots := by
      intro n hn
      have := List.find?_eq_none.mp hf n hn
      exact mem_slots.mpr (by simpa using this)
    have := (List.nodup_range.subperm hsub).length_le
    rw [length_slots, List.length_range] at this
    omega
  · have hn := List.mem_range.mp (List.mem_of_find?_eq_some hf)
    have hfree := List.find?_some hf
    exact ⟨hn, by simpa using hfree⟩

end Free

section Write

/-- The slot `n` with these bytes at its beginning. -/
def overwrite (p : Partition) (n : ℕ) (d : Bytes) : Partition :=
  { p with file := p.file.writeAt d (n * defaultBlockSize) }

theorem Wf.overwrite (h : p.Wf) (n : ℕ) (d : Bytes) : (p.overwrite n d).Wf :=
  ⟨h.slot_lt, h.size_le, h.slot_inj⟩

theorem slot_disjoint {n m k l : ℕ} (h : n ≠ m) (hk : k ≤ defaultBlockSize)
    (hl : l ≤ defaultBlockSize) :
    n * defaultBlockSize + k ≤ m * defaultBlockSize
      ∨ m * defaultBlockSize + l ≤ n * defaultBlockSize := by
  rcases Nat.lt_or_gt_of_ne h with h | h
  · left
    have := Nat.mul_le_mul_right defaultBlockSize (Nat.succ_le_of_lt h)
    rw [Nat.succ_mul] at this
    omega
  · right
    have := Nat.mul_le_mul_right defaultBlockSize (Nat.succ_le_of_lt h)
    rw [Nat.succ_mul] at this
    omega

theorem Stores.overwrite (hp : p.Wf) (h : p.Stores id d) (hn : p.isBlockAllocated n = false)
    (hd : data.length ≤ defaultBlockSize) : (p.overwrite n data).Stores id d := by
  obtain ⟨b, hb, hsize, hread⟩ := h
  refine ⟨b, hb, hsize, File.readAt_writeAt_of_disjoint _ hread ?_⟩
  have hne : b.slot ≠ n := by
    rintro rfl
    rw [isBlockAllocated_iff.mpr ⟨id, b, hb, rfl⟩] at hn
    cases hn
  exact slot_disjoint hne (hsize ▸ hp.size_le id b hb) hd

theorem enter_eq (p : Partition) (b : IdxBlock) :
    ∃ full, p.enter b = { p with blocksMap := p.blocksMap.insert b.id b, full } := by
  unfold enter
  dsimp only
  split_ifs
  · exact ⟨_, rfl⟩
  · exact ⟨p.full, rfl⟩

theorem lookup_enter (p : Partition) (b : IdxBlock) :
    (p.enter b).blocksMap.lookup b.id = some b := by
  obtain ⟨full, h⟩ := p.enter_eq b
  rw [h]
  exact AList.lookup_insert _

theorem lookup_enter_ne (h : id ≠ b.id) :
    (p.enter b).blocksMap.lookup id = p.blocksMap.lookup id := by
  obtain ⟨full, he⟩ := p.enter_eq b
  rw [he]
  exact AList.lookup_insert_ne h

theorem len_enter_le (p : Partition) (b : IdxBlock) : (p.enter b).len ≤ p.len + 1 := by
  obtain ⟨full, h⟩ := p.enter_eq b
  rw [h, len_eq_length_entries, len_eq_length_entries, AList.entries_insert, List.length_cons]
  exact Nat.succ_le_succ (List.kerase_sublist b.id _).length_le

theorem Wf.enter (h : p.Wf) (hlt : b.slot < partitionBlocksCount)
    (hsize : b.size ≤ defaultBlockSize) (hfree : p.isBlockAllocated b.slot = false) :
    (p.enter b).Wf := by
  have hother : ∀ id c, id ≠ b.id → (p.enter b).blocksMap.lookup id = some c → c.slot ≠ b.slot := by
    intro id c hid hc hslot
    rw [lookup_enter_ne hid] at hc
    rw [isBlockAllocated_iff.mpr ⟨id, c, hc, hslot⟩] at hfree
    cases hfree
  have hcases : ∀ id c, (p.enter b).blocksMap.lookup id = some c →
      id = b.id ∧ c = b ∨ id ≠ b.id ∧ p.blocksMap.lookup id = some c := by
    intro id c hc
    by_cases hid : id = b.id
    · subst hid
      rw [lookup_enter] at hc
      exact .inl ⟨rfl, (Option.some.inj hc).symm⟩
    · rw [lookup_enter_ne hid] at hc
      exact .inr ⟨hid, hc⟩
  refine ⟨fun id c hc => ?_, fun id c hc => ?_, fun id id' c c' hc hc' hslot => ?_⟩
  · rcases hcases id c hc with ⟨-, rfl⟩ | ⟨-, hc⟩
    · exact hlt
    · exact h.slot_lt id c hc
  · rcases hcases id c hc with ⟨-, rfl⟩ | ⟨-, hc⟩
    · exact hsize
    · exact h.size_le id c hc
  · rcases hcases id c hc with ⟨hid, rfl⟩ | ⟨hid, hold⟩ <;>
      rcases hcases id' c' hc' with ⟨hid', rfl⟩ | ⟨hid', hold'⟩
    · exact hid.trans hid'.symm
    · exact absurd hslot.symm (hother id' c' hid' hc')
    · exact absurd hslot (hother id c hid hc)
    · exact h.slot_inj id id' c c' hold hold' hslot

theorem Stores.enter (h : p.Stores id d) (hid : id ≠ b.id) : (p.enter b).Stores id d := by
  obtain ⟨c, hc, hsize, hread⟩ := h
  obtain ⟨full, he⟩ := p.enter_eq b
  refine ⟨c, by rwa [lookup_enter_ne hid], hsize, ?_⟩
  rwa [he]

theorem stores_enter (n : ℕ) (id data : Bytes) : ((p.overwrite n data).enter
    ⟨id, data.length, n * idxBlockSize⟩).Stores id data := by
  refine ⟨_, lookup_enter (p.overwrite n data) ⟨id, data.length, n * idxBlockSize⟩, rfl, ?_⟩
  obtain ⟨full, he⟩ := (p.overwrite n data).enter_eq ⟨id, data.length, n * idxBlockSize⟩
  rw [he, IdxBlock.slot, Nat.mul_div_cancel _ (by decide)]
  exact File.readAt_writeAt _

end Write

section Frame

theorem writeBlockContents_eq (p : Partition) (n : ℕ) (data : Bytes) (io : List Mishap) :
    ∃ r d io', d.length ≤ data.length
      ∧ p.writeBlockContents n data io = (r, p.overwrite n d, io') := by
  unfold writeBlockContents
  dsimp only
  split
  · exact ⟨_, _, _, List.length_take_le' _ _, rfl⟩
  · split
    · exact ⟨_, _, _, le_rfl, rfl⟩
    · exact ⟨_, _, _, le_rfl, rfl⟩

/-- A round writes to the first free slot, whatever befalls it, and may enter the block. -/
theorem block_eq (w : Writing) (id data : Bytes) : ∃ d blocksMap full, d.length ≤ data.length
    ∧ (w.block id data).part
      = { w.part.overwrite w.part.firstFree d with blocksMap, full } := by
  obtain ⟨r, d, io, hd, hw⟩ := w.part.writeBlockContents_eq w.part.firstFree data w.io
  unfold Writing.block
  dsimp only
  rw [hw]
  rcases r with _ | n
  · exact ⟨d, w.part.blocksMap, w.part.full, hd, rfl⟩
  · dsimp only
    split_ifs
    · exact ⟨d, w.part.blocksMap, w.part.full, hd, rfl⟩
    · obtain ⟨full, he⟩ := (w.part.overwrite w.part.firstFree d).enter_eq
        ⟨id, data.length, w.part.firstFree * idxBlockSize⟩
      exact ⟨d, _, full, hd, he⟩

/-- A round enters the block in the first free slot, where file operations succeed. -/
theorem block_of_none {w : Writing} (hio : ∀ x ∈ w.io, x = none) (id data : Bytes) :
    let b : IdxBlock := ⟨id, data.length, w.part.firstFree * idxBlockSize⟩
    w.block id data = ⟨(w.part.overwrite w.part.firstFree data).enter b,
      w.idxs.insert w.part.firstFree b, w.errs, w.io.tail.tail⟩ := by
  have hhead : ∀ io : List Mishap, (∀ x ∈ io, x = none) → io.headD none = none := by
    rintro (_ | ⟨x, io⟩) h
    · rfl
    · exact h x List.mem_cons_self
  have hsync := hhead w.io.tail fun x hx => hio x (List.mem_of_mem_tail hx)
  simp only [Writing.block, writeBlockContents, hhead w.io hio, hsync, ite_self, ne_eq, not_true,
    if_false]
  rfl

theorem block_of_plain {w : Writing} (hio : w.io = []) (id data : Bytes) :
    let b : IdxBlock := ⟨id, data.length, w.part.firstFree * idxBlockSize⟩
    w.block id data = ⟨(w.part.overwrite w.part.firstFree data).enter b,
      w.idxs.insert w.part.firstFree b, w.errs, []⟩ := by
  have := block_of_none (w := w) (by simp [hio]) id data
  simpa only [hio, List.tail_nil] using this

theorem byte_block {w : Writing} (hdata : data.length ≤ defaultBlockSize) {k : ℕ}
    (hk : k < w.part.firstFree * defaultBlockSize
      ∨ (w.part.firstFree + 1) * defaultBlockSize ≤ k) :
    (w.block id data).part.file.byte k = w.part.file.byte k := by
  obtain ⟨d, blocksMap, full, hd, h⟩ := block_eq w id data
  rw [h]
  refine File.byte_writeAt_of_disjoint _ (hk.imp_right fun hk => ?_)
  rw [Nat.succ_mul] at hk
  omega

theorem writeBlocks_closed (p : Partition) (blocks : List (Bytes × Bytes)) (io : List Mishap) :
    (p.writeBlocks blocks io).part.closed = p.closed := by
  have hfold : ∀ (blocks : List (Bytes × Bytes)) (w : Writing),
      (blocks.foldl (fun w b => w.block b.1 b.2) w).part.closed = w.part.closed := by
    intro blocks
    induction blocks with
    | nil => exact fun w => rfl
    | cons b bs ih =>
      intro w
      obtain ⟨d, blocksMap, full, -, h⟩ := block_eq w b.1 b.2
      rw [List.foldl_cons, ih, h]
      rfl
  exact hfold blocks _

theorem removeBlocks_eq : ∀ (ids : List Bytes) (p : Partition),
    ∃ blocksMap, (p.removeBlocks ids).2 = { p with blocksMap }
  | [], p => ⟨p.blocksMap, rfl⟩
  | id :: ids, p => removeBlocks_eq ids { p with blocksMap := p.blocksMap.erase id }

theorem len_erase_le (p : Partition) (id : Bytes) :
    len { p with blocksMap := p.blocksMap.erase id } ≤ p.len := by
  rw [len_eq_length_entries, len_eq_length_entries]
  exact (List.kerase_sublist id _).length_le

theorem len_removeBlocks_le : ∀ (ids : List Bytes) (p : Partition),
    (p.removeBlocks ids).2.len ≤ p.len
  | [], _ => le_rfl
  | id :: ids, p => (len_removeBlocks_le ids _).trans (p.len_erase_le id)

theorem writeIdxs_eq : ∀ (bs : List (ℕ × IdxBlock)) (io : List Mishap) (p : Partition),
    ∃ idxFile, (p.writeIdxs bs io).2 = { p with idxFile }
  | [], io, p => by
    rw [writeIdxs]
    split <;> exact ⟨p.idxFile, rfl⟩
  | (n, b) :: bs, io, p => by
    rw [writeIdxs]
    split
    · exact ⟨_, rfl⟩
    · obtain ⟨idxFile, h⟩ := writeIdxs_eq bs io.tail
        { p with idxFile := p.idxFile.writeAt b.marshal (n * idxBlockSize) }
      exact ⟨idxFile, h⟩

theorem eraseIdxs_eq : ∀ (ps : List ℕ) (io : List Mishap) (p : Partition),
    ∃ idxFile, p.eraseIdxs ps io = { p with idxFile }
  | [], _, p => ⟨p.idxFile, rfl⟩
  | pos :: ps, io, p => by
    rw [eraseIdxs]
    split
    · exact ⟨p.idxFile, rfl⟩
    · obtain ⟨idxFile, h⟩ := eraseIdxs_eq ps io.tail
        { p with idxFile := p.idxFile.writeAt [0] pos }
      exact ⟨idxFile, h⟩

end Frame

section Map

/-- The partition holds the blocks of a map, each with its data. -/
structure Holds (p : Partition) (m : Bytes → Option Bytes) : Prop where
  wf : p.Wf
  stored : ∀ id d, m id = some d → p.Stores id d
  absent : ∀ id, m id = none → p.blocksMap.lookup id = none

variable {q : Partition} {m : Bytes → Option Bytes}

theorem holds_new (file idxFile : File) : (new file idxFile).Holds fun _ => none :=
  ⟨wf_new _ _, by simp, fun _ _ => AList.lookup_empty _⟩

theorem Holds.congr (h : p.Holds m) (hf : q.file = p.file) (hb : q.blocksMap = p.blocksMap) :
    q.Holds m := by
  obtain ⟨⟨hlt, hsize, hinj⟩, hstored, habsent⟩ := h
  refine ⟨⟨?_, ?_, ?_⟩, ?_, ?_⟩
  · rwa [hb]
  · rwa [hb]
  · rwa [hb]
  · simpa only [Stores, hf, hb] using hstored
  · rwa [hb]

theorem Holds.block {w : Writing} (h : w.part.Holds m) (hio : w.io = []) (id : Bytes)
    (hlen : w.part.len < partitionBlocksCount) (hdata : data.length ≤ defaultBlockSize) :
    (w.block id data).part.Holds (Function.update m id (some data)) ∧ (w.block id data).io = []
      ∧ (w.block id data).part.len ≤ w.part.len + 1 := by
  obtain ⟨hfree, hnot⟩ := firstFree_spec hlen
  let b : IdxBlock := ⟨id, data.length, w.part.firstFree * idxBlockSize⟩
  have hslot : b.slot = w.part.firstFree := Nat.mul_div_cancel _ (by decide)
  rw [block_of_plain hio]
  refine ⟨⟨?_, fun id' d hd => ?_, fun id' hnone => ?_⟩, rfl, len_enter_le _ _⟩
  · exact (h.wf.overwrite _ _).enter (by rwa [hslot]) hdata (by rwa [hslot])
  · by_cases hid : id' = id
    · subst hid
      rw [Function.update_self] at hd
      obtain rfl := Option.some.inj hd
      exact stores_enter _ _ _
    · rw [Function.update_of_ne hid] at hd
      exact ((h.stored id' d hd).overwrite h.wf hnot hdata).enter hid
  · by_cases hid : id' = id
    · subst hid
      rw [Function.update_self] at hnone
      cases hnone
    · rw [Function.update_of_ne hid] at hnone
      rw [lookup_enter_ne hid]
      exact h.absent id' hnone

/-- The map after a batch is written, in order. -/
def store (blocks : List (Bytes × Bytes)) (m : Bytes → Option Bytes) : Bytes → Option Bytes :=
  blocks.foldl (fun m b => Function.update m b.1 (some b.2)) m

/-- The map after some blocks are removed. -/
def unstore (ids : List Bytes) (m : Bytes → Option Bytes) : Bytes → Option Bytes :=
  ids.foldl (fun m id => Function.update m id none) m

/-- A batch that fits is written whole. -/
theorem Holds.blocks : ∀ (blocks : List (Bytes × Bytes)) {w : Writing} {m : Bytes → Option Bytes},
    w.part.Holds m → w.io = [] → w.part.len + blocks.length ≤ partitionBlocksCount →
      (∀ b ∈ blocks, b.2.length ≤ defaultBlockSize) →
        (blocks.foldl (fun w b => w.block b.1 b.2) w).part.Holds (store blocks m)
          ∧ (blocks.foldl (fun w b => w.block b.1 b.2) w).part.len ≤ w.part.len + blocks.length
  | [], w, m, h, _, _, _ => ⟨h, le_rfl⟩
  | b :: bs, w, m, h, hio, hlen, hdata => by
    rw [List.length_cons] at hlen
    obtain ⟨hb, hio', hlen'⟩ := h.block hio b.1 (by omega) (hdata b List.mem_cons_self)
    obtain ⟨hbs, hlen''⟩ := Holds.blocks bs hb hio' (by omega)
      fun c hc => hdata c (List.mem_cons_of_mem _ hc)
    refine ⟨hbs, ?_⟩
    rw [List.foldl_cons, List.length_cons]
    omega

theorem Holds.removeBlocks : ∀ (ids : List Bytes) {p : Partition} {m : Bytes → Option Bytes},
    p.Holds m → (p.removeBlocks ids).2.Holds (unstore ids m)
  | [], p, m, h => h
  | id :: ids, p, m, h => by
    have herase : Holds { p with blocksMap := p.blocksMap.erase id }
        (Function.update m id none) := by
      have hsub : ∀ id' b, (p.blocksMap.erase id).lookup id' = some b →
          p.blocksMap.lookup id' = some b := by
        intro id' b hb
        by_cases hid : id' = id
        · subst hid
          rw [AList.lookup_erase] at hb
          cases hb
        · rwa [AList.lookup_erase_ne hid] at hb
      refine ⟨⟨fun id' b hb => h.wf.slot_lt id' b (hsub id' b hb),
        fun id' b hb => h.wf.size_le id' b (hsub id' b hb),
        fun id₁ id₂ b₁ b₂ h₁ h₂ => h.wf.slot_inj id₁ id₂ b₁ b₂ (hsub _ _ h₁) (hsub _ _ h₂)⟩,
        fun id' d hd => ?_, fun id' hnone => ?_⟩
      · by_cases hid : id' = id
        · subst hid
          rw [Function.update_self] at hd
          cases hd
        · rw [Function.update_of_ne hid] at hd
          obtain ⟨b, hb, hsize, hread⟩ := h.stored id' d hd
          exact ⟨b, by rwa [AList.lookup_erase_ne hid], hsize, hread⟩
      · by_cases hid : id' = id
        · subst hid
          exact AList.lookup_erase _ _
        · rw [Function.update_of_ne hid] at hnone
          rw [AList.lookup_erase_ne hid]
          exact h.absent id' hnone
    exact Holds.removeBlocks ids herase

end Map

section Read

theorem readEach_stored (h : p.Stores id d) : ∀ (ids : List Bytes)
    (result : AList fun _ : Bytes => Block),
    id ∈ ids ∨ result.lookup id = some ⟨id, 0, d.length, d⟩ →
      (p.readEach ids [] result).lookup id = some ⟨id, 0, d.length, d⟩
  | [], result, hid => hid.resolve_left (by simp)
  | id' :: ids, result, hid => by
    obtain ⟨b, hb, hsize, hread⟩ := h
    rw [readEach]
    by_cases heq : id = id'
    · subst heq
      have hread' : p.readBlockContents b.slot b.size none = some d := by
        rw [readBlockContents_none, hsize, hread]
      simp only [hb, Option.getD_some, List.headD_nil, hread', List.tail_nil]
      refine readEach_stored ⟨b, hb, hsize, hread⟩ ids _ (.inr ?_)
      rw [AList.lookup_insert, hsize]
    · have hid' : id ∈ ids ∨ result.lookup id = some ⟨id, 0, d.length, d⟩ :=
        hid.imp_left fun hm => (List.mem_cons.mp hm).resolve_left heq
      split
      · exact readEach_stored ⟨b, hb, hsize, hread⟩ ids _ hid'
      · refine readEach_stored ⟨b, hb, hsize, hread⟩ ids _ (hid'.imp_right fun hr => ?_)
        rwa [AList.lookup_insert_ne heq]

theorem Stores.read (h : p.Stores id d) (hopen : p.closed = false) {ids : List Bytes}
    (hid : id ∈ ids) : ∃ result, p.readBlocks ids [] = .ok result
      ∧ result.lookup id = some ⟨id, 0, d.length, d⟩ := by
  refine ⟨_, ?_, readEach_stored h ids ∅ (.inl hid)⟩
  simp [readBlocks, hopen]

end Read

section Table

theorem mem_enter : id ∈ (p.enter b).blocksMap ↔ id = b.id ∨ id ∈ p.blocksMap := by
  obtain ⟨full, h⟩ := p.enter_eq b
  rw [h]
  exact AList.mem_insert _

theorem mem_block_of_mem {w : Writing} (h : id ∈ w.part.blocksMap) (id' data : Bytes) :
    id ∈ (w.block id' data).part.blocksMap := by
  obtain ⟨r, d, io, hd, hw⟩ := w.part.writeBlockContents_eq w.part.firstFree data w.io
  unfold Writing.block
  dsimp only
  rw [hw]
  rcases r with _ | n
  · exact h
  · dsimp only
    split_ifs
    · exact h
    · exact mem_enter.mpr (.inr h)

theorem mem_foldl_block : ∀ (blocks : List (Bytes × Bytes)) {w : Writing},
    (∀ x ∈ w.io, x = none) → id ∈ blocks.map Prod.fst ∨ id ∈ w.part.blocksMap →
      id ∈ (blocks.foldl (fun w b => w.block b.1 b.2) w).part.blocksMap
  | [], w, _, h => h.resolve_left (by simp)
  | b :: bs, w, hio, h => by
    rw [List.foldl_cons]
    refine mem_foldl_block bs (fun x hx => ?_) ?_
    · rw [block_of_none hio] at hx
      exact hio x (List.mem_of_mem_tail (List.mem_of_mem_tail hx))
    · rw [List.map_cons, List.mem_cons, or_assoc] at h
      rcases h with rfl | h | h
      · rw [block_of_none hio]
        exact .inr (mem_enter.mpr (.inl rfl))
      · exact .inl h
      · exact .inr (mem_block_of_mem h _ _)

theorem mem_removeBlocks : ∀ (ids : List Bytes) {p : Partition}, id ∉ ids → id ∈ p.blocksMap →
    id ∈ (p.removeBlocks ids).2.blocksMap
  | [], _, _, h => h
  | i :: is, p, hid, h => by
    rw [List.mem_cons, not_or] at hid
    exact mem_removeBlocks is (p := { p with blocksMap := p.blocksMap.erase i }) hid.2
      (AList.mem_erase.mpr ⟨hid.1, h⟩)

end Table

end Partition

end Rhosus.Data

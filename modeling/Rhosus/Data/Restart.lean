import Rhosus.Data.Headers

/-!
# A partition that is opened again

Between two calls the index file says what the table does: the header of each block is in its slot,
and the headers of the free slots are zeros. Within a call some headers are still to be written or
to be erased (`Indexed`). So the table that is loaded from the file is the one there was.
-/

namespace Rhosus.Data

section Header

variable {b : IdxBlock}

/-- A block whose header says what it is. -/
structure IdxBlock.Proper (b : IdxBlock) : Prop where
  length_id : b.id.length = 36
  nonzero : ∀ x ∈ b.id, x ≠ 0
  size_lt : b.size < 2 ^ 64
  offset_eq : b.offset = b.slot * idxBlockSize
  slot_lt : b.slot < partitionBlocksCount

theorem IdxBlock.Proper.length_marshal (h : b.Proper) : b.marshal.length = idxBlockSize := by
  simp [IdxBlock.marshal, bigEndian, h.length_id, idxBlockSize]

/-- The first `k` bytes are those of the number without its last `8 - k`. -/
theorem foldl_bigEndian {x : ℕ} (h : x < 2 ^ 64) : ∀ {k : ℕ}, k ≤ 8 →
    ((List.range k).map fun i => UInt8.ofNat (x >>> (8 * (7 - i)))).foldl
      (fun y b => y * 256 + b.toNat) 0 = x / 2 ^ (8 * (8 - k))
  | 0, _ => (Nat.div_eq_of_lt h).symm
  | k + 1, hk => by
    have hbits : 8 * (8 - k) = 8 * (7 - k) + 8 := by omega
    rw [List.range_succ, List.map_append, List.foldl_append,
      foldl_bigEndian h (Nat.le_of_succ_le hk), hbits, pow_add, ← Nat.div_div_eq_div_mul,
      List.map_singleton, List.foldl_cons, List.foldl_nil, UInt8.toNat_ofNat',
      Nat.shiftRight_eq_div_pow, Nat.add_sub_add_right 7 1 k]
    exact Nat.div_add_mod' _ _

theorem uint64_bigEndian {x : ℕ} (h : x < 2 ^ 64) : uint64 (bigEndian x) = x :=
  (foldl_bigEndian h le_rfl).trans (Nat.div_one x)

theorem IdxBlock.Proper.unmarshal_marshal (h : b.Proper) :
    { IdxBlock.unmarshal b.marshal with offset := b.slot * idxBlockSize } = b := by
  have hid : b.marshal.take 36 = b.id := List.take_left' h.length_id
  have hsize : b.marshal.drop 36 = bigEndian b.size := List.drop_left' h.length_id
  rw [IdxBlock.unmarshal, hid, hsize, uint64_bigEndian h.size_lt, ← h.offset_eq]

theorem IdxBlock.Proper.not_allZeros (h : b.Proper) : isBytesAllZeros b.marshal = false := by
  obtain ⟨x, hx⟩ := List.exists_mem_of_length_pos (h.length_id ▸ Nat.succ_pos 35 : 0 < b.id.length)
  rw [isBytesAllZeros, List.all_eq_false]
  exact ⟨x, List.mem_append_left _ hx, by simpa using h.nonzero x hx⟩

theorem IdxBlock.Proper.headerAt {f : File} (h : b.Proper)
    (hread : f.readAt idxBlockSize (b.slot * idxBlockSize) = some b.marshal) :
    headerAt f b.slot = some b := by
  rw [Data.headerAt, hread]
  simp only [h.not_allZeros, Bool.false_eq_true, if_false, h.unmarshal_marshal]

end Header

namespace Partition

variable {p q : Partition} {todo : List (ℕ × IdxBlock)} {dirty : List ℕ} {id data : Bytes}
  {b : IdxBlock} {n : ℕ}

/-- The index file says what the table does, up to the headers that are still to be written and
the slots whose headers are to be erased. -/
structure Indexed (p : Partition) (todo : List (ℕ × IdxBlock)) (dirty : List ℕ) : Prop where
  proper : ∀ id b, p.blocksMap.lookup id = some b → b.id = id ∧ b.Proper
  slot_inj : ∀ id id' b b', p.blocksMap.lookup id = some b → p.blocksMap.lookup id' = some b' →
    b.slot = b'.slot → id = id'
  size : p.idxFile.size = idxFileSize
  header : ∀ id b, p.blocksMap.lookup id = some b → (b.slot, b) ∈ todo
    ∨ p.idxFile.readAt idxBlockSize (b.slot * idxBlockSize) = some b.marshal
  zero : ∀ n < partitionBlocksCount, p.isBlockAllocated n = false → n ∈ dirty
    ∨ p.idxFile.readAt idxBlockSize (n * idxBlockSize) = some (List.replicate idxBlockSize 0)
  todo : ∀ n b, (n, b) ∈ todo → p.blocksMap.lookup b.id = some b ∧ b.slot = n
  dirty : ∀ n ∈ dirty, n < partitionBlocksCount ∧ p.isBlockAllocated n = false

theorem Indexed.slot_lt (h : p.Indexed todo dirty) (id : Bytes) (b : IdxBlock)
    (hb : p.blocksMap.lookup id = some b) : b.slot < partitionBlocksCount :=
  (h.proper id b hb).2.slot_lt

theorem Indexed.congr {todo' : List (ℕ × IdxBlock)} {dirty' : List ℕ} (h : p.Indexed todo dirty)
    (htodo : ∀ e, e ∈ todo' ↔ e ∈ todo) (hdirty : ∀ n, n ∈ dirty' ↔ n ∈ dirty) :
    p.Indexed todo' dirty' where
  proper := h.proper
  slot_inj := h.slot_inj
  size := h.size
  header id b hb := (h.header id b hb).imp_left (htodo _).mpr
  zero n hn hall := (h.zero n hn hall).imp_left (hdirty n).mpr
  todo n b hb := h.todo n b ((htodo _).mp hb)
  dirty n hn := h.dirty n ((hdirty n).mp hn)

theorem header_lt (h : n < partitionBlocksCount) :
    n * idxBlockSize + idxBlockSize ≤ idxFileSize := by
  rw [idxFileSize, ← Nat.succ_mul]
  exact Nat.mul_le_mul_right _ h

theorem header_disjoint {m : ℕ} (h : n ≠ m) : n * idxBlockSize + idxBlockSize ≤ m * idxBlockSize
    ∨ m * idxBlockSize + idxBlockSize ≤ n * idxBlockSize := by
  rw [← Nat.succ_mul, ← Nat.succ_mul]
  exact (Nat.lt_or_gt_of_ne h).imp (Nat.mul_le_mul_right _) (Nat.mul_le_mul_right _)

theorem indexed_new {file idxFile : File} (hsize : idxFile.size = idxFileSize)
    (hzero : ∀ k < idxFileSize, idxFile.byte k = 0) : (new file idxFile).Indexed [] [] where
  proper id b hb := by simp [new] at hb
  slot_inj id id' b b' hb := by simp [new] at hb
  size := hsize
  header id b hb := by simp [new] at hb
  zero n hn _ := by
    have hlt := header_lt hn
    exact .inr (File.readAt_eq_replicate _ (hlt.trans_eq hsize.symm) fun k hk => hzero _ (by omega))
  todo n b hb := by cases hb
  dirty n hn := by cases hn

section Write

theorem isBlockAllocated_enter : (p.enter b).isBlockAllocated n = false →
    p.blocksMap.lookup b.id = none → p.isBlockAllocated n = false ∧ b.slot ≠ n := by
  intro h hnew
  refine ⟨Bool.eq_false_iff.mpr fun hall => ?_, fun hslot => ?_⟩
  · obtain ⟨id, c, hc, hn⟩ := isBlockAllocated_iff.mp hall
    have hid : id ≠ b.id := fun he => by rw [he, hnew] at hc; cases hc
    rw [isBlockAllocated_iff.mpr ⟨id, c, by rwa [lookup_enter_ne hid], hn⟩] at h
    cases h
  · rw [isBlockAllocated_iff.mpr ⟨b.id, b, lookup_enter _ _, hslot⟩] at h
    cases h

/-- A block is entered, with its header still to be written. -/
theorem Indexed.enter (h : p.Indexed todo []) (hb : b.Proper)
    (hnew : p.blocksMap.lookup b.id = none)
    (hfree : p.isBlockAllocated b.slot = false) :
    (p.enter b).Indexed ((b.slot, b) :: todo) [] := by
  have hcases : ∀ id c, (p.enter b).blocksMap.lookup id = some c →
      id = b.id ∧ c = b ∨ id ≠ b.id ∧ p.blocksMap.lookup id = some c ∧ c.slot ≠ b.slot := by
    intro id c hc
    by_cases hid : id = b.id
    · rw [hid, lookup_enter] at hc
      exact .inl ⟨hid, (Option.some.inj hc).symm⟩
    · rw [lookup_enter_ne hid] at hc
      refine .inr ⟨hid, hc, fun hslot => ?_⟩
      rw [isBlockAllocated_iff.mpr ⟨id, c, hc, hslot⟩] at hfree
      cases hfree
  obtain ⟨full, he⟩ := p.enter_eq b
  have hidx : (p.enter b).idxFile = p.idxFile := by rw [he]
  refine ⟨fun id c hc => ?_, fun id id' c c' hc hc' hslot => ?_, hidx ▸ h.size, fun id c hc => ?_,
    fun n hn hall => ?_, fun n c hc => ?_, fun n hn => nomatch hn⟩
  · rcases hcases id c hc with ⟨rfl, rfl⟩ | ⟨-, hc, -⟩
    · exact ⟨rfl, hb⟩
    · exact h.proper id c hc
  · rcases hcases id c hc with ⟨hid, rfl⟩ | ⟨-, hc, hne⟩ <;>
      rcases hcases id' c' hc' with ⟨hid', rfl⟩ | ⟨-, hc', hne'⟩
    · exact hid.trans hid'.symm
    · exact absurd hslot.symm hne'
    · exact absurd hslot hne
    · exact h.slot_inj id id' c c' hc hc' hslot
  · rw [hidx]
    rcases hcases id c hc with ⟨-, rfl⟩ | ⟨-, hc, -⟩
    · exact .inl List.mem_cons_self
    · exact (h.header id c hc).imp_left (List.mem_cons_of_mem _)
  · rw [hidx]
    exact h.zero n hn (isBlockAllocated_enter hall hnew).1
  · rcases List.mem_cons.mp hc with hc | hc
    · obtain ⟨rfl, rfl⟩ := Prod.mk.inj hc
      exact ⟨lookup_enter _ _, rfl⟩
    · obtain ⟨hlook, hslot⟩ := h.todo n c hc
      refine ⟨?_, hslot⟩
      rwa [lookup_enter_ne fun hid => by rw [hid, hnew] at hlook; cases hlook]

theorem Indexed.overwrite (h : p.Indexed todo dirty) (n : ℕ) (d : Bytes) :
    (p.overwrite n d).Indexed todo dirty :=
  ⟨h.proper, h.slot_inj, h.size, h.header, h.zero, h.todo, h.dirty⟩

/-- `full` says whether all slots are in use. -/
def FullIff (p : Partition) : Prop := p.full = true ↔ partitionBlocksCount ≤ p.len

theorem FullIff.enter (h : p.FullIff) (hroom : p.len < partitionBlocksCount) :
    (p.enter b).FullIff := by
  have hfull : p.full = false := Bool.eq_false_iff.mpr fun hf => by have := h.mp hf; omega
  unfold FullIff Partition.enter
  dsimp only
  split_ifs with hlen
  · exact ⟨fun _ => hlen, fun _ => rfl⟩
  · exact ⟨fun hf => absurd hf (by simp [hfull]), fun hle => absurd hle hlen⟩

theorem mem_entries_insert {m : AList fun _ : ℕ => IdxBlock} {e : ℕ × IdxBlock} {k : ℕ}
    (hk : k ∉ m.keys) : e ∈ ((m.insert k b).entries.map fun e => (e.1, e.2))
      ↔ e = (k, b) ∨ e ∈ m.entries.map fun e => (e.1, e.2) := by
  have hkm : k ∉ m := hk
  rw [AList.insert_of_notMem hkm]
  simp

/-- The batch is entered as far as it is gone through, and its headers are to be written. -/
structure Entered (w : Writing) : Prop where
  io : w.io = []
  indexed : w.part.Indexed (w.idxs.entries.map fun e => (e.1, e.2)) []
  full : w.part.FullIff
  isOpen : w.part.closed = false
  file : idxFileSize ≤ w.part.file.size

theorem Entered.block {w : Writing} (h : Entered w) (hroom : w.part.len < partitionBlocksCount)
    (hlen : id.length = 36) (hnz : ∀ x ∈ id, x ≠ 0) (hnew : id ∉ w.part.blocksMap)
    (hdata : data.length < 2 ^ 63) : Entered (w.block id data) := by
  obtain ⟨hfree, hnot⟩ := firstFree_spec hroom
  have hslot : IdxBlock.slot ⟨id, data.length, w.part.firstFree * idxBlockSize⟩
      = w.part.firstFree := Nat.mul_div_cancel _ (by decide)
  have hnone := AList.lookup_eq_none.mpr hnew
  have hkeys : w.part.firstFree ∉ w.idxs.keys := by
    intro hmem
    obtain ⟨e, he, hkey⟩ := List.mem_map.mp hmem
    obtain ⟨hlook, hs⟩ := h.indexed.todo e.1 e.2 (List.mem_map.mpr ⟨e, he, rfl⟩)
    rw [isBlockAllocated_iff.mpr ⟨_, _, hlook, hs.trans hkey⟩] at hnot
    cases hnot
  have hentered := (h.indexed.overwrite w.part.firstFree data).enter
    (b := ⟨id, data.length, w.part.firstFree * idxBlockSize⟩)
    ⟨hlen, hnz, hdata.trans (by decide), by rw [hslot], by rwa [hslot]⟩ hnone (by rwa [hslot])
  rw [hslot] at hentered
  obtain ⟨full, he⟩ := (w.part.overwrite w.part.firstFree data).enter_eq
    ⟨id, data.length, w.part.firstFree * idxBlockSize⟩
  rw [block_of_plain h.io]
  refine ⟨rfl, hentered.congr (fun e => ?_) fun _ => Iff.rfl, FullIff.enter h.full hroom, ?_, ?_⟩
  · rw [mem_entries_insert hkeys, List.mem_cons]
  · rw [he]
    exact h.isOpen
  · rw [he]
    exact h.file.trans (File.size_le_size_writeAt _ _ _)

theorem Entered.blocks : ∀ (blocks : List (Bytes × Bytes)) {w : Writing}, Entered w →
    w.part.len + blocks.length ≤ partitionBlocksCount → (blocks.map Prod.fst).Nodup →
      (∀ b ∈ blocks, b.1.length = 36 ∧ (∀ x ∈ b.1, x ≠ 0) ∧ b.1 ∉ w.part.blocksMap
        ∧ b.2.length < 2 ^ 63) →
        Entered (blocks.foldl (fun w b => w.block b.1 b.2) w)
  | [], w, h, _, _, _ => h
  | b :: bs, w, h, hlen, hnd, hall => by
    rw [List.length_cons] at hlen
    rw [List.map_cons, List.nodup_cons] at hnd
    obtain ⟨hid, hnz, hnew, hdata⟩ := hall b List.mem_cons_self
    have hlen' : (w.block b.1 b.2).part.len ≤ w.part.len + 1 := by
      rw [block_of_plain h.io]
      exact len_enter_le _ _
    rw [List.foldl_cons]
    refine Entered.blocks bs (h.block (by omega) hid hnz hnew hdata) (by omega) hnd.2
      fun c hc => ?_
    obtain ⟨hid', hnz', hnew', hdata'⟩ := hall c (List.mem_cons_of_mem _ hc)
    have hne : c.1 ≠ b.1 := fun he => hnd.1 (he ▸ List.mem_map_of_mem hc)
    refine ⟨hid', hnz', ?_, hdata'⟩
    rw [← AList.lookup_eq_none] at hnew' ⊢
    rw [block_of_plain h.io]
    exact (lookup_enter_ne hne).trans hnew'

theorem Indexed.writeIdx (h : p.Indexed ((n, b) :: todo) []) :
    Indexed { p with idxFile := p.idxFile.writeAt b.marshal (n * idxBlockSize) } todo [] := by
  obtain ⟨hlook, rfl⟩ := h.todo n b List.mem_cons_self
  obtain ⟨-, hb⟩ := h.proper b.id b hlook
  have hother : ∀ {m : ℕ} {d : Bytes}, m ≠ b.slot →
      p.idxFile.readAt idxBlockSize (m * idxBlockSize) = some d →
        (p.idxFile.writeAt b.marshal (b.slot * idxBlockSize)).readAt idxBlockSize
          (m * idxBlockSize) = some d := by
    intro m d hm hd
    refine File.readAt_writeAt_of_disjoint _ hd ?_
    rw [hb.length_marshal]
    exact header_disjoint hm
  refine ⟨h.proper, h.slot_inj, ?_, fun id c hc => ?_, fun n hn hall => ?_,
    fun n c hc => h.todo n c (List.mem_cons_of_mem _ hc), fun n hn => nomatch hn⟩
  · refine (File.size_writeAt_of_le _ ?_).trans h.size
    rw [hb.length_marshal, h.size]
    exact header_lt hb.slot_lt
  · by_cases hslot : c.slot = b.slot
    · obtain rfl := h.slot_inj id b.id c b hc hlook hslot
      obtain rfl := Option.some.inj (hc.symm.trans hlook)
      right
      have hread : (p.idxFile.writeAt c.marshal (c.slot * idxBlockSize)).readAt c.marshal.length
          (c.slot * idxBlockSize) = some c.marshal := File.readAt_writeAt _
      rwa [hb.length_marshal] at hread
    · refine (h.header id c hc).imp (fun hmem => ?_) (hother hslot)
      exact (List.mem_cons.mp hmem).resolve_left fun he => hslot (Prod.mk.inj he).1
  · right
    have hne : n ≠ b.slot := by
      rintro rfl
      exact Bool.eq_false_iff.mp hall (isBlockAllocated_iff.mpr ⟨_, _, hlook, rfl⟩)
    exact hother hne ((h.zero n hn hall).resolve_left List.not_mem_nil)

theorem Indexed.writeIdxs : ∀ {todo : List (ℕ × IdxBlock)} {p : Partition}, p.Indexed todo [] →
    (p.writeIdxs todo []).2.Indexed [] []
  | [], p, h => h
  | (n, b) :: todo, p, h => by
    have := Indexed.writeIdxs h.writeIdx
    rwa [Partition.writeIdxs]

theorem Indexed.setFull (h : p.Indexed todo dirty) (full : Bool) :
    Indexed { p with full } todo dirty :=
  ⟨h.proper, h.slot_inj, h.size, h.header, h.zero, h.todo, h.dirty⟩

end Write

section Remove

/-- A block that is stored leaves the table, and its header is to be erased. -/
theorem Indexed.erase (h : p.Indexed [] dirty) (hb : p.blocksMap.lookup id = some b) :
    Indexed { p with blocksMap := p.blocksMap.erase id } [] (b.slot :: dirty) := by
  have hsub : ∀ id' c, (p.blocksMap.erase id).lookup id' = some c →
      id' ≠ id ∧ p.blocksMap.lookup id' = some c := by
    intro id' c hc
    have hid : id' ≠ id := fun he => by rw [he, AList.lookup_erase] at hc; cases hc
    exact ⟨hid, by rwa [AList.lookup_erase_ne hid] at hc⟩
  have hfree : ∀ n, p.isBlockAllocated n = false ∨ n = b.slot →
      isBlockAllocated { p with blocksMap := p.blocksMap.erase id } n = false := by
    intro n hn
    refine Bool.eq_false_iff.mpr fun hall => ?_
    obtain ⟨id', c, hc, rfl⟩ := isBlockAllocated_iff.mp hall
    obtain ⟨hid, hc⟩ := hsub id' c hc
    rcases hn with hn | hn
    · exact Bool.eq_false_iff.mp hn (isBlockAllocated_iff.mpr ⟨id', c, hc, rfl⟩)
    · exact hid (h.slot_inj id' id c b hc hb hn)
  refine ⟨fun id' c hc => h.proper id' c (hsub id' c hc).2,
    fun id₁ id₂ c₁ c₂ h₁ h₂ => h.slot_inj id₁ id₂ c₁ c₂ (hsub _ _ h₁).2 (hsub _ _ h₂).2, h.size,
    fun id' c hc => h.header id' c (hsub id' c hc).2, fun n hn hall => ?_,
    fun n c hc => (nomatch hc),
    fun n hn => ?_⟩
  · by_cases hslot : n = b.slot
    · exact .inl (hslot ▸ List.mem_cons_self)
    · refine (h.zero n hn (Bool.eq_false_iff.mpr fun hp => ?_)).imp_left (List.mem_cons_of_mem _)
      obtain ⟨id', c, hc, rfl⟩ := isBlockAllocated_iff.mp hp
      have hid : id' ≠ id := by
        rintro rfl
        obtain rfl := Option.some.inj (hc.symm.trans hb)
        exact hslot rfl
      refine Bool.eq_false_iff.mp hall (isBlockAllocated_iff.mpr ⟨id', c, ?_, rfl⟩)
      exact (AList.lookup_erase_ne hid).trans hc
  · rcases List.mem_cons.mp hn with rfl | hn
    · exact ⟨(h.proper id b hb).2.slot_lt, hfree _ (.inr rfl)⟩
    · exact ⟨(h.dirty n hn).1, hfree n (.inl (h.dirty n hn).2)⟩

theorem Indexed.removeBlocks : ∀ (ids : List Bytes) {p : Partition} {dirty : List ℕ},
    p.Indexed [] dirty → ids.Nodup → (∀ id ∈ ids, id ∈ p.blocksMap) →
      (p.removeBlocks ids).2.Indexed [] ((p.removeBlocks ids).1 ++ dirty)
  | [], p, dirty, h, _, _ => h
  | id :: ids, p, dirty, h, hnd, hmem => by
    rw [List.nodup_cons] at hnd
    obtain ⟨b, hb⟩ := Option.isSome_iff_exists.mp
      (AList.lookup_isSome.mpr (hmem id List.mem_cons_self))
    have hrest := Indexed.removeBlocks ids (h.erase hb) hnd.2 fun id' hid' => by
      rw [AList.mem_erase]
      exact ⟨fun he => hnd.1 (he ▸ hid'), hmem id' (List.mem_cons_of_mem _ hid')⟩
    have heq : p.removeBlocks (id :: ids)
        = (b.slot :: (Partition.removeBlocks ids { p with blocksMap := p.blocksMap.erase id }).1,
          (Partition.removeBlocks ids { p with blocksMap := p.blocksMap.erase id }).2) := by
      simp [Partition.removeBlocks, hb]
    rw [heq]
    exact hrest.congr (fun _ => Iff.rfl) fun n => by simp [or_left_comm]

theorem eraseIdxs_byte : ∀ (ps : List ℕ) (io : List Mishap) {p : Partition},
    (∀ pos ∈ ps, pos < p.idxFile.size) → ∃ j idxFile, (io = [] → j = ps.length)
      ∧ p.eraseIdxs ps io = { p with idxFile } ∧ idxFile.size = p.idxFile.size
      ∧ ∀ k, idxFile.byte k = if k ∈ ps.take j then 0 else p.idxFile.byte k
  | [], io, p, _ => ⟨0, p.idxFile, fun _ => rfl, rfl, rfl, fun k => by simp⟩
  | pos :: ps, io, p, h => by
    rcases hio : io.headD none with _ | fault
    · have hsize : (p.idxFile.writeAt [0] pos).size = p.idxFile.size :=
        File.size_writeAt_of_le _ (h pos List.mem_cons_self)
      obtain ⟨j, idxFile, hj, heq, hsize', hbyte⟩ := eraseIdxs_byte ps io.tail
        (p := { p with idxFile := p.idxFile.writeAt [0] pos })
        fun pos' hpos' => (h pos' (List.mem_cons_of_mem _ hpos')).trans_eq hsize.symm
      refine ⟨j + 1, idxFile, ?_, ?_, hsize'.trans hsize, fun k => ?_⟩
      · rintro rfl
        rw [hj rfl, List.length_cons]
      · simp only [eraseIdxs, hio, heq]
      · rw [hbyte]
        by_cases hk : k = pos
        · subst hk
          have : (p.idxFile.writeAt [0] k).byte k = 0 :=
            @File.byte_writeAt_add p.idxFile [0] k 0 (by decide)
          simp [this]
        · have : (p.idxFile.writeAt [0] pos).byte k = p.idxFile.byte k :=
            p.idxFile.byte_writeAt_of_disjoint (by rw [List.length_singleton]; omega)
          simp only [List.take_succ_cons, List.mem_cons, hk, false_or, this]
    · refine ⟨0, p.idxFile, ?_, ?_, rfl, fun k => by simp⟩
      · rintro rfl
        cases hio
      · simp only [eraseIdxs, hio]

theorem mem_headerBytes {slots : List ℕ} {k : ℕ} : k ∈ headerBytes slots ↔
    ∃ n ∈ slots, n * idxBlockSize ≤ k ∧ k < n * idxBlockSize + idxBlockSize := by
  simp [headerBytes, List.mem_range'_1]

/-- The headers of the slots that are free are erased. -/
theorem Indexed.eraseIdxs (h : p.Indexed [] dirty) :
    (p.eraseIdxs (headerBytes dirty) []).Indexed [] [] := by
  have hlt : ∀ pos ∈ headerBytes dirty, pos < p.idxFile.size := by
    intro pos hpos
    obtain ⟨n, hn, -, hpos⟩ := mem_headerBytes.mp hpos
    rw [h.size]
    exact hpos.trans_le (header_lt (h.dirty n hn).1)
  obtain ⟨j, idxFile, hj, heq, hsize, hbyte⟩ := eraseIdxs_byte _ [] hlt
  rw [hj rfl, List.take_length] at hbyte
  have hkept : ∀ n, n ∉ dirty → idxFile.readAt idxBlockSize (n * idxBlockSize)
      = p.idxFile.readAt idxBlockSize (n * idxBlockSize) := by
    intro n hn
    refine File.readAt_congr _ hsize fun k hle hlt => ?_
    rw [hbyte, if_neg]
    intro hk
    obtain ⟨m, hm, hle', hlt'⟩ := mem_headerBytes.mp hk
    have hne : n ≠ m := fun he => hn (he ▸ hm)
    have := header_disjoint hne
    omega
  rw [heq]
  refine ⟨h.proper, h.slot_inj, hsize.trans h.size, fun id b hb => ?_, fun n hn hall => ?_,
    fun n c hc => (nomatch hc), fun n hn => (nomatch hn)⟩
  · have hnot : b.slot ∉ dirty := fun hmem =>
      Bool.eq_false_iff.mp (h.dirty _ hmem).2 (isBlockAllocated_iff.mpr ⟨id, b, hb, rfl⟩)
    exact .inr ((hkept _ hnot).trans ((h.header id b hb).resolve_left List.not_mem_nil))
  · right
    by_cases hmem : n ∈ dirty
    · refine File.readAt_eq_replicate _ ?_ fun k hk => ?_
      · dsimp only
        rw [hsize, h.size]
        exact header_lt hn
      · dsimp only
        rw [hbyte, if_pos (mem_headerBytes.mpr ⟨n, hmem, by omega, by omega⟩)]
    · exact (hkept n hmem).trans ((h.zero n hn hall).resolve_left hmem)

end Remove

section Calls

variable {l : Call}

/-- What holds of a partition between two calls. -/
structure Settled (p : Partition) : Prop where
  indexed : p.Indexed [] []
  full : p.FullIff
  isOpen : p.closed = false
  file : idxFileSize ≤ p.file.size

theorem Settled.write (h : p.Settled) {blocks : List (Bytes × Bytes)} {order : List (ℕ × IdxBlock)}
    {io idxIo : List Mishap} (hl : (Call.write blocks order io idxIo).Fresh p)
    (hstep : (Call.write blocks order io idxIo).step p = some q) : q.Settled := by
  obtain ⟨rfl, rfl, hnd, hlen, hall⟩ := hl
  obtain ⟨-, hindexed, hfull, hopen, hfile⟩ := Entered.blocks blocks (w := ⟨p, ∅, [], []⟩)
    ⟨rfl, h.indexed, h.full, h.isOpen, h.file⟩ hlen hnd hall
  unfold Call.step writeBlocksCall at hstep
  dsimp only at hstep
  rw [h.isOpen, if_neg Bool.false_ne_true] at hstep
  split_ifs at hstep with ho
  · obtain rfl := Option.some.inj hstep
    have hdone := (hindexed.congr (fun _ => ho.mem_iff) fun _ => Iff.rfl).writeIdxs
    obtain ⟨idxFile, heq⟩ := writeIdxs_eq order [] (p.writeBlocks blocks []).part
    refine ⟨hdone, ?_, ?_, ?_⟩ <;> dsimp only <;> rw [heq]
    · exact hfull
    · exact hopen
    · exact hfile
  · cases hstep

/-- Once blocks have left the table, `full` is cleared where there is room. -/
theorem clearFull_eq (h : p.FullIff) (hle : q.len ≤ p.len) (hq : q.full = p.full) :
    ∃ full, (if q.len < partitionBlocksCount then { q with full := false } else q)
      = { q with full } ∧ (full = true ↔ partitionBlocksCount ≤ q.len) := by
  split_ifs with hlen
  · exact ⟨false, rfl, by simp, fun hle' => absurd hle' (by omega)⟩
  · refine ⟨q.full, rfl, fun _ => by omega, fun _ => ?_⟩
    rw [hq]
    exact h.mpr (by omega)

theorem Settled.remove (h : p.Settled) {ids : List Bytes} {io : List Mishap}
    (hl : (Call.remove ids io).Fresh p) (hstep : (Call.remove ids io).step p = some q) :
    q.Settled := by
  obtain ⟨rfl, hnd, hmem⟩ := hl
  have hindexed := h.indexed.removeBlocks ids hnd hmem
  rw [List.append_nil] at hindexed
  obtain ⟨blocksMap, heq⟩ := p.removeBlocks_eq ids
  obtain ⟨full, hclear, hfull⟩ := clearFull_eq h.full (p.len_removeBlocks_le ids)
    (by rw [heq])
  simp only [Call.step, removeBlocksCall, h.isOpen, Bool.false_eq_true, if_false, hclear,
    Option.some.injEq] at hstep
  subst hstep
  obtain ⟨idxFile, he⟩ := eraseIdxs_eq (headerBytes (p.removeBlocks ids).1) []
    { (p.removeBlocks ids).2 with full }
  refine ⟨(hindexed.setFull full).eraseIdxs, ?_, ?_, ?_⟩ <;> rw [he]
  · exact hfull
  · dsimp only
    rw [heq]
    exact h.isOpen
  · dsimp only
    rw [heq]
    exact h.file

theorem Settled.step (h : p.Settled) (hl : l.Fresh p) (hstep : l.step p = some q) : q.Settled := by
  cases l with
  | write blocks order io idxIo => exact h.write hl hstep
  | remove ids io => exact h.remove hl hstep

theorem settled_new {file idxFile : File} (hfile : file.size = defaultPartitionSize)
    (hsize : idxFile.size = idxFileSize) (hzero : ∀ k < idxFileSize, idxFile.byte k = 0) :
    (new file idxFile).Settled :=
  ⟨indexed_new hsize hzero, by simp [FullIff, new, len]; decide, rfl,
    by simp only [new]; rw [hfile]; decide⟩

theorem Settled.run {calls : List Call} (h : p.Settled)
    (hfresh : Along Call.step Call.Fresh calls p) (hrun : runSteps Call.step calls p = some q) :
    q.Settled := Along.invariant (fun _ _ _ h hl hs => h.step hl hs) calls h hfresh hrun

end Calls

section Load

theorem Indexed.headerAt_eq_some (h : p.Indexed [] []) (hn : n < partitionBlocksCount) :
    headerAt p.idxFile n = some b ↔ p.blocksMap.lookup b.id = some b ∧ b.slot = n := by
  have hin : ∀ {c : IdxBlock}, p.blocksMap.lookup c.id = some c →
      headerAt p.idxFile c.slot = some c := fun {c} hc =>
    (h.proper c.id c hc).2.headerAt ((h.header c.id c hc).resolve_left List.not_mem_nil)
  refine ⟨fun hb => ?_, fun ⟨hb, hs⟩ => hs ▸ hin hb⟩
  rcases hall : p.isBlockAllocated n with _ | _
  · have hzero := (h.zero n hn hall).resolve_left List.not_mem_nil
    have hzeros : isBytesAllZeros (List.replicate idxBlockSize 0) = true := by decide
    simp only [headerAt, hzero, hzeros, if_true, reduceCtorEq] at hb
  · obtain ⟨id, c, hc, rfl⟩ := isBlockAllocated_iff.mp hall
    obtain ⟨rfl, -⟩ := h.proper id c hc
    obtain rfl := Option.some.inj ((hin hc).symm.trans hb)
    exact ⟨hc, rfl⟩

theorem Indexed.lastHeader_eq (h : p.Indexed [] []) (id : Bytes) :
    lastHeader p.idxFile id partitionBlocksCount = p.blocksMap.lookup id := by
  rcases hb : p.blocksMap.lookup id with _ | b
  · refine lastHeader_eq_none.mpr fun m hm c hc hid => ?_
    rw [← hid, ((h.headerAt_eq_some hm).mp hc).1] at hb
    cases hb
  · obtain ⟨rfl, hproper⟩ := h.proper id b hb
    have hat := (h.headerAt_eq_some hproper.slot_lt).mpr ⟨hb, rfl⟩
    refine lastHeader_of_last hat hproper.slot_lt fun k hk hlt c hc hid => ?_
    obtain ⟨hlook, rfl⟩ := (h.headerAt_eq_some hlt).mp hc
    rw [hid, hb] at hlook
    obtain rfl := Option.some.inj hlook
    exact lt_irrefl _ hk

theorem readEach_congr (hfile : q.file = p.file)
    (hmap : ∀ id, q.blocksMap.lookup id = p.blocksMap.lookup id) :
    ∀ (ids : List Bytes) (io : List Mishap) (result : AList fun _ : Bytes => Block),
      q.readEach ids io result = p.readEach ids io result
  | [], _, _ => rfl
  | id :: ids, io, result => by
    simp only [readEach, readBlockContents, hfile, hmap id, readEach_congr hfile hmap ids]

theorem len_congr (hmap : ∀ id, q.blocksMap.lookup id = p.blocksMap.lookup id) : q.len = p.len := by
  rw [len_eq_length_entries, len_eq_length_entries]
  refine (List.lookup_ext q.blocksMap.nodupKeys p.blocksMap.nodupKeys fun id b => ?_).length_eq
  have := hmap id
  unfold AList.lookup at this
  rw [this]

/-- A partition that is opened again has the same blocks, reads the same, and has room for as
many. -/
theorem Settled.reopens (hp : p.Settled) {order : List IdxBlock}
    (horder : LoadOrder (newPartition p.file p.idxFile).idxFile order) :
    ∃ q, (newPartition p.file p.idxFile).loadHeader none order = .ok q
      ∧ (∀ id, q.blocksMap.lookup id = p.blocksMap.lookup id)
      ∧ (∀ ids io, q.readBlocks ids io = p.readBlocks ids io)
      ∧ ∀ n, 1 ≤ n → q.isAvailableLocked n = p.isAvailableLocked n := by
  obtain ⟨q, hload, hqfile, hqopen, hqfull, hlast⟩ := reopened hp.indexed.size hp.file horder
  have hqmap : ∀ id, q.blocksMap.lookup id = p.blocksMap.lookup id := fun id =>
    (hlast id).trans (hp.indexed.lastHeader_eq id)
  refine ⟨q, hload, hqmap, fun ids io => ?_, fun n hn => ?_⟩
  · unfold readBlocks
    rw [hp.isOpen, hqopen, readEach_congr hqfile hqmap]
  · -- the partition is full only where no slot is left for a block
    unfold isAvailableLocked isAvailable
    rw [len_congr hqmap, hp.isOpen, hqopen, hqfull]
    rcases hf : p.full with _ | _
    · rfl
    · have hlen := hp.full.mp hf
      simp only [Bool.not_true, Bool.false_and, Bool.not_false, Bool.true_and,
        decide_eq_false_iff_not, not_le]
      omega

end Load

end Partition

open Rhosus.Data.Partition

/-- After any calls on a partition that was empty, the partition that is opened over its files has
the same blocks, reads the same, and has room for as many. -/
theorem partition_survives_restart {p : Partition} (file idxFile : File) (calls : List Call)
    (hfile : file.size = defaultPartitionSize) (hsize : idxFile.size = idxFileSize)
    (hzero : ∀ k < idxFileSize, idxFile.byte k = 0)
    (hfresh : Along Call.step Call.Fresh calls (.new file idxFile))
    (hrun : runSteps Call.step calls (.new file idxFile) = some p) (order : List IdxBlock)
    (horder : LoadOrder (newPartition p.file p.idxFile).idxFile order) :
    ∃ q, (newPartition p.file p.idxFile).loadHeader none order = .ok q
      ∧ (∀ id, q.blocksMap.lookup id = p.blocksMap.lookup id)
      ∧ (∀ ids io, q.readBlocks ids io = p.readBlocks ids io)
      ∧ ∀ n, 1 ≤ n → q.isAvailableLocked n = p.isAvailableLocked n :=
  ((settled_new hfile hsize hzero).run hfresh hrun).reopens horder

/-- Two blocks are written and one of them is removed. -/
def removedOne : List Call :=
  [.write [(List.replicate 36 1, [10]), (List.replicate 36 2, [])]
      [(1, ⟨List.replicate 36 2, 0, 44⟩), (0, ⟨List.replicate 36 1, 1, 0⟩)] [] [],
    .remove [List.replicate 36 1] []]

theorem partition_survives_restart_removedOne : ∃ p,
    runSteps Call.step removedOne (.new ⟨defaultPartitionSize, fun _ => 0⟩
      ⟨idxFileSize, fun _ => 0⟩) = some p ∧ p.len = 1
    ∧ ∃ order q, (newPartition p.file p.idxFile).loadHeader none order = .ok q
      ∧ ∀ id, q.blocksMap.lookup id = p.blocksMap.lookup id := by
  obtain ⟨p, hrun⟩ : ∃ p, runSteps Call.step removedOne (.new ⟨defaultPartitionSize, fun _ => 0⟩
      ⟨idxFileSize, fun _ => 0⟩) = some p := Option.isSome_iff_exists.mp (by decide +kernel)
  have hlen : (runSteps Call.step removedOne (.new ⟨defaultPartitionSize, fun _ => 0⟩
      ⟨idxFileSize, fun _ => 0⟩)).map Partition.len = some 1 := by decide +kernel
  rw [hrun] at hlen
  obtain ⟨q, hq, hmap, -⟩ := partition_survives_restart _ _ removedOne rfl rfl (fun _ _ => rfl)
    (by decide +kernel) hrun _ (List.Perm.refl _)
  exact ⟨p, hrun, Option.some.inj hlen, _, q, hq, hmap⟩

end Rhosus.Data

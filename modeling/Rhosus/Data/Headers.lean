import Rhosus.Data.IdxFile

/-!
# What an index file says

`Load` goes through the headers of an index file slot by slot, and enters each block under the id
its header has. So where several headers have one id the last of them counts (`lookup_load`), and a
partition that is opened again has the blocks of these (`reopened`).
-/

namespace Rhosus.Data

variable {f g : File} {id : Bytes} {b c : IdxBlock} {n m : ℕ}

/-- The block whose header is in slot `n`. -/
def headerAt (f : File) (n : ℕ) : Option IdxBlock :=
  match f.readAt idxBlockSize (n * idxBlockSize) with
  | none => none
  | some data =>
    if isBytesAllZeros data then none
    else some { IdxBlock.unmarshal data with offset := n * idxBlockSize }

/-- The block of the last header with this id, among those of the first `n` slots. -/
def lastHeader (f : File) (id : Bytes) : ℕ → Option IdxBlock
  | 0 => none
  | n + 1 =>
    match headerAt f n with
    | none => lastHeader f id n
    | some b => if b.id = id then some b else lastHeader f id n

theorem headerAt_congr (h : g.readAt idxBlockSize (n * idxBlockSize)
    = f.readAt idxBlockSize (n * idxBlockSize)) : headerAt g n = headerAt f n := by
  unfold headerAt
  rw [h]

theorem lastHeader_congr : ∀ {n : ℕ}, (∀ m < n, headerAt g m = headerAt f m) →
    lastHeader g id n = lastHeader f id n
  | 0, _ => rfl
  | n + 1, h => by
    rw [lastHeader, lastHeader, h n (Nat.lt_succ_self n),
      lastHeader_congr fun m hm => h m (Nat.lt_succ_of_lt hm)]

theorem lastHeader_eq_none : ∀ {n : ℕ}, lastHeader f id n = none ↔
    ∀ m < n, ∀ c, headerAt f m = some c → c.id ≠ id
  | 0 => by simp [lastHeader]
  | n + 1 => by
    simp only [Nat.lt_succ_iff_lt_or_eq, or_imp, forall_and, forall_eq, ← lastHeader_eq_none]
    rcases hn : headerAt f n with _ | b
    · simp [lastHeader, hn]
    · rw [lastHeader, hn]
      dsimp only
      split_ifs with hid
      · simp [hid]
      · simp [hid]

/-- The header in slot `m` counts, where no later one has its id. -/
theorem lastHeader_of_last : ∀ {n : ℕ}, headerAt f m = some b → m < n →
    (∀ k, m < k → k < n → ∀ c, headerAt f k = some c → c.id ≠ b.id) → lastHeader f b.id n = some b
  | n + 1, hb, hm, hlast => by
    rcases Nat.lt_succ_iff_lt_or_eq.mp hm with hlt | rfl
    · have hrest := lastHeader_of_last hb hlt fun k hk hkn =>
        hlast k hk (Nat.lt_succ_of_lt hkn)
      rw [lastHeader]
      rcases hn : headerAt f n with _ | c
      · exact hrest
      · dsimp only
        rw [if_neg (hlast n hlt (Nat.lt_succ_self n) c hn), hrest]
    · rw [lastHeader, hb]
      dsimp only
      rw [if_pos rfl]

theorem lastHeader_id : ∀ {n : ℕ}, lastHeader f id n = some b → b.id = id
  | n + 1, h => by
    rw [lastHeader] at h
    rcases hn : headerAt f n with _ | c <;> rw [hn] at h <;> dsimp only at h
    · exact lastHeader_id h
    · split_ifs at h with hid
      · exact Option.some.inj h ▸ hid
      · exact lastHeader_id h

section Load

theorem lookup_loadBlock {data : Bytes} {blocks : AList fun _ : Bytes => IdxBlock}
    (hread : f.readAt idxBlockSize (n * idxBlockSize) = some data)
    (h : ∀ id, blocks.lookup id = lastHeader f id n) (id : Bytes) :
    (loadBlock (n * idxBlockSize) data blocks).lookup id = lastHeader f id (n + 1) := by
  rw [lastHeader, headerAt, hread, loadBlock]
  dsimp only
  split_ifs with hzero
  · exact h id
  · dsimp only
    split_ifs with hid
    · rw [← hid, AList.lookup_insert]
    · rw [AList.lookup_insert_ne (Ne.symm hid), h id]

/-- From any slot on, the loop reads the rest of the headers and then comes to the end. -/
theorem lookup_loadFrom (hsize : f.size = idxFileSize) : ∀ (k n : ℕ)
    {blocks : AList fun _ : Bytes => IdxBlock}, n + k = partitionBlocksCount →
    (∀ id, blocks.lookup id = lastHeader f id n) → ∀ id,
      (loadFrom f (k + 1) (n * idxBlockSize) [] blocks).lookup id
        = lastHeader f id partitionBlocksCount
  | 0, n, blocks, hk, h, id => by
    have hend : f.readAt idxBlockSize (n * idxBlockSize) = none := by
      rw [File.readAt, if_neg]
      rw [hsize, show n = partitionBlocksCount from hk]
      decide
    simp only [loadFrom, List.headD_nil, hend, h id]
    rw [show n = partitionBlocksCount from hk]
  | k + 1, n, blocks, hk, h, id => by
    have hlt : n * idxBlockSize + idxBlockSize ≤ f.size := by
      rw [hsize, idxFileSize, ← Nat.succ_mul]
      exact Nat.mul_le_mul_right _ (by omega)
    obtain ⟨data, hread⟩ : ∃ data, f.readAt idxBlockSize (n * idxBlockSize) = some data :=
      ⟨_, if_pos (.inr hlt)⟩
    rw [loadFrom]
    simp only [List.headD_nil, hread, List.tail_nil]
    rw [← Nat.succ_mul]
    exact lookup_loadFrom hsize k (n + 1) (by omega) (lookup_loadBlock hread h) id

theorem lookup_load (hsize : f.size = idxFileSize) (id : Bytes) :
    (load f []).lookup id = lastHeader f id partitionBlocksCount := by
  have hrounds : idxFileSize / idxBlockSize = partitionBlocksCount := by decide
  have hspec := lookup_loadFrom hsize partitionBlocksCount 0 (Nat.zero_add _)
    (fun id => AList.lookup_empty id) id
  rw [Nat.zero_mul] at hspec
  simp only [load, hsize, hrounds, List.length_nil, Nat.zero_add]
  exact hspec

theorem lookup_foldl_insert : ∀ (order : List IdxBlock) {m : AList fun _ : Bytes => IdxBlock},
    (order.map IdxBlock.id).Nodup →
      (∀ b ∈ order, (order.foldl (fun m b => m.insert b.id b) m).lookup b.id = some b)
        ∧ ∀ id ∉ order.map IdxBlock.id,
          (order.foldl (fun m b => m.insert b.id b) m).lookup id = m.lookup id
  | [], m, _ => ⟨fun b hb => (nomatch hb), fun id _ => rfl⟩
  | c :: cs, m, hnd => by
    rw [List.map_cons, List.nodup_cons] at hnd
    obtain ⟨hin, hout⟩ := lookup_foldl_insert cs (m := m.insert c.id c) hnd.2
    refine ⟨fun b hb => ?_, fun id hid => ?_⟩
    · rcases List.mem_cons.mp hb with rfl | hb
      · exact (hout b.id hnd.1).trans (AList.lookup_insert _)
      · exact hin b hb
    · rw [List.map_cons, List.mem_cons, not_or] at hid
      exact (hout id hid.2).trans (AList.lookup_insert_ne hid.1)

theorem lookup_loadOrder (hsize : f.size = idxFileSize) {order : List IdxBlock}
    (horder : Partition.LoadOrder f order) (id : Bytes) :
    (order.foldl (fun m b => m.insert b.id b) (∅ : AList fun _ : Bytes => IdxBlock)).lookup id
      = lastHeader f id partitionBlocksCount := by
  have hkey : ∀ key b, (load f []).lookup key = some b → b.id = key := fun key b hb =>
    lastHeader_id ((lookup_load hsize key).symm.trans hb)
  have hmem : ∀ b, b ∈ order ↔ (load f []).lookup b.id = some b := by
    intro b
    rw [horder.mem_iff, List.mem_map]
    constructor
    · rintro ⟨⟨key, b⟩, he, rfl⟩
      have hlook := AList.mem_lookup_iff.mpr he
      rwa [hkey key b hlook]
    · exact fun hb => ⟨⟨b.id, b⟩, AList.mem_lookup_iff.mp hb, rfl⟩
  have hids : (order.map IdxBlock.id).Nodup := by
    rw [(horder.map IdxBlock.id).nodup_iff, List.map_map]
    have hkeys : ((load f []).entries.map Sigma.fst).Nodup := (load f []).keys_nodup
    refine (List.map_congr_left fun e he => ?_) ▸ hkeys
    exact (hkey e.1 e.2 (AList.mem_lookup_iff.mpr he)).symm
  obtain ⟨hin, hout⟩ := lookup_foldl_insert order hids
  rw [← lookup_load hsize]
  rcases hb : (load f []).lookup id with _ | b
  · refine (hout id fun hid => ?_).trans (AList.lookup_empty _)
    obtain ⟨b, hmem', rfl⟩ := List.mem_map.mp hid
    rw [(hmem b).mp hmem'] at hb
    cases hb
  · obtain rfl := hkey id b hb
    exact hin b ((hmem b).mpr hb)

end Load

namespace Partition

/-- A partition that is opened over the files of `p`: its blocks are those of the last headers. -/
theorem reopened {p : Partition} (hsize : p.idxFile.size = idxFileSize)
    (hfile : idxFileSize ≤ p.file.size) {order : List IdxBlock}
    (horder : LoadOrder (newPartition p.file p.idxFile).idxFile order) :
    ∃ q, (newPartition p.file p.idxFile).loadHeader none order = .ok q ∧ q.file = p.file
      ∧ q.closed = false ∧ q.full = false
      ∧ ∀ id, q.blocksMap.lookup id = lastHeader p.idxFile id partitionBlocksCount := by
  have hpos : 0 < p.file.size := hfile.trans_lt' (by decide)
  refine ⟨{ newPartition p.file p.idxFile with
    blocksMap := order.foldl (fun m b => m.insert b.id b)
      (newPartition p.file p.idxFile).blocksMap }, ?_, rfl, rfl, rfl, fun id => ?_⟩
  · have hsame : (newPartition p.file p.idxFile).file.size = p.file.size := rfl
    simp only [loadHeader, hsame]
    rw [if_neg hpos.ne', if_neg hfile.not_gt]
  · refine (lookup_loadOrder rfl horder id).trans (lastHeader_congr fun m _ => ?_)
    exact headerAt_congr (File.readAt_truncate _ hsize _ _)

end Partition

end Rhosus.Data

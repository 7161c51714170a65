import Rhosus.Data.Restart
import Rhosus.Data.Uploads
import Rhosus.Util.Uuid

/-!
# The lives of a data node

A data node is stopped at any moment and started again over the files it has left. The queues of the
sinks are gone then, and so is what was written to a data file without a header. A partition whose
headers cannot be read stays on the disk, and is there again after another start.

So there are two maps to each partition, one that it answers from and one that is on the disk. A
batch that is written and a removal change the first; it becomes the second when the headers are
written or erased; and a start makes the second the first (`node_refines_maps`).
-/

namespace Rhosus.Data

section Source

/-- A data node, and the files of the partitions that it could not load. -/
structure Host where
  node : DataNode
  unloaded : AList fun _ : Bytes => File × File

/-- The partition files of the directory, with their index files. -/
def Host.files (h : Host) : List (Bytes × File × File) :=
  h.node.parts.entries.map (fun e => (e.1, e.2.part.file, e.2.part.idxFile))
    ++ h.unloaded.entries.map fun e => (e.1, e.2)

/-- A round of `loadPartitions`. A name of another length is passed over. -/
def Host.loadPartition (h : Host) (mishap : Mishap) (order : List IdxBlock) (name : Bytes)
    (file idxFile : File) : Host :=
  let part := Partition.newPartition file idxFile
  if name.length ≠ 36 then { h with unloaded := h.unloaded.insert name (file, idxFile) }
  else
    match part.loadHeader mishap order with
    | .ok part => { h with node := h.node.setSink name ⟨part, [], .idle, []⟩ }
    | .error _ => { h with unloaded := h.unloaded.insert name (file, part.idxFile) }

instance decidableLoadOrder (f : File) (order : List IdxBlock) :
    Decidable (Partition.LoadOrder f order) := inferInstanceAs (Decidable (List.Perm _ _))

/-- `NewPartitionsMap` on the directory: where no partition is loaded one is created. -/
def Host.restart (mishaps : Bytes → Mishap) (orders : Bytes → List IdxBlock)
    (rand : Option Util.UUID) (h : Host) : Option Host :=
  if ∀ f ∈ h.files,
      Partition.LoadOrder (Partition.newPartition f.2.1 f.2.2).idxFile (orders f.1) then
    let h := h.files.foldl (fun h f => h.loadPartition (mishaps f.1) (orders f.1) f.1 f.2.1 f.2.2)
      ⟨.new, ∅⟩
    if h.node.parts.entries = [] then
      let name := Util.newID rand
      -- the id is a new one
      if name ∈ h.unloaded then none
      else some { h with node := h.node.setSink name newSink }
    else some h
  else none

inductive Life
  | node (l : NodeMove)
  /-- The node is stopped, and started again. -/
  | restart (mishaps : Bytes → Mishap) (orders : Bytes → List IdxBlock) (rand : Option Util.UUID)

def Life.step : Life → Host → Option Host
  | .node l, h => (h.node.step l).map fun node => { h with node }
  | .restart mishaps orders rand, h => h.restart mishaps orders rand

end Source

namespace Partition

variable {p q : Partition} {m : Bytes → Option Bytes}

/-- The files are those of a partition at rest that holds the map. -/
def Kept (file idxFile : File) (m : Bytes → Option Bytes) : Prop :=
  ∃ p : Partition, p.file = file ∧ p.idxFile = idxFile ∧ p.Indexed [] [] ∧ p.Holds m
    ∧ idxFileSize ≤ file.size

theorem Indexed.of_lookup (h : p.Indexed [] [])
    (hmap : ∀ id, q.blocksMap.lookup id = p.blocksMap.lookup id)
    (hsize : q.idxFile.size = p.idxFile.size)
    (hread : ∀ n off, q.idxFile.readAt n off = p.idxFile.readAt n off) : q.Indexed [] [] := by
  have hall : ∀ n, q.isBlockAllocated n = p.isBlockAllocated n := fun n => by
    rw [Bool.eq_iff_iff, isBlockAllocated_iff, isBlockAllocated_iff]
    simp only [hmap]
  refine ⟨fun id b hb => h.proper id b ((hmap id).symm.trans hb),
    fun id id' b b' hb hb' => h.slot_inj id id' b b' ((hmap id).symm.trans hb)
      ((hmap id').symm.trans hb'), hsize.trans h.size, fun id b hb => ?_, fun n hn hfree => ?_,
    fun _ _ hb => (nomatch hb), fun _ hn => (nomatch hn)⟩
  · rw [hread]
    exact h.header id b ((hmap id).symm.trans hb)
  · rw [hread]
    exact h.zero n hn ((hall n).symm.trans hfree)

theorem Holds.of_lookup (h : p.Holds m) (hfile : q.file = p.file)
    (hmap : ∀ id, q.blocksMap.lookup id = p.blocksMap.lookup id) : q.Holds m := by
  obtain ⟨⟨hlt, hsize, hinj⟩, hstored, habsent⟩ := h
  refine ⟨⟨?_, ?_, ?_⟩, fun id d hd => ?_, fun id hid => (hmap id).trans (habsent id hid)⟩
  · simpa only [hmap] using hlt
  · simpa only [hmap] using hsize
  · simpa only [hmap] using hinj
  · simpa only [Stores, hmap, hfile] using hstored id d hd

/-- What was kept is there when the files are opened. -/
theorem Kept.opens {file idxFile : File} (h : Kept file idxFile m) {order : List IdxBlock}
    (horder : LoadOrder (newPartition file idxFile).idxFile order) :
    ∃ q, (newPartition file idxFile).loadHeader none order = .ok q ∧ q.Holds m ∧ q.Indexed [] []
      ∧ q.closed = false ∧ idxFileSize ≤ q.file.size := by
  obtain ⟨p, rfl, rfl, hidx, hholds, hsize⟩ := h
  obtain ⟨q, hload, hfile, hopen, -, hlast⟩ := reopened hidx.size hsize horder
  have hmap : ∀ id, q.blocksMap.lookup id = p.blocksMap.lookup id := fun id =>
    (hlast id).trans (hidx.lastHeader_eq id)
  have hqidx : q.idxFile = p.idxFile.truncate idxFileSize := by
    simp only [loadHeader] at hload
    split_ifs at hload
    obtain rfl := Except.ok.inj hload
    rfl
  refine ⟨q, hload, hholds.of_lookup hfile hmap, hidx.of_lookup hmap ?_ ?_, hopen, ?_⟩
  · rw [hqidx, hidx.size]
    rfl
  · rw [hqidx]
    exact p.idxFile.readAt_truncate hidx.size
  · rwa [hfile]

theorem Kept.truncate {file idxFile : File} (h : Kept file idxFile m) :
    Kept file (newPartition file idxFile).idxFile m := by
  obtain ⟨p, rfl, rfl, hidx, hholds, hsize⟩ := h
  refine ⟨{ p with idxFile := p.idxFile.truncate idxFileSize }, rfl, rfl,
    hidx.of_lookup (fun _ => rfl) ?_ ?_, hholds.of_lookup rfl fun _ => rfl, hsize⟩
  · rw [hidx.size]
    rfl
  · exact p.idxFile.readAt_truncate hidx.size

theorem lookup_foldl_block {id : Bytes} : ∀ (blocks : List (Bytes × Bytes)) {w : Writing},
    w.io = [] → id ∉ blocks.map Prod.fst →
      (blocks.foldl (fun w b => w.block b.1 b.2) w).part.blocksMap.lookup id
        = w.part.blocksMap.lookup id
  | [], _, _, _ => rfl
  | b :: bs, w, hio, hid => by
    rw [List.map_cons, List.mem_cons, not_or] at hid
    have hplain := block_of_plain hio b.1 b.2
    rw [List.foldl_cons, lookup_foldl_block bs (by rw [hplain]) hid.2, hplain]
    exact lookup_enter_ne hid.1

theorem idxFile_foldl_block : ∀ (blocks : List (Bytes × Bytes)) {w : Writing}, w.io = [] →
    (blocks.foldl (fun w b => w.block b.1 b.2) w).part.idxFile = w.part.idxFile
  | [], _, _ => rfl
  | b :: bs, w, hio => by
    have hplain := block_of_plain hio b.1 b.2
    obtain ⟨full, henter⟩ := (w.part.overwrite w.part.firstFree b.2).enter_eq
      ⟨b.1, b.2.length, w.part.firstFree * idxBlockSize⟩
    rw [List.foldl_cons, idxFile_foldl_block bs (by rw [hplain]), hplain]
    dsimp only
    rw [henter]
    rfl

/-- Whether the partition counts as full makes no difference to what is written. -/
theorem foldl_block_setFull : ∀ (blocks : List (Bytes × Bytes)) {w : Writing} (full : Bool),
    w.io = [] → ∃ full',
      blocks.foldl (fun w b => w.block b.1 b.2) { w with part := { w.part with full } }
        = { blocks.foldl (fun w b => w.block b.1 b.2) w with
            part := { (blocks.foldl (fun w b => w.block b.1 b.2) w).part with full := full' } }
  | [], _, full, _ => ⟨full, rfl⟩
  | b :: bs, w, full, hio => by
    have hplain := block_of_plain hio b.1 b.2
    have hplain' := block_of_plain (w := { w with part := { w.part with full } }) hio b.1 b.2
    obtain ⟨full₁, h₁⟩ := (w.part.overwrite w.part.firstFree b.2).enter_eq
      ⟨b.1, b.2.length, w.part.firstFree * idxBlockSize⟩
    obtain ⟨full₂, h₂⟩ := (Partition.overwrite { w.part with full } w.part.firstFree b.2).enter_eq
      ⟨b.1, b.2.length, w.part.firstFree * idxBlockSize⟩
    have hstep : ({ w with part := { w.part with full } } : Writing).block b.1 b.2
        = { w.block b.1 b.2 with part := { (w.block b.1 b.2).part with full := full₂ } } := by
      rw [hplain', hplain]
      dsimp only
      rw [h₁]
      exact congrArg (fun p => Writing.mk p _ _ _) h₂
    rw [List.foldl_cons, List.foldl_cons, hstep]
    exact foldl_block_setFull bs full₂ (by rw [hplain])

/-- A batch of new blocks is written: its headers are to be written, and the files keep what they
had. -/
theorem kept_write (hidx : p.Indexed [] []) (hp : p.Holds m) (hopen : p.closed = false)
    (hsize : idxFileSize ≤ p.file.size) {blocks : List (Bytes × Bytes)}
    (hlen : p.len + blocks.length ≤ partitionBlocksCount) (hnd : (blocks.map Prod.fst).Nodup)
    (hall : ∀ b ∈ blocks, b.1.length = 36 ∧ (∀ x ∈ b.1, x ≠ 0) ∧ b.1 ∉ p.blocksMap)
    (hdata : ∀ b ∈ blocks, b.2.length ≤ defaultBlockSize) :
    (p.writeBlocks blocks []).part.Indexed
        ((p.writeBlocks blocks []).idxs.entries.map fun e => (e.1, e.2)) []
      ∧ Kept (p.writeBlocks blocks []).part.file (p.writeBlocks blocks []).part.idxFile m := by
  set full := decide (partitionBlocksCount ≤ p.len)
  have hentered := Entered.blocks blocks (w := ⟨{ p with full }, ∅, [], []⟩)
    ⟨rfl, hidx.setFull full, decide_eq_true_iff, hopen, hsize⟩ hlen hnd fun b hb =>
      ⟨(hall b hb).1, (hall b hb).2.1, (hall b hb).2.2, (hdata b hb).trans_lt (by decide)⟩
  obtain ⟨full', heq⟩ := foldl_block_setFull blocks (w := ⟨p, ∅, [], []⟩) full rfl
  rw [heq] at hentered
  have hnew := (Holds.blocks blocks (w := ⟨p, ∅, [], []⟩) hp rfl hlen hdata).1
  have hsame : (p.writeBlocks blocks []).part.idxFile = p.idxFile := idxFile_foldl_block blocks rfl
  refine ⟨hentered.indexed.setFull _, { p with file := (p.writeBlocks blocks []).part.file }, rfl,
    hsame.symm, hidx.of_lookup (fun _ => rfl) rfl fun _ _ => rfl,
    ⟨⟨hp.wf.slot_lt, hp.wf.size_le, hp.wf.slot_inj⟩, fun id d hd => ?_, hp.absent⟩, hentered.file⟩
  obtain ⟨b, hb, -⟩ := hp.stored id d hd
  have hid : ∀ c ∈ blocks, c.1 ≠ id := fun c hc he =>
    (hall c hc).2.2 (AList.lookup_isSome.mp (by rw [he, hb]; rfl))
  obtain ⟨b', hb', hread⟩ := hnew.stored id d
    (store_of_mem (fun c hc he => absurd he (hid c hc)) (.inr hd))
  refine ⟨b', ?_, hread⟩
  rw [← hb']
  refine (lookup_foldl_block (w := ⟨p, ∅, [], []⟩) blocks rfl fun hmem => ?_).symm
  obtain ⟨c, hc, he⟩ := List.mem_map.mp hmem
  exact hid c hc he

end Partition

section Sinks

/-- What a partition answers from, and what is on the disk. -/
structure Maps where
  mem : Bytes → Option Bytes
  disk : Bytes → Option Bytes

variable {s s' : Sink} {l : Move} {M : Maps}

/-- What a step asks of the two maps. -/
def Maps.see (l : Move) (M : Maps) : Maps :=
  match l with
  | .write order _ => { M with mem := Partition.store order M.mem }
  | .remove ids => { M with mem := Partition.unstore ids M.mem }
  | .index .. | .erase .. => { M with disk := M.mem }
  | .put _ | .tick | .drain | .check | .choose _ | .look _ | .clearFull _ => M

theorem Maps.mem_see : (M.see l).mem = l.apply M.mem := by
  cases l <;> rfl

/-- The slots whose headers a removal has still to erase. -/
def Removal.slots : Removal → List ℕ
  | .unlocked slots | .notFull slots | .erase slots => slots
  | .done => []

def Removal.isDone : Removal → Bool
  | .done => true
  | .unlocked _ | .notFull _ | .erase _ => false

/-- There are headers to be written. -/
def Stage.isIndex : Stage → Bool
  | .index _ => true
  | .idle | .draining _ | .drained _ | .over _ | .write _ => false

/-- No removal is under way. -/
def Sink.quiet (s : Sink) : Bool := s.removals.all Removal.isDone

/-- Blocks are new when they are written, with ids of 36 bytes that are not zero, and stored when
they are removed; writes and removals wait for one another; and file operations succeed. -/
def Move.InTurn (l : Move) (s : Sink) : Prop :=
  match l with
  | .write order io => io = [] ∧ s.quiet
    ∧ ∀ b ∈ order, b.1.length = 36 ∧ (∀ x ∈ b.1, x ≠ 0) ∧ b.1 ∉ s.part.blocksMap
  | .remove ids => s.quiet ∧ s.stage.isIndex = false ∧ ids.Nodup ∧ ∀ id ∈ ids, id ∈ s.part.blocksMap
  | .index _ io | .erase _ io => io = []
  | .put _ | .tick | .drain | .check | .choose _ | .look _ | .clearFull _ => True

theorem Move.InTurn.plain (h : l.InTurn s) (hput : ∀ b, l ≠ .put b) : l.Plain := by
  cases l with
  | put b => exact absurd rfl (hput b)
  | write => exact h.1
  | index | erase => exact h
  | _ => trivial

/-- How far a write or a removal is. -/
inductive Sink.Phase (s : Sink) (M : Maps) : Prop
  | resting (hstage : s.stage.isIndex = false) (hquiet : s.quiet) (hidx : s.part.Indexed [] [])
    (hsame : M.disk = M.mem)
  | writing {idxs : List (ℕ × IdxBlock)} (hstage : s.stage = .index idxs) (hquiet : s.quiet)
    (hidx : s.part.Indexed idxs [])
  | removing {k : ℕ} {r : Removal} (hstage : s.stage.isIndex = false)
    (hk : s.removals[k]? = some r) (hr : r.isDone = false)
    (hothers : ∀ j r', s.removals[j]? = some r' → j ≠ k → r'.isDone)
    (hidx : s.part.Indexed [] r.slots)

/-- The partition holds the first map, and its files keep the second one. -/
structure Sink.Between (s : Sink) (M : Maps) : Prop where
  holds : s.Holds M.mem
  kept : Partition.Kept s.part.file s.part.idxFile M.disk
  nodup : s.stage.ids.Nodup
  phase : s.Phase M

theorem Sink.Phase.setStage (h : s.Phase M) (hs : s.stage.isIndex = false) {stage : Stage}
    (hstage : stage.isIndex = false) (queue : List Block) :
    Phase { s with queue, stage } M := by
  cases h with
  | resting _ hquiet hidx hsame => exact .resting hstage hquiet hidx hsame
  | writing hs' => rw [hs'] at hs; cases hs
  | removing _ hk hr hothers hidx => exact .removing hstage hk hr hothers hidx

theorem Sink.quiet_iff :
    s.quiet ↔ ∀ (k : ℕ) (r : Removal), s.removals[k]? = some r → r.isDone := by
  rw [quiet, List.all_eq_true]
  exact ⟨fun h k r hr => h r (List.mem_of_getElem? hr), fun h r hr => by
    obtain ⟨k, hk⟩ := List.getElem?_of_mem hr
    exact h k r hk⟩

/-- A removal that takes a step is the one that is under way. -/
theorem Sink.Phase.removal (h : s.Phase M) {k : ℕ} {r : Removal} (hk : s.removals[k]? = some r)
    (hr : r.isDone = false) : s.stage.isIndex = false ∧ s.part.Indexed [] r.slots
      ∧ ∀ j r', s.removals[j]? = some r' → j ≠ k → r'.isDone := by
  have hnot : ¬ s.quiet := fun hq => by
    rw [Sink.quiet_iff.mp hq k r hk] at hr
    cases hr
  cases h with
  | resting _ hquiet => exact absurd hquiet hnot
  | writing _ hquiet => exact absurd hquiet hnot
  | @removing k' r' hstage hk' hr' hothers hidx =>
    obtain rfl : k = k' := by
      by_contra hne
      rw [hothers k r hk hne] at hr
      cases hr
    obtain rfl := Option.some.inj (hk.symm.trans hk')
    exact ⟨hstage, hidx, hothers⟩

theorem Sink.Phase.setRemoval (h : s.Phase M) {k : ℕ} {r q : Removal}
    (hk : s.removals[k]? = some r) (hr : r.isDone = false) (hq : q.isDone = false)
    (hslots : q.slots = r.slots) (full : Bool) :
    Phase { s with part := { s.part with full }, removals := s.removals.set k q } M := by
  obtain ⟨hstage, hidx, hothers⟩ := h.removal hk hr
  have hlt : k < s.removals.length := (List.getElem?_eq_some_iff.mp hk).1
  refine .removing (k := k) hstage (List.getElem?_set_self hlt) hq (fun j r₁ hj hne => ?_) ?_
  · rw [List.getElem?_set_ne hne.symm] at hj
    exact hothers j r₁ hj hne
  · rw [hslots]
    exact hidx.setFull full

theorem Sink.sublist_firstBlocks (count : ℤ) (order : List (Bytes × Bytes)) :
    (firstBlocks count order).Sublist order := by
  unfold firstBlocks
  split_ifs
  · exact List.Sublist.refl _
  · exact List.take_sublist _ _

theorem Sink.Between.write (h : s.Between M) {order : List (Bytes × Bytes)} {io : List Mishap}
    (hin : (Move.write order io).InTurn s) (hstep : s.step (.write order io) = some s') :
    Partition.Kept s'.part.file s'.part.idxFile M.disk ∧ s'.stage.ids.Nodup
      ∧ s'.Phase (M.see (.write order io)) := by
  obtain ⟨rfl, hquiet, hnew⟩ := hin
  simp only [Sink.step, flush] at hstep
  rcases hst : s.stage with _ | _ | _ | _ | blocks | _ <;> rw [hst] at hstep <;>
    try cases hstep
  dsimp only at hstep
  split_ifs at hstep with ho hclosed
  · exact (h.holds.not_closed hclosed).elim
  obtain rfl := Option.some.inj hstep
  have hroom := h.holds.room blocks hst
  have hnd := h.nodup
  rw [hst] at hnd
  have hbatch := h.holds.batch
  rw [hst] at hbatch
  obtain ⟨-, -, -, -, -, hsize⟩ := h.kept
  cases h.phase with
  | writing hstage => rw [hst] at hstage; cases hstage
  | removing _ hk hr =>
    rw [Sink.quiet_iff.mp hquiet _ _ hk] at hr
    cases hr
  | resting hstage hq hidx hsame =>
    rw [← ho.length_eq] at hroom
    obtain ⟨hindexed, hkept⟩ := Partition.kept_write hidx (hsame ▸ h.holds.part) h.holds.isOpen
      hsize hroom ((ho.map Prod.fst).nodup_iff.mpr hnd) hnew fun b hb => hbatch b (ho.subset hb)
    exact ⟨hkept, List.nodup_nil, .writing rfl hquiet hindexed⟩

theorem Sink.Between.index (h : s.Between M) {order : List (ℕ × IdxBlock)}
    (hstep : s.step (.index order []) = some s') :
    Partition.Kept s'.part.file s'.part.idxFile M.mem ∧ s'.stage.ids.Nodup
      ∧ s'.Phase (M.see (.index order [])) := by
  simp only [Sink.step, flush] at hstep
  rcases hst : s.stage with _ | _ | _ | _ | _ | idxs <;> rw [hst] at hstep <;>
    try cases hstep
  dsimp only at hstep
  split_ifs at hstep with ho
  obtain rfl := Option.some.inj hstep
  obtain ⟨-, -, -, -, -, hsize⟩ := h.kept
  cases h.phase with
  | resting hstage => rw [hst] at hstage; cases hstage
  | removing hstage => rw [hst] at hstage; cases hstage
  | @writing idxs' hstage hquiet hidx =>
    obtain rfl := Stage.index.inj (hst.symm.trans hstage)
    have hdone := (hidx.congr (fun _ => ho.mem_iff) fun _ => Iff.rfl).writeIdxs
    obtain ⟨idxFile, heq⟩ := Partition.writeIdxs_eq order [] s.part
    rw [heq] at hdone ⊢
    exact ⟨⟨_, rfl, rfl, hdone, h.holds.part.congr rfl rfl, hsize⟩, List.nodup_nil,
      .resting rfl hquiet hdone rfl⟩

theorem Sink.Between.remove (h : s.Between M) {ids : List Bytes}
    (hin : (Move.remove ids).InTurn s) (hstep : s.step (.remove ids) = some s') :
    Partition.Kept s'.part.file s'.part.idxFile M.disk ∧ s'.stage.ids.Nodup
      ∧ s'.Phase (M.see (.remove ids)) := by
  obtain ⟨hquiet, hstage, hnd, hmem⟩ := hin
  simp only [Sink.step, removal] at hstep
  rw [if_neg h.holds.not_closed] at hstep
  obtain rfl := Option.some.inj hstep
  cases h.phase with
  | writing hst => rw [hst] at hstage; cases hstage
  | removing _ hk hr =>
    rw [Sink.quiet_iff.mp hquiet _ _ hk] at hr
    cases hr
  | resting _ _ hidx hsame =>
    have hremoved := hidx.removeBlocks ids hnd hmem
    rw [List.append_nil] at hremoved
    obtain ⟨blocksMap, heq⟩ := s.part.removeBlocks_eq ids
    refine ⟨?_, h.nodup, .removing (k := s.removals.length)
      (r := .unlocked (s.part.removeBlocks ids).1) hstage (by simp) rfl (fun j r hj hne => ?_)
      hremoved⟩
    · dsimp only
      rw [heq]
      exact h.kept
    · rw [List.getElem?_append] at hj
      split_ifs at hj with hlt
      · exact Sink.quiet_iff.mp hquiet j r hj
      · have := (List.getElem?_eq_some_iff.mp hj).1
        rw [List.length_singleton] at this
        omega

theorem Sink.Between.erase (h : s.Between M) {k : ℕ} (hstep : s.step (.erase k []) = some s') :
    Partition.Kept s'.part.file s'.part.idxFile M.mem ∧ s'.stage.ids.Nodup
      ∧ s'.Phase (M.see (.erase k [])) := by
  simp only [Sink.step, removal] at hstep
  split at hstep
  · rename_i slots hk
    obtain rfl := Option.some.inj hstep
    obtain ⟨hstage, hidx, hothers⟩ := h.phase.removal hk rfl
    obtain ⟨-, -, -, -, -, hsize⟩ := h.kept
    have hdone := hidx.eraseIdxs
    have hquiet : Sink.quiet { s with removals := s.removals.set k .done } := by
      refine Sink.quiet_iff.mpr fun j r hj => ?_
      by_cases hne : j = k
      · subst hne
        dsimp only at hj
        rw [List.getElem?_set_self (List.getElem?_eq_some_iff.mp hk).1] at hj
        obtain rfl := Option.some.inj hj
        rfl
      · dsimp only at hj
        rw [List.getElem?_set_ne (Ne.symm hne)] at hj
        exact hothers j r hj hne
    obtain ⟨idxFile, heq⟩ := Partition.eraseIdxs_eq (Partition.headerBytes slots) [] s.part
    rw [Removal.slots, heq] at hdone
    rw [heq]
    exact ⟨⟨_, rfl, rfl, hdone, h.holds.part.congr rfl rfl, hsize⟩, h.nodup,
      .resting hstage hquiet hdone rfl⟩
  · cases hstep

theorem Sink.Between.step (h : s.Between M) (hl : l.Plain) (hin : l.InTurn s)
    (hstep : s.step l = some s') : s'.Between (M.see l) := by
  have hholds : s'.Holds (M.see l).mem := by
    rw [Maps.mem_see]
    exact h.holds.step hl hstep
  cases l with
  | put b =>
    cases stepped hstep with
    | touch hl' => cases hl'
    | put b hroom =>
      refine ⟨hholds, h.kept, h.nodup, ?_⟩
      cases h.phase with
      | resting hstage hquiet hidx hsame => exact .resting hstage hquiet hidx hsame
      | writing hstage hquiet hidx => exact .writing hstage hquiet hidx
      | removing hstage hk hr hothers hidx => exact .removing hstage hk hr hothers hidx
  | tick =>
    cases stepped hstep with
    | touch hl' => cases hl'
    | tick hs =>
      exact ⟨hholds, h.kept, List.nodup_nil, h.phase.setStage (by rw [hs]; rfl) rfl _⟩
  | drain =>
    cases stepped hstep with
    | touch hl' => cases hl'
    | @take blocks b queue hs hq =>
      refine ⟨hholds, h.kept, ?_, h.phase.setStage (by rw [hs]; rfl) rfl _⟩
      rw [Stage.ids_draining]
      exact AList.keys_nodup _
    | empty hs hq =>
      refine ⟨hholds, h.kept, ?_, h.phase.setStage (by rw [hs]; rfl) ?_ _⟩
      · dsimp only
        split_ifs
        · exact List.nodup_nil
        · exact h.nodup
      · split_ifs <;> rfl
  | check =>
    cases stepped hstep with
    | touch hl' => cases hl'
    | check hs =>
      have hnd := h.nodup
      rw [hs] at hnd
      refine ⟨hholds, h.kept, ?_, h.phase.setStage (by rw [hs]; rfl) ?_ _⟩
      · dsimp only
        split_ifs <;> exact hnd
      · split_ifs <;> rfl
  | choose order =>
    cases stepped hstep with
    | touch hl' => cases hl'
    | choose hs ho =>
      have hnd := h.nodup
      rw [hs] at hnd
      refine ⟨hholds, h.kept, ?_, h.phase.setStage (by rw [hs]; rfl) rfl _⟩
      exact ((ho.map Prod.fst).nodup_iff.mpr hnd).sublist ((sublist_firstBlocks _ _).map _)
  | write order io =>
    obtain ⟨hkept, hnd, hphase⟩ := h.write hin hstep
    exact ⟨hholds, hkept, hnd, hphase⟩
  | index order io =>
    obtain rfl : io = [] := hin
    obtain ⟨hkept, hnd, hphase⟩ := h.index hstep
    exact ⟨hholds, hkept, hnd, hphase⟩
  | remove ids =>
    obtain ⟨hkept, hnd, hphase⟩ := h.remove hin hstep
    exact ⟨hholds, hkept, hnd, hphase⟩
  | look k =>
    simp only [Sink.step, removal] at hstep
    split at hstep
    · rename_i slots hk
      obtain rfl := Option.some.inj hstep
      refine ⟨hholds, h.kept, h.nodup, h.phase.setRemoval hk rfl ?_ ?_ _⟩ <;> split_ifs <;> rfl
    · cases hstep
  | clearFull k =>
    simp only [Sink.step, removal] at hstep
    split at hstep
    · rename_i slots hk
      obtain rfl := Option.some.inj hstep
      exact ⟨hholds, h.kept, h.nodup,
        h.phase.setRemoval (q := .erase slots) hk rfl rfl rfl false⟩
    · cases hstep
  | erase k io =>
    obtain rfl : io = [] := hin
    obtain ⟨hkept, hnd, hphase⟩ := h.erase hstep
    exact ⟨hholds, hkept, hnd, hphase⟩

def Maps.empty : Maps := ⟨fun _ => none, fun _ => none⟩

theorem between_newSink : newSink.Between .empty where
  holds := Sink.holds_new _ _
  kept := ⟨newSink.part, rfl, rfl, Partition.indexed_new rfl fun _ _ => rfl,
    Partition.holds_new _ _, by decide⟩
  nodup := List.nodup_nil
  phase := .resting rfl rfl (Partition.indexed_new rfl fun _ _ => rfl) rfl

theorem between_loaded {p : Partition} {m : Bytes → Option Bytes} (hp : p.Holds m)
    (hidx : p.Indexed [] []) (hopen : p.closed = false) (hsize : idxFileSize ≤ p.file.size) :
    Sink.Between ⟨p, [], .idle, []⟩ ⟨m, m⟩ where
  holds := ⟨hp, hopen, by simp, by simp [Stage.blocks], by simp⟩
  kept := ⟨p, rfl, rfl, hidx, hp, hsize⟩
  nodup := List.nodup_nil
  phase := .resting rfl rfl hidx rfl

end Sinks

section Lives

theorem exists_lookup {α : Type} {m : AList fun _ : Bytes => α} {k : Bytes} (h : k ∈ m) :
    ∃ a, m.lookup k = some a := Option.isSome_iff_exists.mp (AList.lookup_isSome.mpr h)

theorem mem_of_lookup {α : Type} {m : AList fun _ : Bytes => α} {k : Bytes} {a : α}
    (h : m.lookup k = some a) : k ∈ m := AList.lookup_isSome.mp (by rw [h]; rfl)

variable {h h' : Host} {M : Bytes → Maps} {D : Bytes → Bytes → Option Bytes} {pid : Bytes}
  {names : List Bytes}

/-- What a step asks of the maps of the partitions. -/
def Life.apply : Life → (Bytes → Maps) → Bytes → Maps
  | .node (.part pid l), M => Function.update M pid ((M pid).see l)
  | .node _, M => M
  | .restart .., M => fun pid => { M pid with mem := (M pid).disk }

/-- The maps after the steps, where all were empty. -/
def lives (ls : List Life) : Bytes → Maps := ls.foldl (fun M l => l.apply M) fun _ => .empty

/-- The steps of each partition are in turn, blocks that are uploaded fit a slot, and a partition
that is created has a new name of 36 bytes. -/
def Life.InTurn (l : Life) (h : Host) : Prop :=
  match l with
  | .node (.part pid l) => ∀ s ∈ h.node.parts.lookup pid, l.InTurn s
  | .node (.create pid) | .node (.look _ (some pid)) => pid.length = 36 ∧ pid ∉ h.unloaded
  | .node (.assign _ blocks) => ∀ b ∈ blocks, b.data.length ≤ defaultBlockSize
  | .node _ | .restart .. => True

/-- Each partition has its maps, be it loaded or not. -/
structure Lives (h : Host) (M : Bytes → Maps) : Prop where
  up : h.node.shutdown = false
  small : ∀ a ∈ h.node.calls, ∀ b ∈ a.blocks, b.data.length ≤ defaultBlockSize
  loaded : ∀ pid s, h.node.parts.lookup pid = some s → pid.length = 36 ∧ s.Between (M pid)
  unloaded : ∀ pid f, h.unloaded.lookup pid = some f →
    pid.length = 36 ∧ pid ∉ h.node.parts ∧ Partition.Kept f.1 f.2 (M pid).disk
  absent : ∀ pid, pid ∉ h.node.parts → pid ∉ h.unloaded → M pid = .empty

theorem lives_new : Lives ⟨.new, ∅⟩ fun _ => .empty := by
  constructor <;> simp [DataNode.new]

theorem Lives.not_unloaded (hl : Lives h M) (hpid : pid ∈ h.node.parts) : pid ∉ h.unloaded :=
  fun hmem => by
    obtain ⟨f, hf⟩ := exists_lookup hmem
    exact (hl.unloaded pid f hf).2.1 hpid

theorem Lives.setSink (hl : Lives h M) {s : Sink} {M' : Bytes → Maps} (hs : s.Between (M' pid))
    (hM : ∀ q, q ≠ pid → M' q = M q) (hlen : pid.length = 36) (hpid : pid ∉ h.unloaded) :
    Lives { h with node := h.node.setSink pid s } M' where
  up := hl.up
  small := hl.small
  loaded q s' hq := by
    rcases DataNode.lookup_setSink hq with ⟨rfl, rfl⟩ | ⟨hne, hq⟩
    · exact ⟨hlen, hs⟩
    · rw [hM q hne]
      exact hl.loaded q s' hq
  unloaded q f hq := by
    obtain ⟨hlen', hnot, hkept⟩ := hl.unloaded q f hq
    have hne : q ≠ pid := by
      rintro rfl
      exact hpid (mem_of_lookup hq)
    refine ⟨hlen', fun hmem => ?_, by rwa [hM q hne]⟩
    exact ((AList.mem_insert _).mp hmem).elim hne hnot
  absent q hq hq' := by
    have hq : ¬ (q = pid ∨ q ∈ h.node.parts) := mt (AList.mem_insert _).mpr hq
    rw [not_or] at hq
    rw [hM q hq.1]
    exact hl.absent q hq.2 hq'

theorem Lives.create (hl : Lives h M) (hlen : pid.length = 36) (hnew : pid ∉ h.node.parts)
    (hpid : pid ∉ h.unloaded) : Lives { h with node := h.node.setSink pid newSink } M := by
  refine hl.setSink ?_ (fun _ _ => rfl) hlen hpid
  rw [hl.absent pid hnew hpid]
  exact between_newSink

theorem Lives.setCall (hl : Lives h M) {k : ℕ} {a a' : Assign} (hk : h.node.calls[k]? = some a)
    (hb : a'.blocks = a.blocks) : Lives { h with node := h.node.setCall k a' } M where
  up := hl.up
  small c hc := by
    rcases List.mem_or_eq_of_mem_set hc with hc | rfl
    · exact hl.small c hc
    · rw [hb]
      exact hl.small a (List.mem_of_getElem? hk)
  loaded := hl.loaded
  unloaded := hl.unloaded
  absent := hl.absent

theorem mem_look {n n' : DataNode} {k : ℕ} {created : Option Bytes}
    (hstep : n.step (.look k created) = some n') (hpid : pid ∈ n'.parts) :
    pid ∈ n.parts ∨ created = some pid := by
  obtain ⟨a, -, hcall⟩ := DataNode.call_of_step (.inr (.inr (.inr (.inr ⟨created, rfl⟩)))) hstep
  unfold DataNode.call at hcall
  rcases ha : a.stage <;> simp only [ha, reduceCtorEq] at hcall
  unfold DataNode.look at hcall
  split at hcall
  · obtain rfl := Option.some.inj hcall
    exact .inl hpid
  · split_ifs at hcall
    · obtain ⟨n₁, hn₁, rfl⟩ := Option.map_eq_some_iff.mp hcall
      obtain ⟨-, rfl⟩ := DataNode.createPartition_eq hn₁
      exact ((AList.mem_insert _).mp hpid).symm.imp_right fun h => by rw [h]
    · obtain rfl := Option.some.inj hcall
      exact .inl hpid
  · obtain rfl := Option.some.inj hcall
    exact .inl hpid

theorem Lives.node (hl : Lives h M) {l : NodeMove} {n : DataNode}
    (hin : (Life.node l).InTurn h) (hstep : h.node.step l = some n) :
    Lives { h with node := n } ((Life.node l).apply M) := by
  cases nodeStepped hstep with
  | @part pid l s s' hput hs hsink =>
    obtain ⟨hlen, hbetween⟩ := hl.loaded pid s hs
    refine hl.setSink ?_ (fun q hq => Function.update_of_ne hq _ _) hlen
      (hl.not_unloaded (mem_of_lookup hs))
    rw [Life.apply, Function.update_self]
    exact hbetween.step ((hin s hs).plain hput) (hin s hs) hsink
  | create hnew => exact hl.create hin.1 hnew hin.2
  | assign stage =>
    refine ⟨hl.up, fun a ha => ?_, hl.loaded, hl.unloaded, hl.absent⟩
    rcases List.mem_append.mp ha with ha | ha
    · exact hl.small a ha
    · rw [List.mem_singleton.mp ha]
      exact hin
  | look hk => exact hl.setCall hk rfl
  | @lookCreate k created a pid hk ha hnew =>
    obtain rfl := (mem_look hstep ((AList.mem_insert _).mpr (.inl rfl))).resolve_left hnew
    exact Lives.setCall (h := { h with node := h.node.setSink pid newSink })
      (hl.create hin.1 hnew hin.2) hk rfl
  | @put k a b pid s s' hk ha ht hs hput =>
    obtain ⟨hlen, hbetween⟩ := hl.loaded pid s hs
    refine Lives.setCall (h := { h with node := h.node.setSink pid s' })
      (hl.setSink ?_ (fun _ _ => rfl) hlen (hl.not_unloaded (mem_of_lookup hs))) hk rfl
    have hb := List.mem_of_getElem? (Assign.target_eq ht).1
    exact hbetween.step (l := .put b) (hl.small a (List.mem_of_getElem? hk) b hb) trivial hput
  | wait hk | expire hk | finish hk => exact hl.setCall hk rfl

/-- The directory is gone through as far as these names. -/
structure Loading (mishaps : Bytes → Mishap) (D : Bytes → Bytes → Option Bytes)
    (names : List Bytes) (h : Host) : Prop where
  up : h.node.shutdown = false
  calls : h.node.calls = []
  loaded : ∀ pid s, h.node.parts.lookup pid = some s →
    pid ∈ names ∧ s.queue = [] ∧ pid.length = 36 ∧ s.Between ⟨D pid, D pid⟩
  unloaded : ∀ pid f, h.unloaded.lookup pid = some f → pid ∈ names ∧ pid.length = 36
    ∧ pid ∉ h.node.parts ∧ Partition.Kept f.1 f.2 (D pid)
  found : ∀ pid ∈ names, pid ∈ h.node.parts ∨ mishaps pid ≠ none ∧ pid ∈ h.unloaded

theorem loading_nil (mishaps : Bytes → Mishap) : Loading mishaps D [] ⟨.new, ∅⟩ := by
  constructor <;> simp [DataNode.new]

theorem Loading.loadPartition {mishaps : Bytes → Mishap} (hl : Loading mishaps D names h)
    {file idxFile : File} (hnew : pid ∉ names) (hlen : pid.length = 36)
    (hkept : Partition.Kept file idxFile (D pid)) {order : List IdxBlock}
    (horder : Partition.LoadOrder (Partition.newPartition file idxFile).idxFile order) :
    Loading mishaps D (pid :: names) (h.loadPartition (mishaps pid) order pid file idxFile) := by
  have hparts : pid ∉ h.node.parts := fun hmem => by
    obtain ⟨s, hs⟩ := exists_lookup hmem
    exact hnew (hl.loaded pid s hs).1
  unfold Host.loadPartition
  dsimp only
  rw [if_neg (not_not.mpr hlen)]
  rcases hm : mishaps pid with _ | n
  · obtain ⟨q, hload, hholds, hidx, hopen, hsize⟩ := hkept.opens horder
    rw [hload]
    refine ⟨hl.up, hl.calls, fun i s hi => ?_, fun i f hi => ?_, fun i hi => ?_⟩
    · rcases DataNode.lookup_setSink hi with ⟨rfl, rfl⟩ | ⟨-, hi⟩
      · exact ⟨List.mem_cons_self, rfl, hlen, between_loaded hholds hidx hopen hsize⟩
      · exact ⟨List.mem_cons_of_mem _ (hl.loaded i s hi).1, (hl.loaded i s hi).2⟩
    · obtain ⟨hmem, hlen', hnot, hk⟩ := hl.unloaded i f hi
      refine ⟨List.mem_cons_of_mem _ hmem, hlen', fun hi' => ?_, hk⟩
      rcases (AList.mem_insert _).mp hi' with rfl | hi'
      · exact hnew hmem
      · exact hnot hi'
    · rcases List.mem_cons.mp hi with rfl | hi
      · exact .inl ((AList.mem_insert _).mpr (.inl rfl))
      · exact (hl.found i hi).imp_left fun hi => (AList.mem_insert _).mpr (.inr hi)
  · have hload : (Partition.newPartition file idxFile).loadHeader (some n) order = .error .io := rfl
    rw [hload]
    refine ⟨hl.up, hl.calls, fun i s hi => ?_, fun i f hi => ?_, fun i hi => ?_⟩
    · exact ⟨List.mem_cons_of_mem _ (hl.loaded i s hi).1, (hl.loaded i s hi).2⟩
    · by_cases hne : i = pid
      · subst hne
        dsimp only at hi
        rw [AList.lookup_insert] at hi
        obtain rfl := Option.some.inj hi
        exact ⟨List.mem_cons_self, hlen, hparts, hkept.truncate⟩
      · dsimp only at hi
        rw [AList.lookup_insert_ne hne] at hi
        exact ⟨List.mem_cons_of_mem _ (hl.unloaded i f hi).1, (hl.unloaded i f hi).2⟩
    · rcases List.mem_cons.mp hi with rfl | hi
      · exact .inr ⟨by rw [hm]; simp, (AList.mem_insert _).mpr (.inl rfl)⟩
      · exact (hl.found i hi).imp_right fun hi => ⟨hi.1, (AList.mem_insert _).mpr (.inr hi.2)⟩

theorem Loading.files {mishaps : Bytes → Mishap} {orders : Bytes → List IdxBlock} :
    ∀ (fs : List (Bytes × File × File)) {names : List Bytes} {h : Host},
      Loading mishaps D names h → (fs.map Prod.fst).Nodup → (∀ f ∈ fs, f.1 ∉ names) →
      (∀ f ∈ fs, f.1.length = 36 ∧ Partition.Kept f.2.1 f.2.2 (D f.1)) →
      (∀ f ∈ fs, Partition.LoadOrder (Partition.newPartition f.2.1 f.2.2).idxFile (orders f.1)) →
        Loading mishaps D ((fs.map Prod.fst).reverse ++ names) (fs.foldl (fun h f =>
          h.loadPartition (mishaps f.1) (orders f.1) f.1 f.2.1 f.2.2) h)
  | [], _, _, hl, _, _, _, _ => hl
  | f :: fs, names, h, hl, hnd, hnew, hkept, horders => by
    rw [List.map_cons, List.nodup_cons] at hnd
    have hf := hkept f List.mem_cons_self
    have hstep := hl.loadPartition (hnew f List.mem_cons_self) hf.1 hf.2
      (horders f List.mem_cons_self)
    rw [List.foldl_cons, List.map_cons, List.reverse_cons, List.append_assoc]
    refine hstep.files fs hnd.2 (fun g hg hmem => ?_)
      (fun g hg => hkept g (List.mem_cons_of_mem _ hg))
      fun g hg => horders g (List.mem_cons_of_mem _ hg)
    rcases List.mem_cons.mp hmem with he | hmem
    · exact hnd.1 (he ▸ List.mem_map_of_mem hg)
    · exact hnew g (List.mem_cons_of_mem _ hg) hmem

theorem mem_files {f : Bytes × File × File} : f ∈ h.files ↔
    (∃ s, h.node.parts.lookup f.1 = some s ∧ (s.part.file, s.part.idxFile) = f.2)
      ∨ h.unloaded.lookup f.1 = some f.2 := by
  obtain ⟨pid, file⟩ := f
  simp only [Host.files, List.mem_append, List.mem_map, Sigma.exists, Prod.mk.injEq]
  refine or_congr ⟨?_, ?_⟩ ⟨?_, ?_⟩
  · rintro ⟨q, s, hs, rfl, rfl⟩
    exact ⟨s, AList.mem_lookup_iff.mpr hs, rfl⟩
  · rintro ⟨s, hs, rfl⟩
    exact ⟨pid, s, AList.mem_lookup_iff.mp hs, rfl, rfl⟩
  · rintro ⟨q, f, hf, rfl, rfl⟩
    exact AList.mem_lookup_iff.mpr hf
  · exact fun hf => ⟨pid, file, AList.mem_lookup_iff.mp hf, rfl, rfl⟩

theorem mem_names : pid ∈ h.files.map Prod.fst ↔ pid ∈ h.node.parts ∨ pid ∈ h.unloaded := by
  rw [← AList.lookup_isSome, ← AList.lookup_isSome, Option.isSome_iff_exists,
    Option.isSome_iff_exists, List.mem_map]
  constructor
  · rintro ⟨f, hf, rfl⟩
    exact (mem_files.mp hf).imp (fun ⟨s, hs, _⟩ => ⟨s, hs⟩) fun hf => ⟨_, hf⟩
  · rintro (⟨s, hs⟩ | ⟨f, hf⟩)
    · exact ⟨(pid, s.part.file, s.part.idxFile), mem_files.mpr (.inl ⟨s, hs, rfl⟩), rfl⟩
    · exact ⟨(pid, f), mem_files.mpr (.inr hf), rfl⟩

theorem Lives.nodup_names (hl : Lives h M) : (h.files.map Prod.fst).Nodup := by
  have hnames : h.files.map Prod.fst = h.node.parts.keys ++ h.unloaded.keys := by
    rw [Host.files, List.map_append, List.map_map, List.map_map]
    rfl
  rw [hnames, List.nodup_append]
  refine ⟨AList.keys_nodup _, AList.keys_nodup _, ?_⟩
  rintro pid hpid _ hpid' rfl
  exact hl.not_unloaded (AList.mem_keys.mpr hpid) (AList.mem_keys.mpr hpid')

theorem Lives.kept (hl : Lives h M) {f : Bytes × File × File} (hf : f ∈ h.files) :
    f.1.length = 36 ∧ Partition.Kept f.2.1 f.2.2 (M f.1).disk := by
  rcases mem_files.mp hf with ⟨s, hs, hfiles⟩ | hf
  · obtain ⟨hlen, hbetween⟩ := hl.loaded f.1 s hs
    rw [← hfiles]
    exact ⟨hlen, hbetween.kept⟩
  · obtain ⟨hlen, -, hkept⟩ := hl.unloaded f.1 f.2 hf
    exact ⟨hlen, hkept⟩

theorem Loading.lives {mishaps : Bytes → Mishap} (hl : Loading mishaps D names h)
    (hrest : ∀ pid, pid ∉ names → D pid = fun _ => none) : Lives h fun pid => ⟨D pid, D pid⟩ where
  up := hl.up
  small := by simp [hl.calls]
  loaded pid s hs := (hl.loaded pid s hs).2.2
  unloaded pid f hf := (hl.unloaded pid f hf).2
  absent pid hpid hpid' := by
    rw [hrest pid fun hmem => (hl.found pid hmem).elim hpid fun h => hpid' h.2]
    rfl

theorem Lives.restart (hl : Lives h M) {mishaps : Bytes → Mishap} {orders : Bytes → List IdxBlock}
    {rand : Option Util.UUID} (hstep : h.restart mishaps orders rand = some h') :
    Lives h' ((Life.restart mishaps orders rand).apply M)
      ∧ (∀ pid s, h'.node.parts.lookup pid = some s → s.queue = [])
      ∧ ∀ pid, pid ∈ h.node.parts ∨ pid ∈ h.unloaded → mishaps pid = none →
        pid ∈ h'.node.parts := by
  unfold Host.restart at hstep
  split_ifs at hstep with horders
  have hload := Loading.files (D := fun pid => (M pid).disk) h.files (loading_nil mishaps)
    hl.nodup_names (by simp) (fun f hf => hl.kept hf) horders
  rw [List.append_nil] at hload
  set h₁ : Host := h.files.foldl (fun h f =>
    h.loadPartition (mishaps f.1) (orders f.1) f.1 f.2.1 f.2.2) ⟨.new, ∅⟩
  have hlives := hload.lives fun pid hpid => by
    rw [List.mem_reverse, mem_names, not_or] at hpid
    rw [hl.absent pid hpid.1 hpid.2]
    rfl
  have hfound : ∀ pid, pid ∈ h.node.parts ∨ pid ∈ h.unloaded → mishaps pid = none →
      pid ∈ h₁.node.parts := fun pid hpid hnone =>
    (hload.found pid (List.mem_reverse.mpr (mem_names.mpr hpid))).resolve_right fun h => h.1 hnone
  dsimp only at hstep
  split_ifs at hstep with hempty hname
  · obtain rfl := Option.some.inj hstep
    have hnot : Util.newID rand ∉ h₁.node.parts := by
      rw [AList.mem_keys, AList.keys, hempty]
      exact List.not_mem_nil
    refine ⟨hlives.create (Util.length_newID rand) hnot hname, fun pid s hs => ?_,
      fun pid hpid hnone => (AList.mem_insert _).mpr (.inr (hfound pid hpid hnone))⟩
    rcases DataNode.lookup_setSink hs with ⟨-, rfl⟩ | ⟨-, hs⟩
    · rfl
    · exact (hload.loaded pid s hs).2.1
  · obtain rfl := Option.some.inj hstep
    exact ⟨hlives, fun pid s hs => (hload.loaded pid s hs).2.1, hfound⟩

/-- The headers of the index file, in the order they are in there. -/
def headers (file idxFile : File) : List IdxBlock :=
  (load (Partition.newPartition file idxFile).idxFile []).entries.map fun e => e.2

theorem Lives.starts (hl : Lives h M) (rand : Option Util.UUID) :
    ∃ orders h', h.restart (fun _ => none) orders rand = some h' := by
  let orders (pid : Bytes) : List IdxBlock :=
    match h.node.parts.lookup pid, h.unloaded.lookup pid with
    | some s, _ => headers s.part.file s.part.idxFile
    | none, some f => headers f.1 f.2
    | none, none => []
  have horders : ∀ f ∈ h.files,
      Partition.LoadOrder (Partition.newPartition f.2.1 f.2.2).idxFile (orders f.1) := by
    intro f hf
    have horder : orders f.1 = headers f.2.1 f.2.2 := by
      rcases mem_files.mp hf with ⟨s, hs, hfiles⟩ | hf
      · simp only [orders, hs, ← hfiles]
      · have hnone := AList.lookup_eq_none.mpr (hl.unloaded f.1 f.2 hf).2.1
        simp only [orders, hnone, hf]
    rw [horder]
    exact List.Perm.refl _
  have hload := Loading.files (D := fun pid => (M pid).disk) h.files (loading_nil fun _ => none)
    hl.nodup_names (by simp) (fun f hf => hl.kept hf) horders
  refine ⟨orders, ?_⟩
  rw [Host.restart, if_pos horders]
  dsimp only
  split_ifs with hempty hname
  · obtain ⟨f, hf⟩ := exists_lookup hname
    obtain ⟨hmem, -, hnot, -⟩ := hload.unloaded _ f hf
    exact ((hload.found _ hmem).elim hnot fun h => h.1 rfl).elim
  · exact ⟨_, rfl⟩
  · exact ⟨_, rfl⟩

theorem Lives.step (hl : Lives h M) {l : Life} (hin : l.InTurn h) (hstep : l.step h = some h') :
    Lives h' (l.apply M) := by
  cases l with
  | node l =>
    obtain ⟨n, hn, rfl⟩ := Option.map_eq_some_iff.mp hstep
    exact hl.node hin hn
  | restart mishaps orders rand => exact (hl.restart hstep).1

instance Move.decidableInTurn : ∀ (l : Move) (s : Sink), Decidable (l.InTurn s)
  | .write .., _ => inferInstanceAs (Decidable (_ ∧ _ ∧ ∀ b ∈ _, _))
  | .remove _, _ => inferInstanceAs (Decidable (_ ∧ _ ∧ _ ∧ ∀ id ∈ _, _))
  | .index .., _ | .erase .., _ => inferInstanceAs (Decidable (_ = []))
  | .put _, _ | .tick, _ | .drain, _ | .check, _ | .choose _, _ | .look _, _ | .clearFull _, _ =>
    isTrue trivial

instance Life.decidableInTurn : ∀ (l : Life) (h : Host), Decidable (l.InTurn h)
  | .node (.part ..), _ => inferInstanceAs (Decidable (∀ s ∈ _, _))
  | .node (.create _), _ | .node (.look _ (some _)), _ => inferInstanceAs (Decidable (_ ∧ _))
  | .node (.assign ..), _ => inferInstanceAs (Decidable (∀ b ∈ _, _))
  | .node (.look _ none), _ | .node (.put _), _ | .node (.wait _), _ | .node (.expire _), _
  | .node (.finish _), _ | .restart .., _ => isTrue trivial

def idOf (x : UInt8) : Bytes := List.replicate 36 x

/-- A block is uploaded and written with its header, then another one without it, and a third is
still in the queue. -/
def threeBlocks : List Life :=
  [.node (.create (idOf 7)), .node (.assign [idOf 7] [⟨idOf 1, 0, 1, [10]⟩]),
    .node (.look 0 none), .node (.look 0 none), .node (.put 0), .node (.finish 0),
    .node (.part (idOf 7) .tick), .node (.part (idOf 7) .drain), .node (.part (idOf 7) .drain),
    .node (.part (idOf 7) .check), .node (.part (idOf 7) (.write [(idOf 1, [10])] [])),
    .node (.part (idOf 7) (.index [(0, ⟨idOf 1, 1, 0⟩)] [])),
    .node (.assign [idOf 7] [⟨idOf 2, 0, 1, [20]⟩, ⟨idOf 3, 1, 1, [30]⟩]),
    .node (.look 1 none), .node (.look 1 none), .node (.put 1),
    .node (.part (idOf 7) .tick), .node (.part (idOf 7) .drain), .node (.part (idOf 7) .drain),
    .node (.put 1), .node (.part (idOf 7) .check),
    .node (.part (idOf 7) (.write [(idOf 2, [20])] []))]

end Lives

end Rhosus.Data

import Rhosus.Data.Partition
import Rhosus.Lib.Runs
import Mathlib.Logic.Function.Basic

/-!
# The upload of a file

`HandlePutFile` reads the body a block at a time, each into a buffer from a pool. A full block is
handed to a goroutine, which makes a block over the bytes of the buffer, puts the buffer back, and
counts up; the last one, shorter than the others, is copied by the loop itself. The loop does not
wait for the goroutines when it leaves, and a buffer that is back in the pool can be filled anew
while a block is still over its bytes. Each round of the loop is a step here, and so is each
goroutine; the other requests fill buffers of the pool as well. The blocks are the body's, in its
order, if the goroutines run in their order, all of them before the last round, and no buffer that a
block is over is filled before the blocks are handed over (`upload_cut`).
-/

namespace Rhosus.Registry

/-- `blockSize` of `HandlePutFile`. -/
def blockSize : ℕ := 2 <<< 20

/-- The bytes of a block: a copy, or the first ones of a buffer. -/
inductive PieceData
  | own (data : Bytes)
  | view (cell len : ℕ)

def PieceData.read (cells : ℕ → Bytes) : PieceData → Bytes
  | .own data => data
  | .view cell len => (cells cell).take len

def PieceData.isOver (cell : ℕ) : PieceData → Bool
  | .own _ => false
  | .view cell' _ => cell' = cell

structure Piece where
  id : Bytes
  index : ℕ
  len : ℕ
  data : PieceData

def Piece.block (cells : ℕ → Bytes) (p : Piece) : Data.Block :=
  ⟨p.id, p.index, p.len, p.data.read cells⟩

/-- A call of `HandlePutFile`. Its body is held in memory, so that no number here overflows. -/
structure Upload where
  /-- What is still to be read. -/
  body : Bytes
  counter : ℕ
  totalFileSize : ℕ
  dataToTransfer : List Piece
  /-- The goroutines that have not yet run, each with its buffer and the size of its data. -/
  pending : List (ℕ × ℕ)
  /-- The bytes of the buffers. -/
  cells : ℕ → Bytes
  /-- The loop has not been left. -/
  reading : Bool
  /-- The blocks as they were handed to `TransportAndRegisterBlocks`. -/
  handed : Option (List Data.Block)
  /-- `file.FileSize`, once it is set. -/
  fileSize : Option ℕ

inductive UploadLabel
  /-- A round of the loop, with a buffer that is in the pool or new. -/
  | iterate (cell : ℕ) (uid : Bytes)
  /-- The goroutine `k` of those pending runs. -/
  | run (k : ℕ) (uid : Bytes)
  /-- Another request fills a buffer. -/
  | other (cell : ℕ) (data : Bytes)
  | handOver
  | register

namespace Upload

def start (body : Bytes) (cells : ℕ → Bytes) : Upload :=
  ⟨body, 1, 0, [], [], cells, true, none, none⟩

/-- `Reset`, and then `ReadFrom`: what was behind the new bytes stays. -/
def refill (cell : ℕ) (data : Bytes) (u : Upload) : Upload :=
  { u with cells := Function.update u.cells cell (data ++ (u.cells cell).drop data.length) }

/-- A round of the loop, when the data has been read. -/
def round (cell : ℕ) (uid data : Bytes) (u : Upload) : Upload :=
  if data.length = 0 then { u with reading := false }
  else if data.length < blockSize then
    { u with
      dataToTransfer := u.dataToTransfer ++ [⟨uid, u.counter, data.length, .own data⟩]
      totalFileSize := u.totalFileSize + data.length
      reading := false }
  else { u with pending := u.pending ++ [(cell, data.length)] }

def step : UploadLabel → Upload → Option Upload
  | .iterate cell uid, u =>
    -- four buffers at most are in use, and those of the goroutines are not in the pool
    if u.reading ∧ u.pending.length < 4 ∧ cell ∉ u.pending.map Prod.fst then
      let data := u.body.take blockSize
      some (round cell uid data { u.refill cell data with body := u.body.drop blockSize })
    else none
  | .run k uid, u =>
    match u.pending[k]? with
    | none => none
    | some (cell, dataSize) =>
      some
        { u with
          dataToTransfer :=
            u.dataToTransfer ++ [⟨uid, u.counter, dataSize, .view cell dataSize⟩]
          totalFileSize := u.totalFileSize + dataSize
          counter := u.counter + 1
          pending := u.pending.eraseIdx k }
  | .other cell data, u =>
    if cell ∉ u.pending.map Prod.fst then some (u.refill cell data) else none
  | .handOver, u =>
    if u.reading = false ∧ u.handed = none then
      some { u with handed := some (u.dataToTransfer.map (Piece.block u.cells)) }
    else none
  | .register, u =>
    if u.handed.isSome ∧ u.fileSize = none then some { u with fileSize := some u.totalFileSize }
    else none

/-- No block is over the bytes of this buffer. -/
def Free (cell : ℕ) (u : Upload) : Prop := ∀ p ∈ u.dataToTransfer, p.data.isOver cell = false

instance (cell : ℕ) (u : Upload) : Decidable (u.Free cell) :=
  inferInstanceAs (Decidable (∀ p ∈ u.dataToTransfer, _))

/-- The goroutines run in the order they were started in, all of them before a round that reads less
than a full block; and before the blocks are handed over, no buffer is filled that one is over. -/
def InOrder (l : UploadLabel) (u : Upload) : Prop :=
  match l with
  | .iterate cell _ => (u.body.length < blockSize → u.pending = []) ∧ u.Free cell
  | .run k _ => k = 0
  | .other cell _ => u.handed = none → u.Free cell
  | .handOver | .register => True

instance (l : UploadLabel) (u : Upload) : Decidable (InOrder l u) := by
  unfold InOrder
  split <;> infer_instance

end Upload

/-- The blocks have the indexes from 1 on, each once, and none is longer than a block can be; in the
order of their indexes they make up the body. -/
def CutFrom (body : Bytes) (blocks : List Data.Block) : Prop :=
  ∃ sorted : List Data.Block, sorted.Perm blocks
    ∧ sorted.map Data.Block.index = List.range' 1 blocks.length
    ∧ (∀ b ∈ sorted, b.data.length ≤ blockSize ∧ b.len = b.data.length)
    ∧ (sorted.map Data.Block.data).flatten = body

/-- What holds before the blocks are handed over. -/
structure Upload.Cutting (whole : Bytes) (u : Upload) : Prop where
  index : u.dataToTransfer.map Piece.index = List.range' 1 u.dataToTransfer.length
  len : ∀ p ∈ u.dataToTransfer, p.len = (p.data.read u.cells).length ∧ p.len ≤ blockSize
  size : u.totalFileSize = ((u.dataToTransfer.map (·.data.read u.cells)).flatten).length
  pending : ∀ x ∈ u.pending, x.2 = ((u.cells x.1).take x.2).length ∧ x.2 ≤ blockSize
  whole : (u.dataToTransfer.map (·.data.read u.cells)).flatten
    ++ ((u.pending.map fun x => (u.cells x.1).take x.2).flatten ++ u.body) = whole
  loop : if u.reading then u.counter = u.dataToTransfer.length + 1 else u.pending = [] ∧ u.body = []

namespace Upload.Cutting

variable {whole : Bytes} {u : Upload} {cell : ℕ} {uid : Bytes}

theorem refill (h : u.Cutting whole) (hfree : u.Free cell) (hcell : cell ∉ u.pending.map Prod.fst)
    (data : Bytes) : (u.refill cell data).Cutting whole := by
  have hread : ∀ p ∈ u.dataToTransfer,
      p.data.read (u.refill cell data).cells = p.data.read u.cells := by
    intro p hp
    have hover := hfree p hp
    rcases hd : p.data with d | ⟨c, n⟩
    · rfl
    · rw [hd] at hover
      have hne : c ≠ cell := by simpa [PieceData.isOver] using hover
      simp [PieceData.read, Upload.refill, Function.update_of_ne hne]
  have hpending : ∀ x ∈ u.pending, (u.refill cell data).cells x.1 = u.cells x.1 := by
    intro x hx
    refine Function.update_of_ne (fun he => hcell ?_) _ _
    exact he ▸ List.mem_map_of_mem hx
  have hmap : (u.dataToTransfer.map (·.data.read (u.refill cell data).cells))
      = u.dataToTransfer.map (·.data.read u.cells) := List.map_congr_left hread
  have hmap' : (u.pending.map fun x => ((u.refill cell data).cells x.1).take x.2)
      = u.pending.map fun x => (u.cells x.1).take x.2 :=
    List.map_congr_left fun x hx => by rw [hpending x hx]
  refine ⟨h.index, fun p hp => ?_, ?_, fun x hx => ?_, ?_, h.loop⟩
  · rw [hread p hp]
    exact h.len p hp
  · change u.totalFileSize = ((u.dataToTransfer.map _).flatten).length
    rw [hmap]
    exact h.size
  · rw [hpending x hx]
    exact h.pending x hx
  · change (u.dataToTransfer.map _).flatten ++ ((u.pending.map _).flatten ++ u.body) = whole
    rw [hmap, hmap']
    exact h.whole

theorem cells_refill (u : Upload) (cell : ℕ) (data : Bytes) :
    ((u.refill cell data).cells cell).take data.length = data := by
  simp [Upload.refill]

theorem leave (h : u.Cutting whole) (hpending : u.pending = []) (hbody : u.body = []) :
    Cutting whole { u with body := [], reading := false } where
  index := h.index
  len := h.len
  size := h.size
  pending := h.pending
  whole := by
    rw [← h.whole, hbody]
  loop := ⟨hpending, rfl⟩

theorem spawn (h : u.Cutting whole) (hreading : u.reading = true) {n : ℕ} {body : Bytes}
    (hlen : n = ((u.cells cell).take n).length) (hn : n ≤ blockSize)
    (hbody : (u.cells cell).take n ++ body = u.body) :
    Cutting whole { u with pending := u.pending ++ [(cell, n)], body } where
  index := h.index
  len := h.len
  size := h.size
  pending x hx := by
    rcases List.mem_append.mp hx with hx | hx
    · exact h.pending x hx
    · rw [List.mem_singleton.mp hx]
      exact ⟨hlen, hn⟩
  whole := by
    rw [← h.whole, ← hbody]
    simp only [List.map_append, List.flatten_append, List.map_singleton, List.flatten_singleton,
      List.append_assoc]
  loop := by
    have := h.loop
    rw [if_pos hreading] at this ⊢
    exact this

theorem add (h : u.Cutting whole) (hreading : u.reading = true) {p : Piece}
    (hindex : p.index = u.counter) (hlen : p.len = (p.data.read u.cells).length)
    (hsize : p.len ≤ blockSize) {pending : List (ℕ × ℕ)} {body : Bytes}
    (hpending : ∀ x ∈ pending, x ∈ u.pending)
    (hrest : p.data.read u.cells ++ ((pending.map fun x => (u.cells x.1).take x.2).flatten ++ body)
      = (u.pending.map fun x => (u.cells x.1).take x.2).flatten ++ u.body)
    {counter : ℕ} {reading : Bool}
    (hloop : if reading then counter = u.counter + 1 else pending = [] ∧ body = []) :
    Cutting whole { u with
      dataToTransfer := u.dataToTransfer ++ [p]
      totalFileSize := u.totalFileSize + p.len
      counter, pending, body, reading } := by
  have hcounter : u.counter = u.dataToTransfer.length + 1 := by
    have := h.loop
    rwa [if_pos hreading] at this
  refine ⟨?_, fun q hq => ?_, ?_, fun x hx => h.pending x (hpending x hx), ?_, ?_⟩
  · rw [List.map_append, h.index, List.length_append, List.length_singleton, List.range'_concat,
      List.map_singleton, hindex, hcounter, Nat.one_mul, Nat.add_comm 1]
  · rcases List.mem_append.mp hq with hq | hq
    · exact h.len q hq
    · rw [List.mem_singleton.mp hq]
      exact ⟨hlen, hsize⟩
  · simp only [List.map_append, List.flatten_append, List.length_append, List.map_singleton,
      List.flatten_singleton, h.size, hlen]
  · rw [← h.whole, ← hrest]
    simp only [List.map_append, List.flatten_append, List.map_singleton, List.flatten_singleton,
      List.append_assoc]
  · cases reading with
    | true => simpa [hcounter] using hloop
    | false => exact hloop

theorem iterate (h : u.Cutting whole) (hreading : u.reading = true)
    (hcell : cell ∉ u.pending.map Prod.fst) (hlast : u.body.length < blockSize → u.pending = [])
    (hfree : u.Free cell) : Cutting whole (Upload.round cell uid (u.body.take blockSize)
      { u.refill cell (u.body.take blockSize) with body := u.body.drop blockSize }) := by
  have hpos : 0 < blockSize := by decide
  have hlen : (u.body.take blockSize).length = min blockSize u.body.length := List.length_take ..
  have hsplit : u.body.take blockSize ++ u.body.drop blockSize = u.body := List.take_append_drop ..
  have h₁ := h.refill hfree hcell (u.body.take blockSize)
  have hdata := cells_refill u cell (u.body.take blockSize)
  unfold Upload.round
  split_ifs with hzero hsmall
  · have hnil : u.body = [] := List.length_eq_zero_iff.mp (by omega)
    rw [hnil] at h₁ ⊢
    exact h₁.leave (hlast (by rw [hnil]; exact hpos)) hnil
  · have hpending := hlast (by omega)
    have hdrop : u.body.drop blockSize = [] := List.drop_eq_nil_of_le (by omega)
    refine h₁.add (p := ⟨uid, u.counter, _, .own (u.body.take blockSize)⟩) hreading rfl rfl
      hsmall.le (fun _ hx => hx) ?_ ?_
    · change _ ++ ((u.pending.map _).flatten ++ _) = (u.pending.map _).flatten ++ u.body
      rw [hpending]
      exact hsplit
    · exact ⟨hpending, hdrop⟩
  · exact h₁.spawn hreading (by rw [hdata]) (by omega) (by rw [hdata]; exact hsplit)

theorem run (h : u.Cutting whole) {x : ℕ × ℕ} (hx : u.pending[0]? = some x) :
    Cutting whole { u with
      dataToTransfer := u.dataToTransfer ++ [⟨uid, u.counter, x.2, .view x.1 x.2⟩]
      totalFileSize := u.totalFileSize + x.2
      counter := u.counter + 1
      pending := u.pending.eraseIdx 0 } := by
  obtain ⟨rest, hrest⟩ : ∃ rest, u.pending = x :: rest := by
    rcases hp : u.pending with _ | ⟨y, rest⟩ <;> rw [hp] at hx
    · cases hx
    · exact ⟨rest, by rw [Option.some.inj hx]⟩
  have hreading : u.reading = true := by
    by_contra hr
    have hloop := h.loop
    rw [if_neg hr, hrest] at hloop
    cases hloop.1
  obtain ⟨hlen, hsize⟩ := h.pending x (by rw [hrest]; exact List.mem_cons_self)
  rw [hrest, List.eraseIdx_cons_zero]
  refine h.add (p := ⟨uid, u.counter, x.2, .view x.1 x.2⟩) hreading rfl hlen hsize
    (fun y hy => ?_) ?_ ?_
  · rw [hrest]
    exact List.mem_cons_of_mem _ hy
  · rw [hrest]
    simp only [List.map_cons, List.flatten_cons, List.append_assoc, PieceData.read]
  · rw [if_pos hreading]

/-- Once the loop has been left, the blocks are the body's. -/
theorem cutFrom (h : u.Cutting whole) (hreading : u.reading = false) :
    CutFrom whole (u.dataToTransfer.map (Piece.block u.cells)) ∧ u.pending = []
      ∧ u.totalFileSize = whole.length := by
  have hloop := h.loop
  rw [hreading, if_neg Bool.false_ne_true] at hloop
  have hwhole := h.whole
  rw [hloop.1, hloop.2, List.map_nil, List.flatten_nil, List.append_nil, List.append_nil] at hwhole
  refine ⟨⟨_, .refl _, ?_, ?_, ?_⟩, hloop.1, ?_⟩
  · rw [List.map_map, List.length_map]
    exact h.index
  · intro b hb
    obtain ⟨p, hp, rfl⟩ := List.mem_map.mp hb
    obtain ⟨hlen, hsize⟩ := h.len p hp
    exact ⟨hlen ▸ hsize, hlen⟩
  · rw [List.map_map]
    exact hwhole
  · rw [h.size, hwhole]

end Upload.Cutting

/-- What holds at every moment. -/
def Upload.Sent (whole : Bytes) (u : Upload) : Prop :=
  match u.handed with
  | none => u.Cutting whole ∧ u.fileSize = none
  | some blocks => CutFrom whole blocks ∧ u.reading = false ∧ u.pending = []
    ∧ u.totalFileSize = whole.length ∧ ∀ n ∈ u.fileSize, n = whole.length

namespace Upload.Sent

variable {whole : Bytes} {u u' : Upload}

theorem step (h : u.Sent whole) {l : UploadLabel} (hl : Upload.InOrder l u)
    (hstep : Upload.step l u = some u') : u'.Sent whole := by
  unfold Upload.Sent at h
  rcases hh : u.handed with _ | blocks <;> rw [hh] at h <;> dsimp only at h
  · -- the blocks are not yet handed over
    obtain ⟨h, hfile⟩ := h
    have hsent : ∀ {u' : Upload}, u'.handed = none → u'.fileSize = none → u'.Cutting whole →
        u'.Sent whole := fun hh hf hc => by
      rw [Upload.Sent, hh]
      exact ⟨hc, hf⟩
    cases l with
    | iterate cell uid =>
      rw [Upload.step] at hstep
      split_ifs at hstep with hcond
      obtain rfl := Option.some.inj hstep
      obtain ⟨hreading, -, hcell⟩ := hcond
      refine hsent ?_ ?_ (h.iterate hreading hcell hl.1 hl.2)
      · unfold Upload.round
        split_ifs <;> exact hh
      · unfold Upload.round
        split_ifs <;> exact hfile
    | run k uid =>
      obtain rfl : k = 0 := hl
      rw [Upload.step] at hstep
      rcases hx : u.pending[0]? with _ | x <;> rw [hx] at hstep
      · cases hstep
      · obtain rfl := Option.some.inj hstep
        exact hsent hh hfile (h.run hx)
    | other cell data =>
      rw [Upload.step] at hstep
      split_ifs at hstep with hcell
      obtain rfl := Option.some.inj hstep
      exact hsent hh hfile (h.refill (hl hh) hcell data)
    | handOver =>
      rw [Upload.step] at hstep
      split_ifs at hstep with hcond
      obtain rfl := Option.some.inj hstep
      obtain ⟨hcut, hpending, hsize⟩ := h.cutFrom hcond.1
      exact ⟨hcut, hcond.1, hpending, hsize, by rw [hfile]; exact fun _ => (nomatch ·)⟩
    | register =>
      rw [Upload.step, hh] at hstep
      cases hstep
  · -- the loop has been left, and no goroutine is pending
    obtain ⟨hcut, hreading, hpending, hsize, hfile⟩ := h
    cases l with
    | iterate cell uid =>
      rw [Upload.step, if_neg fun hcond => by rw [hreading] at hcond; cases hcond.1] at hstep
      cases hstep
    | run k uid =>
      rw [Upload.step, hpending] at hstep
      cases hstep
    | other cell data =>
      rw [Upload.step] at hstep
      split_ifs at hstep
      obtain rfl := Option.some.inj hstep
      rw [Upload.Sent, show (u.refill cell data).handed = _ from hh]
      exact ⟨hcut, hreading, hpending, hsize, hfile⟩
    | handOver =>
      rw [Upload.step, if_neg fun hcond => by rw [hh] at hcond; cases hcond.2] at hstep
      cases hstep
    | register =>
      rw [Upload.step] at hstep
      split_ifs at hstep
      obtain rfl := Option.some.inj hstep
      rw [Upload.Sent, hh]
      exact ⟨hcut, hreading, hpending, hsize, fun n hn => (Option.some.inj hn).symm.trans hsize⟩

end Upload.Sent

/-- An upload in any order of the rounds of its loop, its goroutines and the other requests: if the
goroutines run in their order, all of them before a round that reads less than a full block, and no
buffer that a block is over is filled before the blocks are handed over, then the blocks that are
handed over are the body's, and the size of the file is the body's length. -/
theorem upload_cut (body : Bytes) (cells : ℕ → Bytes) (ls : List UploadLabel) {u : Upload}
    (hls : Along Upload.step Upload.InOrder ls (.start body cells))
    (hrun : runSteps Upload.step ls (.start body cells) = some u) :
    (∀ blocks ∈ u.handed, CutFrom body blocks) ∧ ∀ n ∈ u.fileSize, n = body.length := by
  have hstart : (Upload.start body cells).Sent body :=
    ⟨⟨rfl, by simp [Upload.start], rfl, by simp [Upload.start], rfl, rfl⟩, rfl⟩
  have h := Along.invariant (fun _ _ _ h hl hstep => Upload.Sent.step h hl hstep) ls hstart hls hrun
  unfold Upload.Sent at h
  rcases hh : u.handed with _ | blocks <;> rw [hh] at h
  · rw [h.2]
    exact ⟨fun _ => (nomatch ·), fun _ => (nomatch ·)⟩
  · exact ⟨fun _ hb => Option.some.inj hb ▸ h.1, h.2.2.2.2⟩

section Schedules

variable (full rest : Bytes)

/-- The goroutine runs before the second round, which gets another buffer. -/
def inTurn : List UploadLabel :=
  [.iterate 0 [1], .run 0 [2], .iterate 1 [3], .handOver, .register]

/-- The loop is left before the goroutine has run. -/
def early : List UploadLabel := [.iterate 0 [1], .iterate 1 [2], .handOver, .run 0 [3], .register]

theorem inTurn_run (hfull : full.length = blockSize) (hrest : rest.length < blockSize)
    (hne : rest ≠ []) : Along Upload.step Upload.InOrder inTurn (.start (full ++ rest) fun _ => [])
      ∧ ∃ u, runSteps Upload.step inTurn (.start (full ++ rest) fun _ => []) = some u
        ∧ u.handed = some [⟨[2], 1, blockSize, full⟩, ⟨[3], 2, rest.length, rest⟩]
        ∧ u.fileSize = some (blockSize + rest.length) := by
  have htake : full.take blockSize = full := List.take_of_length_le hfull.le
  have htake' : rest.take blockSize = rest := List.take_of_length_le hrest.le
  have hpos : blockSize ≠ 0 := by decide
  simp [inTurn, runSteps, Along, Upload.step, Upload.start, Upload.round, Upload.refill,
    Upload.InOrder, Upload.Free, PieceData.isOver, Piece.block, PieceData.read,
    List.take_left' hfull, List.drop_left' hfull, hfull, htake, htake', hrest, hne, hpos]

/-- A body of one full block: nothing is handed over, and the block is made when it is too late. -/
theorem early_run (hfull : full.length = blockSize) :
    ∃ u, runSteps Upload.step early (.start full fun _ => []) = some u ∧ u.handed = some []
      ∧ u.fileSize = some blockSize := by
  have htake : full.take blockSize = full := List.take_of_length_le hfull.le
  have hdrop : full.drop blockSize = [] := List.drop_eq_nil_of_le hfull.le
  have hpos : blockSize ≠ 0 := by decide
  simp [early, runSteps, Upload.step, Upload.start, Upload.round, Upload.refill, htake, hdrop,
    hfull, hpos]

/-- The upload of a full block and a byte. -/
theorem upload_cut_inTurn : ∃ u blocks,
    runSteps Upload.step inTurn (.start (List.replicate blockSize 0 ++ [1]) fun _ => []) = some u
      ∧ u.handed = some blocks ∧ CutFrom (List.replicate blockSize 0 ++ [1]) blocks := by
  obtain ⟨hls, u, hrun, hhanded, -⟩ := inTurn_run (List.replicate blockSize 0) [1]
    List.length_replicate (by decide) (List.cons_ne_nil _ _)
  exact ⟨u, _, hrun, hhanded, (upload_cut _ _ inTurn hls hrun).1 _ hhanded⟩

/-- Of a body of a full block nothing is handed over. -/
theorem not_cutFrom_early : ∃ u,
    runSteps Upload.step early (.start (List.replicate blockSize 0) fun _ => []) = some u
      ∧ ∃ blocks, u.handed = some blocks ∧ ¬ CutFrom (List.replicate blockSize 0) blocks := by
  obtain ⟨u, hrun, hhanded, -⟩ := early_run (List.replicate blockSize 0) List.length_replicate
  refine ⟨u, hrun, [], hhanded, ?_⟩
  rintro ⟨sorted, hperm, -, -, hbody⟩
  rw [List.perm_nil.mp hperm, List.map_nil, List.flatten_nil] at hbody
  have hlen := congrArg List.length hbody
  rw [List.length_replicate] at hlen
  exact absurd hlen (by decide)

end Schedules

end Rhosus.Registry

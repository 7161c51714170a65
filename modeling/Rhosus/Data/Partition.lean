import Rhosus.Lib.Files
import Rhosus.Lib.Uvarint
import Mathlib.Data.List.AList

/-!
# A partition of a data node

A partition is a file cut into slots, one for each block, a table of the blocks it holds, and a
file with a header for each slot. A block goes to the first slot that no block of the table is in.
What befalls the file operations of a call is given to it in turn, nothing where the list ends.
-/

namespace Rhosus.Data

def defaultBlockSize : ℕ := 2 <<< 20

def defaultPartitionSize : ℕ := 1 <<< 30

def partitionBlocksCount : ℕ := defaultPartitionSize / defaultBlockSize

def idxBlockSize : ℕ := 44

inductive Err
  | writeTimeout
  | partitionClosed
  | corruptWrite
  | shutdown
  | notFound
  | io
  deriving DecidableEq

/-- A block of a file on its way to a data node or back. -/
structure Block where
  id : Bytes
  index : ℕ
  len : ℕ
  data : Bytes
  deriving DecidableEq

structure BlockPlacementInfo where
  blockID : Bytes
  partitionID : Bytes
  success : Bool
  deriving DecidableEq

structure IdxBlock where
  id : Bytes
  size : ℕ
  offset : ℕ
  deriving DecidableEq

/-- The number of the slot that a header stands for. -/
def IdxBlock.slot (b : IdxBlock) : ℕ := b.offset / idxBlockSize

/-- The eight bytes of a `uint64`, the highest first. -/
def bigEndian (x : ℕ) : Bytes := (List.range 8).map fun i => UInt8.ofNat (x >>> (8 * (7 - i)))

def IdxBlock.marshal (b : IdxBlock) : Bytes := b.id ++ bigEndian b.size

structure Partition where
  file : File
  idxFile : File
  blocksMap : AList fun _ : Bytes => IdxBlock
  full : Bool
  closed : Bool

namespace Partition

/-- A partition with no blocks, over the two files. -/
def new (file idxFile : File) : Partition := ⟨file, idxFile, ∅, false, false⟩

variable (p : Partition)

def len : ℕ := p.blocksMap.keys.length

def isAvailable (blocks : ℕ) : Bool := !p.full && p.len + blocks ≤ partitionBlocksCount

def getAvailableBlocks : ℤ := partitionBlocksCount - p.len

def isBlockAllocated (n : ℕ) : Bool := p.blocksMap.entries.any fun e => e.2.slot = n

/-- The first slot that is free, and slot 0 where none is. -/
def firstFree : ℕ :=
  ((List.range partitionBlocksCount).find? fun n => !p.isBlockAllocated n).getD 0

/-- The number of bytes written, nothing on an error; the partition after it, and what is to befall
the next operations. -/
def writeBlockContents (block : ℕ) (data : Bytes) (io : List Mishap) :
    Option ℕ × Partition × List Mishap :=
  let offset := block * defaultBlockSize
  -- an empty buffer is written without a system call
  match if data = [] then none else io.headD none with
  | some n => (none, { p with file := p.file.writeAt (data.take n) offset }, io.tail)
  | none =>
    let p := { p with file := p.file.writeAt data offset }
    -- then `Sync`, on whose error the bytes do not count as written
    match io.tail.headD none with
    | some _ => (none, p, io.tail.tail)
    | none => (some data.length, p, io.tail.tail)

def enter (b : IdxBlock) : Partition :=
  let p := { p with blocksMap := p.blocksMap.insert b.id b }
  if partitionBlocksCount ≤ p.len then { p with full := true } else p

/-- The bytes of a slot, and none where the file ends before them. -/
def readBlockContents (blockN size : ℕ) (mishap : Mishap) : Option Bytes :=
  -- an empty buffer is read without a system call
  if size = 0 then some []
  else
    match mishap with
    | some _ => none
    | none => p.file.readAt size (blockN * defaultBlockSize)

theorem readBlockContents_none (blockN size : ℕ) :
    p.readBlockContents blockN size none = p.file.readAt size (blockN * defaultBlockSize) := by
  rcases size with _ | size
  · simp [readBlockContents, File.readAt]
  · rw [readBlockContents, if_neg (Nat.succ_ne_zero _)]

end Partition

/-- `WriteBlocks` on its way through a batch: the headers it is to write, the errors of the blocks
that failed, and what is to befall its file operations. -/
structure Writing where
  part : Partition
  idxs : AList fun _ : ℕ => IdxBlock
  errs : List (Bytes × Err)
  io : List Mishap

/-- One round of the loop of `WriteBlocks`. -/
def Writing.block (w : Writing) (id data : Bytes) : Writing :=
  let blockN := w.part.firstFree
  match w.part.writeBlockContents blockN data w.io with
  | (none, part, io) => { w with part, io, errs := w.errs ++ [(id, .io)] }
  | (some n, part, io) =>
    if data.length ≠ n then { w with part, io, errs := w.errs ++ [(id, .corruptWrite)] }
    else
      let idxBlock : IdxBlock := ⟨id, data.length, blockN * idxBlockSize⟩
      ⟨part.enter idxBlock, w.idxs.insert blockN idxBlock, w.errs, io⟩

namespace Partition

variable (p : Partition)

/-- `WriteBlocks` as far as it holds the lock, over a batch in the order it goes through it. -/
def writeBlocks (blocks : List (Bytes × Bytes)) (io : List Mishap) : Writing :=
  blocks.foldl (fun w b => w.block b.1 b.2) ⟨p, ∅, [], io⟩

/-- `IdxFile.Write`, over the headers in the order it goes through them. -/
def writeIdxs : List (ℕ × IdxBlock) → List Mishap → Partition → Except Err Unit × Partition
  | [], io, p =>
    -- the `Sync` at the end
    match io.headD none with
    | some _ => (.error .io, p)
    | none => (.ok (), p)
  | (blockN, b) :: bs, io, p =>
    match io.headD none with
    | some n =>
      (.error .io,
        { p with idxFile := p.idxFile.writeAt (b.marshal.take n) (blockN * idxBlockSize) })
    | none =>
      writeIdxs bs io.tail
        { p with idxFile := p.idxFile.writeAt b.marshal (blockN * idxBlockSize) }

/-- `RemoveBlocks` as far as it holds the lock: the slots whose headers are to be erased. An id that
is not stored has the empty header, which stands for slot 0. -/
def removeBlocks : List Bytes → Partition → List ℕ × Partition
  | [], p => ([], p)
  | id :: ids, p =>
    let slot := (p.blocksMap.lookup id).elim 0 IdxBlock.slot
    let (slots, p) := removeBlocks ids { p with blocksMap := p.blocksMap.erase id }
    (slot :: slots, p)

/-- `IdxFile.Erase`, a byte at a time, to the first that fails. -/
def eraseIdxs : List ℕ → List Mishap → Partition → Partition
  | [], _, p => p
  | pos :: ps, io, p =>
    match io.headD none with
    | some _ => p
    | none => eraseIdxs ps io.tail { p with idxFile := p.idxFile.writeAt [0] pos }

/-- The positions of the bytes of the headers of these slots. -/
def headerBytes (slots : List ℕ) : List ℕ :=
  slots.flatMap fun n => List.range' (n * idxBlockSize) idxBlockSize

/-- The loop of `ReadBlocks`. -/
def readEach : List Bytes → List Mishap → AList (fun _ : Bytes => Block) →
    AList fun _ : Bytes => Block
  | [], _, result => result
  | id :: ids, io, result =>
    let header := (p.blocksMap.lookup id).getD ⟨[], 0, 0⟩
    match p.readBlockContents header.slot header.size (io.headD none) with
    | none => readEach ids io.tail result
    | some data => readEach ids io.tail (result.insert id ⟨id, 0, header.size, data⟩)

def readBlocks (ids : List Bytes) (io : List Mishap) :
    Except Err (AList fun _ : Bytes => Block) :=
  if p.closed then .error .partitionClosed else .ok (p.readEach ids io ∅)

end Partition

end Rhosus.Data

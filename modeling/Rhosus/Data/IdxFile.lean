import Rhosus.Data.Slots
import Rhosus.Lib.Runs

/-!
# The index file of a partition

The index file has a header for each slot, all zeros where the slot is free: the id of the block,
which takes 36 bytes, and its size. It is written after the table of the partition, at the end of a
call, and read when the partition is opened again.
-/

namespace Rhosus.Data

def idxFileSize : ℕ := partitionBlocksCount * idxBlockSize

/-- The `uint64` of eight bytes, the highest first. -/
def uint64 (data : Bytes) : ℕ := (data.take 8).foldl (fun x b => x * 256 + b.toNat) 0

def IdxBlock.unmarshal (data : Bytes) : IdxBlock := ⟨data.take 36, uint64 (data.drop 36), 0⟩

def isBytesAllZeros (data : Bytes) : Bool := data.all (· == 0)

/-- The header that is read at `offset` is entered, if there is one. -/
def loadBlock (offset : ℕ) (data : Bytes) (blocks : AList fun _ : Bytes => IdxBlock) :
    AList fun _ : Bytes => IdxBlock :=
  if isBytesAllZeros data then blocks
  else
    let block := { IdxBlock.unmarshal data with offset }
    blocks.insert block.id block

/-- The loop of `Load`, which ends where the file does. A read that fails otherwise is passed
over. -/
def loadFrom (f : File) : ℕ → ℕ → List Mishap → (AList fun _ : Bytes => IdxBlock) →
    AList fun _ : Bytes => IdxBlock
  | 0, _, _, blocks => blocks
  | fuel + 1, offset, io, blocks =>
    match io.headD none with
    | some _ => loadFrom f fuel (offset + idxBlockSize) io.tail blocks
    | none =>
      match f.readAt idxBlockSize offset with
      | none => blocks
      | some data =>
        loadFrom f fuel (offset + idxBlockSize) io.tail (loadBlock offset data blocks)

/-- `IdxFile.Load`; every round that does not fail reads a header of the file. -/
def load (f : File) (io : List Mishap) : AList fun _ : Bytes => IdxBlock :=
  loadFrom f (io.length + f.size / idxBlockSize + 1) 0 io ∅

namespace Partition

/-- `newPartition` over files that exist: `Preallocate` brings the index file to its size. -/
def newPartition (file idxFile : File) : Partition := .new file (idxFile.truncate idxFileSize)

variable (p : Partition)

/-- `loadHeader`, which reads the beginning of the data file before it enters the headers, in the
order it goes through them. -/
def loadHeader (mishap : Mishap) (order : List IdxBlock) : Except Err Partition :=
  match mishap with
  | some _ => .error .io
  | none =>
    if p.file.size = 0 then .error .io
    else if p.file.size < idxFileSize then .error .corruptWrite
    else .ok { p with blocksMap := order.foldl (fun m b => m.insert b.id b) p.blocksMap }

/-- The headers in an order in which the map that `Load` returns may be gone through. -/
def LoadOrder (f : File) (order : List IdxBlock) : Prop :=
  order.Perm ((load f []).entries.map fun e => e.2)

/-- `IsAvailable`, which looks whether the partition is closed. -/
def isAvailableLocked (blocks : ℕ) : Bool := !p.closed && p.isAvailable blocks

/-- A call of `WriteBlocks`, over the blocks of a batch and then over their headers: the error it
returns, those of the blocks, and the partition after it. -/
def writeBlocksCall (blocks : List (Bytes × Bytes)) (order : List (ℕ × IdxBlock))
    (io idxIo : List Mishap) : Option (Except Err Unit × List (Bytes × Err) × Partition) :=
  if p.closed then some (.error .partitionClosed, [], p)
  else
    let w := p.writeBlocks blocks io
    if order.Perm (w.idxs.entries.map fun e => (e.1, e.2)) then
      let (err, p) := w.part.writeIdxs order idxIo
      some (err, w.errs, p)
    else none

def removeBlocksCall (ids : List Bytes) (io : List Mishap) : Except Err Unit × Partition :=
  if p.closed then (.error .partitionClosed, p)
  else
    let (slots, p) := p.removeBlocks ids
    let p := if p.len < partitionBlocksCount then { p with full := false } else p
    (.ok (), p.eraseIdxs (headerBytes slots) io)

end Partition

inductive Call
  | write (blocks : List (Bytes × Bytes)) (order : List (ℕ × IdxBlock)) (io idxIo : List Mishap)
  | remove (ids : List Bytes) (io : List Mishap)

def Call.step (l : Call) (p : Partition) : Option Partition :=
  match l with
  | .write blocks order io idxIo => (p.writeBlocksCall blocks order io idxIo).map fun r => r.2.2
  | .remove ids io => some (p.removeBlocksCall ids io).2

/-- A batch of blocks that are not stored and fit the free slots, with ids of 36 bytes that are not
zero, or a removal of blocks that are stored, each named once; file operations succeed. A slice has
fewer than `2 ^ 63` bytes. -/
def Call.Fresh (l : Call) (p : Partition) : Prop :=
  match l with
  | .write blocks _ io idxIo =>
    io = [] ∧ idxIo = [] ∧ (blocks.map Prod.fst).Nodup
      ∧ p.len + blocks.length ≤ partitionBlocksCount
      ∧ ∀ b ∈ blocks, b.1.length = 36 ∧ (∀ x ∈ b.1, x ≠ 0) ∧ b.1 ∉ p.blocksMap
        ∧ b.2.length < 2 ^ 63
  | .remove ids io => io = [] ∧ ids.Nodup ∧ ∀ id ∈ ids, id ∈ p.blocksMap

instance : ∀ (l : Call) (p : Partition), Decidable (l.Fresh p)
  | .write .., _ => inferInstanceAs (Decidable (_ ∧ _ ∧ _ ∧ _ ∧ ∀ b ∈ _, _))
  | .remove .., _ => inferInstanceAs (Decidable (_ ∧ _ ∧ ∀ id ∈ _, _))

end Rhosus.Data

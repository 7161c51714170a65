import Rhosus.Lib.Faults
import Rhosus.Lib.Lru
import Rhosus.Wal.Names
import Rhosus.Wal.Records

/-!
# The write-ahead log

The log as `wal.go` has it. Segments are objects on a heap, shared between the list of segments
and the cache of loaded ones, so that clearing a segment's buffer through the cache clears it for
the list as well. File operations go through a plan of faults (`Rhosus.Prog`); an index or a slice
bound that is out of range is a panic. Indexes are `uint64` in the source: overflowing one takes
`2 ^ 64` writes, and they are natural numbers here.

The cache is `tinylru`, whose `SetEvicted` is a parameter. The mutex is left out: the public
operations hold it throughout.
-/

namespace Rhosus.Wal

inductive Err
  | corrupt
  | closed
  | notFound
  | outOfOrder
  | outOfRange
  | invalidSeek
  | io
  deriving DecidableEq

/-- `NoCopy` decides only whether `Read` shares its bytes with the buffer, and the permissions are
left out. A size of 0 stands for any that is not positive. -/
structure Options where
  segmentSize : ℕ
  segmentCacheSize : ℕ

def defaultOptions : Options := ⟨10 * 1024 * 1024, 2⟩

abbrev Ptr := ℕ

structure Segment where
  path : Name
  index : ℕ
  ebuf : Bytes
  epos : List BPos

instance : Inhabited Segment := ⟨⟨[], 0, [], []⟩⟩

/-- The segment without its entries in memory, which its file still has. -/
def Segment.dropBuffer (s : Segment) : Segment := { s with ebuf := [], epos := [] }

/-- `sfile` is the name of the open tail file; `none` is a closed handle. -/
structure WAL where
  opts : Options
  closed : Bool
  corrupt : Bool
  segments : List Ptr
  firstIndex : ℕ
  lastIndex : ℕ
  sfile : Option Name
  scache : List (ℕ × Ptr)
  heap : Ptr → Segment
  next : Ptr

abbrev WalM := Prog Name WAL Err

open Prog (getMem modifyMem orPanic)

variable (lru : SetEvicted ℕ Ptr)

namespace WAL

def store (w : WAL) (p : Ptr) (s : Segment) : WAL := { w with heap := Function.update w.heap p s }

def drop (w : WAL) (p : Ptr) : WAL := w.store p (w.heap p).dropBuffer

def alloc (w : WAL) (s : Segment) : Ptr × WAL :=
  (w.next, { w with heap := Function.update w.heap w.next s, next := w.next + 1 })

/-- The bisection of `findSegment` between `i` and `j`; each round narrows it. -/
def bisect (w : WAL) (index : ℕ) : ℕ → ℕ → ℕ → ℕ
  | 0, i, _ => i
  | fuel + 1, i, j =>
    if i < j then
      let h := i + (j - i) / 2
      if (w.heap (w.segments.getD h 0)).index ≤ index then w.bisect index fuel (h + 1) j
      else w.bisect index fuel i h
    else i

/-- The position of the last segment that starts at or before `index`; `-1` if none does. -/
def findSegment (w : WAL) (index : ℕ) : ℤ :=
  (w.bisect index w.segments.length 0 w.segments.length : ℤ) - 1

/-- The most recently used segment of the cache, if it holds `index`. -/
def recent (w : WAL) (index : ℕ) : Option Ptr :=
  match w.scache with
  | [] => none
  | (_, p) :: _ =>
    let s := w.heap p
    if s.index ≤ index ∧ index < s.index + s.epos.length then some p else none

def clearCache (w : WAL) : WAL :=
  { w.scache.foldl (fun w kp => w.drop kp.2) w with scache := [] }

end WAL

/-- `xs[i]` for an index that may be negative. -/
def at? {α : Type} (xs : List α) (i : ℤ) : Option α :=
  if 0 ≤ i then xs[i.toNat]? else none

/-- `a - b` on `uint64`s used as an index: one that wraps around is out of any range. -/
def sub? (a b : ℕ) : Option ℕ := if b ≤ a then some (a - b) else none

/-- `xs[i:]` -/
def sliceFrom? {α : Type} (xs : List α) (i : ℕ) : Option (List α) :=
  if i ≤ xs.length then some (xs.drop i) else none

/-- `xs[:i]` -/
def sliceTo? {α : Type} (xs : List α) (i : ℕ) : Option (List α) :=
  if i ≤ xs.length then some (xs.take i) else none

def pushCache (segIdx : ℕ) : WalM Unit := do
  let w ← getMem
  let p ← orPanic w.segments[segIdx]?
  let (scache, evicted) := lru w.opts.segmentCacheSize w.scache segIdx p
  modifyMem fun w => { w with scache }
  match evicted with
  | some (_, v) => modifyMem fun w => w.drop v
  | none => pure ()

def loadSegmentEntries (p : Ptr) : WalM Unit := do
  let w ← getMem
  let data ← Prog.readFile .io (w.heap p).path
  match scanSegment data with
  | none => Prog.throw .corrupt
  | some epos => modifyMem fun w => w.store p { w.heap p with ebuf := data, epos }

/-- Writes to the open tail file, at its end. -/
def sfileWrite (bs : Bytes) : WalM Unit := do
  let w ← getMem
  match w.sfile with
  | none => Prog.throw .io
  | some n => Prog.append .io n bs

/-- A close that fails leaves the handle closed all the same. -/
def closeTail : WalM Unit := do
  let w ← getMem
  match w.sfile with
  | none => Prog.throw .io
  | some _ => do
    modifyMem fun w => { w with sfile := none }
    Prog.touch .io

/-- Opens a file to append to it as the tail, and tells its length. -/
def openTail (n : Name) : WalM ℕ := do
  modifyMem fun w => { w with sfile := none }
  let data ← Prog.readFile .io n
  modifyMem fun w => { w with sfile := some n }
  Prog.touch .io
  return data.length

/-- A segment object for an empty file of its own. -/
def createSegment (index : ℕ) : WalM Unit := do
  modifyMem fun w => { w with sfile := none }
  Prog.create .io (segmentName index)
  modifyMem fun w =>
    let (p, w) := w.alloc ⟨segmentName index, index, [], []⟩
    { w with segments := w.segments ++ [p], sfile := some (segmentName index) }

section Load

structure Scan where
  found : List (ℕ × Name)
  startIdx : Option ℕ
  endIdx : Option ℕ

/-- One round of the loader's loop over the directory: the last `.START` and the first `.END`
count. -/
def scanStep (s : Scan) (name : Name) : Scan :=
  match scanName name with
  | none => s
  | some (index, kind) =>
    { found := s.found ++ [(index, name)]
      startIdx := if kind = .start then some s.found.length else s.startIdx
      endIdx := if kind = .fin ∧ s.endIdx = none then some s.found.length else s.endIdx }

def scanDir (names : List Name) : Scan := names.foldl scanStep ⟨[], none, none⟩

/-- A segment object for each file found. -/
def allocAll : List (ℕ × Name) → WAL → WAL
  | [], w => w
  | (index, name) :: rest, w =>
    let (p, w) := w.alloc ⟨name, index, [], []⟩
    allocAll rest { w with segments := w.segments ++ [p] }

def removeSegment (p : Ptr) : WalM Unit := do
  let w ← getMem
  Prog.remove .io (w.heap p).path

/-- Gives the segment `p` its final name, which is its name without the suffix. -/
def unsuffix (p : Ptr) (suffix : Name) : WalM Unit := do
  let w ← getMem
  let orgPath := (w.heap p).path
  let finalPath := orgPath.take (orgPath.length - suffix.length)
  Prog.rename .io orgPath finalPath
  modifyMem fun w => w.store p { w.heap p with path := finalPath }

/-- Cleans up after a `TruncateFront` that was cut short. -/
def cleanStart (startIdx : ℕ) : WalM Unit := do
  let w ← getMem
  Prog.each removeSegment (w.segments.take startIdx)
  modifyMem fun w => { w with segments := w.segments.drop startIdx }
  let w ← getMem
  let p ← orPanic w.segments[0]?
  unsuffix p startSuffix

/-- Cleans up after a `TruncateBack` that was cut short: the segment before the `.END` one goes if
it starts at the same index, its file being overwritten by the rename. -/
def cleanEnd (endIdx : ℕ) : WalM Unit := do
  let w ← getMem
  Prog.each removeSegment (w.segments.drop (endIdx + 1)).reverse
  modifyMem fun w => { w with segments := w.segments.take (endIdx + 1) }
  let w ← getMem
  let p ← orPanic w.segments[endIdx]?
  if 0 < endIdx ∧ (w.heap (w.segments.getD (endIdx - 1) 0)).index = (w.heap p).index then
    modifyMem fun w => { w with segments := w.segments.take (endIdx - 1) ++ [p] }
  unsuffix p endSuffix

/-- Opens the last segment for appending and loads its entries. -/
def openLog : WalM Unit := do
  let w ← getMem
  let first ← orPanic w.segments.head?
  let lseg ← orPanic w.segments.getLast?
  modifyMem fun w => { w with firstIndex := (w.heap first).index }
  let _ ← openTail (w.heap lseg).path
  loadSegmentEntries lseg
  modifyMem fun w =>
    { w with lastIndex := (w.heap lseg).index + (w.heap lseg).epos.length - 1 }

def load : WalM Unit := do
  let names ← Prog.readDir .io
  let s := scanDir names
  modifyMem (allocAll s.found)
  match s.found, s.startIdx, s.endIdx with
  | [], _, _ => do
    modifyMem fun w => { w with firstIndex := 1, lastIndex := 0 }
    createSegment 1
  | _, some _, some _ => Prog.throw .corrupt
  | _, some i, none => do
    cleanStart i
    openLog
  | _, none, some i => do
    cleanEnd i
    openLog
  | _, none, none => openLog

def Options.orDefault (o : Options) : Options where
  segmentSize := if o.segmentSize = 0 then defaultOptions.segmentSize else o.segmentSize
  segmentCacheSize :=
    if o.segmentCacheSize = 0 then defaultOptions.segmentCacheSize else o.segmentCacheSize

def WAL.new (opts : Options) : WAL where
  opts := opts.orDefault
  closed := false
  corrupt := false
  segments := []
  firstIndex := 0
  lastIndex := 0
  sfile := none
  scache := []
  heap := fun _ => default
  next := 0

def create (opts : Options) : WalM Unit := do
  modifyMem fun _ => WAL.new opts
  Prog.touch .io
  load

end Load

section Write

/-- Cycles the old segment for a new one. -/
def cycle : WalM Unit := do
  let w ← getMem
  match w.sfile with
  | none => Prog.throw .io
  | some _ => do
    Prog.touch .io
    closeTail
    pushCache lru (w.segments.length - 1)
    createSegment (w.lastIndex + 1)

structure BatchEntry where
  index : ℕ
  size : ℕ

structure Batch where
  entries : List BatchEntry
  datas : Bytes

def Batch.write (b : Batch) (index : ℕ) (data : Bytes) : Batch :=
  ⟨b.entries ++ [⟨index, data.length⟩], b.datas ++ data⟩

/-- The loop of `writeBatch` over the entries left, with `datas` their bytes; `mark` is how much of
the tail's buffer is in its file. It returns the mark it ends with. -/
def writeEntries : List BatchEntry → Bytes → ℕ → WalM ℕ
  | [], _, mark => pure mark
  | e :: es, datas, mark => do
    let w ← getMem
    let p ← orPanic w.segments.getLast?
    let data ← orPanic (sliceTo? datas e.size)
    let s := w.heap p
    let (ebuf, epos) := appendBinaryEntry s.ebuf data
    modifyMem fun w => w.store p { s with ebuf, epos := s.epos ++ [epos] }
    if w.opts.segmentSize ≤ ebuf.length then do
      sfileWrite (ebuf.drop mark)
      modifyMem fun w => { w with lastIndex := e.index }
      cycle lru
      writeEntries es (datas.drop e.size) 0
    else writeEntries es (datas.drop e.size) mark

/-- `writeBatch` once the tail has room. -/
def appendBatch (b : Batch) : WalM Unit := do
  let w ← getMem
  let p ← orPanic w.segments.getLast?
  let mark ← writeEntries lru b.entries b.datas (w.heap p).ebuf.length
  let w ← getMem
  let p ← orPanic w.segments.getLast?
  if mark < (w.heap p).ebuf.length then do
    sfileWrite ((w.heap p).ebuf.drop mark)
    let last ← orPanic b.entries.getLast?
    modifyMem fun w => { w with lastIndex := last.index }

def writeBatch (b : Batch) : WalM Unit := do
  let w ← getMem
  let p ← orPanic w.segments.getLast?
  if w.opts.segmentSize < (w.heap p).ebuf.length then cycle lru
  appendBatch lru b

/-- The checks every public operation starts with. -/
def guarded {α : Type} (m : WalM α) : WalM α := do
  let w ← getMem
  if w.corrupt then Prog.throw .corrupt
  else if w.closed then Prog.throw .closed
  else m

def write (index : ℕ) (data : Bytes) : WalM Unit :=
  guarded (writeBatch lru (Batch.write ⟨[], []⟩ index data))

/-- `WriteBatch`, by the entries of its map in the order in which it is iterated. The errors of the
writes are dropped. -/
def writeMap (data : List (ℕ × Bytes)) : WalM Unit := guarded
  (Prog.each (fun e => Prog.ignoreErr (writeBatch lru (Batch.write ⟨[], []⟩ e.1 e.2))) data)

end Write

section Read

def firstIndex : WalM ℕ := guarded do
  let w ← getMem
  return if w.lastIndex = 0 then 0 else w.firstIndex

def lastIndex : WalM ℕ := guarded do
  let w ← getMem
  return w.lastIndex

/-- Loads the segment of `index` into memory and pushes it to the front of the cache. -/
def loadSegment (index : ℕ) : WalM Ptr := do
  let w ← getMem
  let lseg ← orPanic w.segments.getLast?
  if (w.heap lseg).index ≤ index then return lseg
  match w.recent index with
  | some p => return p
  | none => do
    let idx := w.findSegment index
    let p ← orPanic (at? w.segments idx)
    if (w.heap p).epos.length = 0 then loadSegmentEntries p
    pushCache lru idx.toNat
    return p

def read (index : ℕ) : WalM Bytes := guarded do
  let w ← getMem
  if index = 0 ∨ index < w.firstIndex ∨ w.lastIndex < index then Prog.throw .notFound
  else do
    let p ← loadSegment lru index
    let w ← getMem
    let s := w.heap p
    let off ← orPanic (sub? index s.index)
    let epos ← orPanic s.epos[off]?
    let edata ← orPanic ((sliceTo? s.ebuf epos.stop).bind (sliceFrom? · epos.pos))
    match decodeEntry edata with
    | none => Prog.throw .corrupt
    | some data => return data

def clearCache : WalM Unit := guarded (modifyMem WAL.clearCache)

end Read

section Truncate

/-- Writes the truncated segment to the temporary file. The source keeps an error of this closure
only until it assigns the rename's to the same variable. -/
def writeTemp (ebuf : Bytes) : WalM Unit := Prog.ignoreErr do
  Prog.create .io tempName
  Prog.append .io tempName ebuf
  Prog.touch .io
  Prog.touch .io

def setCorrupt (w : WAL) : WAL := { w with corrupt := true }

/-- Removes the files of some segments, then gives the file `a` its final name. -/
def replaceFiles (ps : List Ptr) (a b : Name) : WalM Unit := do
  Prog.each removeSegment ps
  Prog.rename .io a b

/-- Opens the truncated segment as the tail, checking that its end is where it should be. -/
def reopenTail (n : Name) (ebuf : Bytes) : WalM Unit := do
  let m ← openTail n
  if m ≠ ebuf.length then Prog.throw .invalidSeek

/-- What `truncateFront` does once the truncated segment has its `.START` name. -/
def finishFront (index : ℕ) (segIdx : ℕ) (p : Ptr) (ebuf : Bytes) : WalM Unit :=
  Prog.recovering .corrupt setCorrupt do
    let w ← getMem
    let isTail := segIdx + 1 = w.segments.length
    if isTail then closeTail
    replaceFiles (w.segments.take (segIdx + 1)) (startName index) (segmentName index)
    modifyMem fun w => w.store p { w.heap p with path := segmentName index, index }
    if isTail then do
      reopenTail (segmentName index) ebuf
      loadSegmentEntries p
    modifyMem fun w => { w with segments := w.segments.drop segIdx, firstIndex := index }
    modifyMem WAL.clearCache

def truncateFrontAt (index : ℕ) : WalM Unit := do
  let w ← getMem
  let segIdx := w.findSegment index
  let p ← loadSegment lru index
  let w ← getMem
  let s := w.heap p
  let off ← orPanic (sub? index s.index)
  let epos ← orPanic ((sliceFrom? s.epos off).bind List.head?)
  let ebuf ← orPanic (sliceFrom? s.ebuf epos.pos)
  writeTemp ebuf
  Prog.rename .io tempName (startName index)
  finishFront index segIdx.toNat p ebuf

def outOfRange (w : WAL) (index : ℕ) : Prop :=
  index = 0 ∨ w.lastIndex = 0 ∨ index < w.firstIndex ∨ w.lastIndex < index

instance (w : WAL) (index : ℕ) : Decidable (outOfRange w index) := by
  unfold outOfRange
  infer_instance

def truncateFront (index : ℕ) : WalM Unit := guarded do
  let w ← getMem
  if outOfRange w index then Prog.throw .outOfRange
  else if index = w.firstIndex then return ()
  else truncateFrontAt lru index

/-- What `truncateBack` does once the truncated segment has its `.END` name. -/
def finishBack (index : ℕ) (segIdx : ℕ) (p : Ptr) (ebuf : Bytes) : WalM Unit :=
  Prog.recovering .corrupt setCorrupt do
    closeTail
    let w ← getMem
    let newName := segmentName (w.heap p).index
    replaceFiles (w.segments.drop segIdx) (endName (w.heap p).index) newName
    reopenTail newName ebuf
    modifyMem fun w => w.store p { w.heap p with path := newName }
    modifyMem fun w =>
      { w with segments := w.segments.take (segIdx + 1), lastIndex := index }
    modifyMem WAL.clearCache
    loadSegmentEntries p

def truncateBackAt (index : ℕ) : WalM Unit := do
  let w ← getMem
  let segIdx := w.findSegment index
  let p ← loadSegment lru index
  let w ← getMem
  let s := w.heap p
  let off ← orPanic (sub? index s.index)
  let epos ← orPanic ((sliceTo? s.epos (off + 1)).bind List.getLast?)
  let ebuf ← orPanic (sliceTo? s.ebuf epos.stop)
  writeTemp ebuf
  Prog.rename .io tempName (endName s.index)
  finishBack index segIdx.toNat p ebuf

def truncateBack (index : ℕ) : WalM Unit := guarded do
  let w ← getMem
  if outOfRange w index then Prog.throw .outOfRange
  else if index = w.lastIndex then return ()
  else truncateBackAt lru index

end Truncate

end Rhosus.Wal

import Rhosus.Data.Sink

/-!
# A data node

A data node has any number of partitions, each with its sink. A call of `WriteBlocks` looks which of
them are not full, and puts the blocks it is given into their queues in turn; it waits a second for
room in a queue, and leaves the block out if there is none. The calls run beside one another, the
sinks and the watcher that adds partitions.
-/

namespace Rhosus.Data

inductive AssignStage
  /-- The partitions are looked at. -/
  | looking
  | putting
  /-- The queue was full. -/
  | waiting
  | done
  | failed (e : Err)
  deriving DecidableEq

/-- A call of `Manager.WriteBlocks`: the partitions it has still to look at and those it has found
not full, the number of the next block, and what it is to return. -/
structure Assign where
  blocks : List Block
  looking : List Bytes
  parts : List Bytes
  next : ℕ
  placement : List BlockPlacementInfo
  stage : AssignStage

namespace Assign

def target (a : Assign) : Option (Block × Bytes) :=
  match a.blocks[a.next]?, a.parts[a.next % a.parts.length]? with
  | some b, some pid => some (b, pid)
  | _, _ => none

/-- The next block is in the queue of its partition. -/
def placed (a : Assign) (b : Block) (pid : Bytes) : Assign :=
  { a with next := a.next + 1, placement := a.placement ++ [⟨b.id, pid, true⟩], stage := .putting }

end Assign

/-- The sink of a new partition, over files of their full size. -/
def newSink : Sink :=
  .new ⟨defaultPartitionSize, fun _ => 0⟩ ⟨partitionBlocksCount * idxBlockSize, fun _ => 0⟩

structure DataNode where
  parts : AList fun _ : Bytes => Sink
  calls : List Assign
  shutdown : Bool

inductive NodeMove
  /-- The sink of a partition takes a step, or a call that removes blocks from it. -/
  | part (pid : Bytes) (l : Move)
  /-- The watcher adds a partition. -/
  | create (pid : Bytes)
  /-- `WriteBlocks` is called; it goes through the partitions in some order. -/
  | assign (order : List Bytes) (blocks : List Block)
  /-- The call `k` looks at the next partition, or ends its search, and may then have to create
  one, which gets a new id unless it fails. -/
  | look (k : ℕ) (created : Option Bytes)
  | put (k : ℕ)
  | wait (k : ℕ)
  /-- The wait of the call `k` is over. -/
  | expire (k : ℕ)
  | finish (k : ℕ)

namespace DataNode

def new : DataNode := ⟨∅, [], false⟩

variable (n : DataNode)

def setSink (pid : Bytes) (s : Sink) : DataNode := { n with parts := n.parts.insert pid s }

def setCall (k : ℕ) (a : Assign) : DataNode := { n with calls := n.calls.set k a }

/-- The id is a new one. -/
def createPartition (pid : Bytes) : Option DataNode :=
  if pid ∈ n.parts then none else some (n.setSink pid newSink)

def isAvailable (pid : Bytes) : Bool :=
  (n.parts.lookup pid).any fun s => !s.part.closed && s.part.isAvailable 1

def look (k : ℕ) (a : Assign) (created : Option Bytes) : Option DataNode :=
  match a.looking, created with
  | pid :: looking, _ =>
    let parts := if n.isAvailable pid then a.parts ++ [pid] else a.parts
    some (n.setCall k { a with looking, parts })
  | [], some pid =>
    if a.parts = [] then
      (n.createPartition pid).map (·.setCall k { a with parts := [pid], stage := .putting })
    else some (n.setCall k { a with stage := .putting })
  | [], none =>
    let stage := if a.parts = [] then .failed .io else .putting
    some (n.setCall k { a with stage })

def put (k : ℕ) (a : Assign) : Option DataNode :=
  match a.target with
  | some (b, pid) =>
    match n.parts.lookup pid with
    | some s => (s.step (.put b)).map fun s => (n.setSink pid s).setCall k (a.placed b pid)
    | none => none
  | none => none

/-- The next block does not find room in its queue. -/
def wait (k : ℕ) (a : Assign) : Option DataNode :=
  match a.target with
  | some (_, pid) =>
    match n.parts.lookup pid with
    | some s =>
      if sinkCapacity ≤ s.queue.length then some (n.setCall k { a with stage := .waiting })
      else none
    | none => none
  | none => none

def call (k : ℕ) (a : Assign) (l : NodeMove) : Option DataNode :=
  match l, a.stage with
  | .look _ created, .looking => n.look k a created
  | .put _, .putting | .put _, .waiting => n.put k a
  | .wait _, .putting => n.wait k a
  | .expire _, .waiting => some (n.setCall k { a with next := a.next + 1, stage := .putting })
  | .finish _, .putting =>
    if a.blocks.length ≤ a.next then some (n.setCall k { a with stage := .done }) else none
  | _, _ => none

def step (l : NodeMove) (n : DataNode) : Option DataNode :=
  match l with
  | .part _ (.put _) => none
  | .part pid l =>
    match n.parts.lookup pid with
    | some s => (s.step l).map fun s => n.setSink pid s
    | none => none
  | .create pid => n.createPartition pid
  | .assign order blocks =>
    let stage := if n.shutdown then .failed .shutdown else .looking
    if order.Perm n.parts.keys then
      some { n with calls := n.calls ++ [⟨blocks, order, [], 0, [], stage⟩] }
    else none
  | .look k _ | .put k | .wait k | .expire k | .finish k =>
    match n.calls[k]? with
    | some a => n.call k a l
    | none => none

def readBlock (block : BlockPlacementInfo) (mishap : Mishap) : Except Err (Option Block) :=
  if n.shutdown then .error .shutdown
  else
    match n.parts.lookup block.partitionID with
    | none => .error .notFound
    | some s =>
      match s.part.readBlocks [block.blockID] [mishap] with
      | .error e => .error e
      | .ok bs => .ok (bs.lookup block.blockID)

end DataNode

end Rhosus.Data

import Rhosus.Data.Placed
import Rhosus.Registry.Handlers

/-!
# A file stored on data nodes and fetched again

`TransportAndRegisterBlocks` sends the blocks of a file to the nodes with the fewest blocks, by a
goroutine for each, and stores where they went; `RegisterFile` follows. `GetFileHandler` groups the
blocks by the first node they are on, fetches them by a goroutine for each node, and puts them back
into their order. The data nodes take steps of their own meanwhile, among them those of other
uploads. They are new at the outset: what they did before is done here by such steps.
-/

namespace Rhosus.Registry

section Choice

/-- A data node in the registry's table: its id, and `BlocksUsed` if it has been heartbeated. -/
structure Node where
  id : Bytes
  blocksUsed : Option ℤ
  deriving DecidableEq

/-- `GetNodesWithLeastBlocks`, over the table in the order of its iteration; nothing where it
panics. -/
def getNodesWithLeastBlocks (sorter : Sorter) (nodes : List Node) (n : ℤ) : Option (List Node) :=
  -- every node is compared with another, which reads the metrics of both
  if 1 < nodes.length ∧ ∃ node ∈ nodes, node.blocksUsed = none then none
  else
    -- `BlocksUsed` is an `int32`
    let nodes := sorter.sort (fun node => (node.blocksUsed.getD 0 + 2 ^ 31).toNat) nodes
    if nodes.length < n then some nodes
    else if n < 0 then none
    else some (nodes.take n.toNat)

/-- Which blocks go to which node; nothing where there is no node. -/
def blocksAssignment (nodes : List Node) (replicationFactor : ℤ) (blocks : List Data.Block) :
    Option (List (Bytes × List Data.Block)) :=
  if nodes.length < replicationFactor then
    nodes.head?.map fun node => [(node.id, blocks)]
  else if nodes.length = replicationFactor then some (nodes.map fun node => (node.id, blocks))
  else some []

end Choice

section Fetching

/-- The blocks by the first node they are on; nothing where a block is on none. -/
def blocksByNode (blocks : List BlockInfo) :
    Option (OrdMap Bytes (List Data.BlockPlacementInfo)) :=
  blocks.foldlM (fun m block => block.blocks.head?.map fun p =>
    m.insert p.nodeID ((m[p.nodeID]?).getD [] ++ [⟨block.id, p.partitionID, false⟩])) ∅

/-- Nothing where a block is `nil`. -/
def fillAndSortBlocks (sorter : Sorter) (blocks : List BlockInfo)
    (dBlocks : List (Option Data.Block)) : Option (List Data.Block) :=
  let bMap : OrdMap Bytes ℕ := blocks.foldl (fun m block => m.insert block.id block.index) ∅
  (dBlocks.mapM id).map fun dBlocks =>
    sorter.sort (fun block => (bMap[block.id]?).getD 0)
      (dBlocks.map fun block => { block with index := (bMap[block.id]?).getD 0 })

end Fetching

inductive JobStage
  | start
  /-- The node is at it, in its call `k`. -/
  | called (k : ℕ)
  | done
  deriving DecidableEq

structure Job where
  node : Bytes
  blocks : List Data.Block
  stage : JobStage

/-- A goroutine of `GetFileHandler`: what it has still to receive, what it has received, and whether
that is in the result. -/
structure Fetch where
  node : Bytes
  todo : List Data.BlockPlacementInfo
  got : List (Option Data.Block)
  done : Bool

inductive Phase
  /-- The nodes have answered so far, in this order. -/
  | transporting (answers : List (Bytes × List Data.BlockPlacementInfo))
  /-- `TransportAndRegisterBlocks` has returned `nil`. -/
  | transported
  /-- `RegisterFile` has succeeded. -/
  | registered
  | getting (blocks : List BlockInfo) (fetches : List Fetch) (result : List (Option Data.Block))
  /-- The calls of `transport`, one after the other. -/
  | got (sent : List Data.Block)
  /-- `TransportAndRegisterBlocks` or `RegisterFile` has returned an error. -/
  | refused
  /-- `GetFileHandler` has returned an error or panicked. -/
  | failed

structure Transfer where
  nodes : Bytes → Data.DataNode
  leader : Leader
  jobs : List Job
  phase : Phase

inductive TransferLabel
  | node (id : Bytes) (l : Data.NodeMove)
  /-- The goroutine `i` sends its blocks to its node, which goes through its partitions in some
  order. -/
  | send (i : ℕ) (order : List Bytes)
  | receive (i : ℕ)
  /-- All nodes have answered; the result is gone through in some order. -/
  | register (order : List Bytes) (fate : Fate)
  | registerFile (fate : Fate)
  | get
  /-- The node sends the next block to the goroutine `i`. -/
  | read (i : ℕ) (mishap : Mishap)
  | append (i : ℕ)
  | transport

namespace Transfer

/-- `TransportAndRegisterBlocks` as far as its goroutines, over a table of nodes in the order of its
iteration. -/
def begin (sorter : Sorter) (table : List Node) (blocks : List Data.Block)
    (replicationFactor : ℤ) (leader : Leader) : Option Transfer := do
  let nodes ← getNodesWithLeastBlocks sorter table replicationFactor
  let assignment ← blocksAssignment nodes replicationFactor blocks
  return {
    nodes := fun _ => .new
    leader := leader
    jobs := assignment.map fun a => ⟨a.1, a.2, .start⟩
    phase := .transporting [] }

variable (t : Transfer)

def setNode (id : Bytes) (n : Data.DataNode) : Transfer :=
  { t with nodes := Function.update t.nodes id n }

def call (i : ℕ) : Option (Job × Data.Assign) :=
  match t.jobs[i]? with
  | some ⟨id, blocks, .called k⟩ =>
    ((t.nodes id).calls[k]?).map fun a => (⟨id, blocks, .called k⟩, a)
  | _ => none

def send (i : ℕ) (order : List Bytes) : Option Transfer :=
  match t.jobs[i]? with
  | some ⟨id, blocks, .start⟩ =>
    ((t.nodes id).step (.assign order blocks)).map fun n =>
      { t.setNode id n with jobs := t.jobs.set i ⟨id, blocks, .called (t.nodes id).calls.length⟩ }
  | _ => none

def receive (i : ℕ) (answers : List (Bytes × List Data.BlockPlacementInfo)) : Option Transfer :=
  match t.call i with
  | some (job, a) =>
    let jobs := t.jobs.set i { job with stage := .done }
    match a.stage with
    | .done => some { t with jobs, phase := .transporting (answers ++ [(job.node, a.placement)]) }
    -- the error is logged
    | .failed _ => some { t with jobs }
    | _ => none
  | none => none

def after (next : Phase) (res : Except HandlerErr Unit × Leader) : Transfer :=
  match res with
  | (.ok _, leader) => { t with leader, phase := next }
  | (.error _, leader) => { t with leader, phase := .refused }

def get (env : Env) (path : Bytes) : Transfer :=
  match t.leader.storage.getFileByPath path with
  | none => { t with phase := .failed }
  | some file =>
    let blocks := t.leader.storage.getBlocks env.sorter file.id
    match blocksByNode blocks with
    | none => { t with phase := .failed }
    | some bMap =>
      { t with phase := .getting blocks (bMap.toList.map fun e => ⟨e.1, e.2, [], false⟩) [] }

def read (i : ℕ) (mishap : Mishap) (blocks : List BlockInfo) (fetches : List Fetch)
    (result : List (Option Data.Block)) : Option Transfer :=
  match fetches[i]? with
  | some ⟨id, p :: todo, got, false⟩ =>
    match (t.nodes id).readBlock p mishap with
    -- the error is received again and again
    | .error _ => none
    | .ok b =>
      let fetches := fetches.set i ⟨id, todo, got ++ [b], false⟩
      some { t with phase := .getting blocks fetches result }
  | _ => none

def append (i : ℕ) (blocks : List BlockInfo) (fetches : List Fetch)
    (result : List (Option Data.Block)) : Option Transfer :=
  match fetches[i]? with
  | some ⟨id, [], got, false⟩ =>
    some { t with phase := .getting blocks (fetches.set i ⟨id, [], got, true⟩) (result ++ got) }
  | _ => none

def transport (sorter : Sorter) (blocks : List BlockInfo) (fetches : List Fetch)
    (result : List (Option Data.Block)) : Option Transfer :=
  if ∀ f ∈ fetches, f.done = true then
    match fillAndSortBlocks sorter blocks result with
    | some sent => some { t with phase := .got sent }
    | none => some { t with phase := .failed }
  else none

/-- A step of the transfer of a file with these blocks. -/
def step (env : Env) (file : FileInfo) (blocks : List Data.Block) (l : TransferLabel)
    (t : Transfer) : Option Transfer :=
  match l, t.phase with
  | .node id l, _ => ((t.nodes id).step l).map (t.setNode id)
  | .send i order, .transporting _ => t.send i order
  | .receive i, .transporting answers => t.receive i answers
  | .register order fate, .transporting answers =>
    if (∀ job ∈ t.jobs, job.stage = .done) ∧ order.Perm (assignResult answers).keys then
      some (t.after .transported
        (registerBlocks env fate (Registry.blockInfos file.id blocks answers order) t.leader))
    else none
  | .registerFile fate, .transported =>
    some (t.after .registered (Registry.registerFile env fate file t.leader))
  | .get, .registered => some (t.get env file.path)
  | .read i mishap, .getting infos fetches result => t.read i mishap infos fetches result
  | .append i, .getting infos fetches result => t.append i infos fetches result
  | .transport, .getting infos fetches result => t.transport env.sorter infos fetches result
  | _, _ => none

end Transfer

/-- The steps of `GetFileHandler` once it has begun. -/
def TransferLabel.isFetch : TransferLabel → Bool
  | .read _ mishap => mishap = none
  | .append _ | .transport => true
  | _ => false

/-- The nodes are careful with the blocks `ids`, which are new to them, answer without an error and
read what they have; and when the file is fetched, each sink that got one of the blocks is
flushed. -/
def TransferLabel.Orderly (ids : List Bytes) (l : TransferLabel) (t : Transfer) : Prop :=
  match l with
  | .node id l => l.Careful ids (t.nodes id)
  | .send i _ => ∀ job ∈ t.jobs[i]?, ∀ b ∈ job.blocks, b.id ∉ (t.nodes job.node).used
  | .receive i => ∀ c ∈ t.call i, c.2.stage = .done
  | .get => ∀ job ∈ t.jobs, (t.nodes job.node).Flushed ids
  | .read _ mishap => mishap = none
  | .register .. | .registerFile _ | .append _ | .transport => True

instance (ids : List Bytes) : ∀ (l : TransferLabel) (t : Transfer), Decidable (l.Orderly ids t)
  | .node id l, t => inferInstanceAs (Decidable (l.Careful ids (t.nodes id)))
  | .send i _, t => inferInstanceAs (Decidable (∀ job ∈ t.jobs[i]?, _))
  | .receive i, t => inferInstanceAs (Decidable (∀ c ∈ t.call i, _))
  | .get, t => inferInstanceAs (Decidable (∀ job ∈ t.jobs, _))
  | .read _ mishap, _ => inferInstanceAs (Decidable (mishap = none))
  | .register .., _ | .registerFile _, _ | .append _, _ | .transport, _ =>
    inferInstanceAs (Decidable True)

end Rhosus.Registry

import Rhosus.Cluster.Entry
import Rhosus.Wal.Log

/-!
# A registry in the cluster

What a registry of the cluster holds, and what its handlers and its own writes do to it, each as
one step. A handler gives nothing where the source panics. Terms are `uint32` and indexes `uint64`
in the source, and natural numbers here; where the source adds to one or converts it, it wraps.
-/

namespace Rhosus.Cluster

-- Named, or a run of two registries rests on a lemma of the first such run there is.
instance neZero_two : NeZero 2 := ⟨two_ne_zero⟩

inductive State
  | leader
  | candidate
  | follower
  deriving DecidableEq

/-- What a registry keeps for another one. `info` and `lastActivity` are left out. -/
structure Peer where
  buffer : List Entry
  recovering : Bool
  lastCommittedIndex : ℕ

/-- A `Cluster` with its `ControlServer`. `storage` is what the entries handler writes to, and
`pipeline` tells whether `WritePipeline` is still running. -/
structure Node (ι σ : Type) where
  id : ι
  peers : ι → Peer
  wal : World Wal.Name Wal.WAL
  storage : σ
  currentTerm : ℕ
  lastLogIndex : ℕ
  lastLogTerm : ℕ
  state : State
  lastVotedTerm : ℕ
  votedFor : Option ι
  pipeline : Bool
  shutdown : Bool

structure RequestVoteRequest (ι : Type) where
  term : ℕ
  candidateId : ι
  lastLogIndex : ℕ
  lastLogTerm : ℕ
  deriving DecidableEq

structure RequestVoteResponse (ι : Type) where
  sender : ι
  term : ℕ
  voteGranted : Bool
  deriving DecidableEq

/-- `prevLogTerm` and `leaderCommit` are left out: nothing reads them. -/
structure AppendEntriesRequest (ι : Type) where
  term : ℕ
  leaderId : ι
  prevLogIndex : ℤ
  entries : List Entry
  deriving DecidableEq

structure AppendEntriesResponse (ι : Type) where
  sender : ι
  term : ℕ
  success : Bool
  lastAgreedIndex : ℕ
  lastCommittedIndex : ℕ
  deriving DecidableEq

inductive Err
  | corrupt
  | shutdown
  | writeTimeout
  | wal (e : Wal.Err)
  deriving DecidableEq

/-- What the registries of a cluster are run with: the cache of their logs, and the handler that
writes a leader's entries to storage. -/
structure Env (σ : Type) where
  lru : SetEvicted ℕ Wal.Ptr
  entriesHandler : List Entry → σ → σ

/-- The registries of an example keep nothing, and log as the source does. -/
def plain : Env Unit := ⟨lruSet, fun _ s => s⟩

/-- `int64(x)` of a `uint64`. -/
def toInt64 (x : ℕ) : ℤ := Int.bmod x (2 ^ 64)

section Buffer

/-- `entriesBuffer.WriteBatch`: the buffer after it, which keeps what came before an error. -/
def writeBatch : List Entry → List Entry → Except Err Unit × List Entry
  | b, [] => (.ok (), b)
  | b, e :: es =>
    match b.getLast? with
    | none => writeBatch (b ++ [e]) es
    | some last =>
      if e.index ≤ last.index then (.error .corrupt, b)
      else if e.term < last.term then writeBatch b es
      else writeBatch (b ++ [e]) es

end Buffer

variable {ι σ : Type}

namespace Node

def setPeer [DecidableEq ι] (n : Node ι σ) (j : ι) (p : Peer) : Node ι σ :=
  { n with peers := Function.update n.peers j p }

/-- A registry that has just been created, on an empty log. -/
def new (id : ι) (wal : World Wal.Name Wal.WAL) (storage : σ) : Node ι σ where
  id := id
  peers := fun _ => ⟨[], false, 0⟩
  wal := wal
  storage := storage
  currentTerm := 0
  lastLogIndex := 0
  lastLogTerm := 0
  state := .follower
  lastVotedTerm := 0
  votedFor := none
  pipeline := true
  shutdown := false

/-- What both handlers do on a request they take to come from a later term. -/
def stepDown (n : Node ι σ) (term : ℕ) : Node ι σ :=
  { n with currentTerm := term, state := .follower, votedFor := none }

def endWith (n : Node ι σ) (e : Entry) : Node ι σ :=
  { n with lastLogIndex := e.index, lastLogTerm := e.term }

def onWal {α : Type} (n : Node ι σ) (m : Wal.WalM α) : Option (Except Wal.Err α × Node ι σ) :=
  match m n.wal with
  | (.ok a, wal) => some (.ok a, { n with wal })
  | (.err e, wal) => some (.error e, { n with wal })
  | (.panic, _) | (.crash, _) => none

end Node

section Election

/-- `StartElection` up to its vote requests. -/
def Node.campaign (n : Node ι σ) : Node ι σ :=
  { n with state := .candidate, currentTerm := (n.currentTerm + 1) % 2 ^ 32 }

/-- The request of `sendVoteRequest`. -/
def Node.voteRequest (n : Node ι σ) : RequestVoteRequest ι :=
  ⟨n.currentTerm, n.id, n.lastLogIndex, n.currentTerm⟩

/-- Whether `StartElection` makes the registry the leader, by how many peers have answered it and
how many of them have granted their vote. -/
def wins (responded voted : ℕ) : Bool := responded < 1 || responded / 2 ≤ voted

/-- The first thing `RequestVote` does. -/
def Node.raise (n : Node ι σ) (req : RequestVoteRequest ι) : Node ι σ :=
  if n.currentTerm < req.term then n.stepDown req.term else n

def requestVote (n : Node ι σ) (req : RequestVoteRequest ι) :
    RequestVoteResponse ι × Node ι σ :=
  let currentTerm := n.currentTerm
  let n := n.raise req
  let declined : RequestVoteResponse ι × Node ι σ := (⟨n.id, n.currentTerm, false⟩, n)
  if req.term < currentTerm then declined
  else if n.lastVotedTerm = req.term then declined
  else if req.lastLogIndex < n.lastLogIndex then declined
  else if req.lastLogTerm < n.lastLogTerm then declined
  else if req.lastLogTerm = n.lastLogTerm ∧ req.lastLogIndex < n.lastLogIndex then declined
  else (⟨n.id, currentTerm, true⟩, { n with currentTerm := req.term, lastVotedTerm := req.term })

end Election

section Append

variable (env : Env σ)

/-- Each index is past the one before it. -/
def validateEntriesSequence : List Entry → Bool
  | e :: e' :: es => e.index < e'.index && validateEntriesSequence (e' :: es)
  | _ => true

/-- The loop of `WriteEntriesFromLeader`. -/
def writeEntries : List Entry → Node ι σ → Option (Except Err Unit × Node ι σ)
  | [], n => some (.ok (), n)
  | e :: es, n =>
    match n.onWal (Wal.write env.lru e.index e.marshal) with
    | none => none
    | some (.error err, n) => some (.error (.wal err), n)
    | some (.ok _, n) => writeEntries es (n.endWith e)

def writeEntriesFromLeader (entries : List Entry) (n : Node ι σ) :
    Option (Except Err Unit × Node ι σ) :=
  if validateEntriesSequence entries then
    writeEntries env entries { n with storage := env.entriesHandler entries n.storage }
  else some (.error .corrupt, n)

/-- The last entry is past the log's last index. -/
def PastEnd (entries : List Entry) (lastLogIndex : ℕ) : Prop :=
  ∃ e ∈ entries.getLast?, lastLogIndex < e.index

instance (entries : List Entry) (lastLogIndex : ℕ) : Decidable (PastEnd entries lastLogIndex) :=
  inferInstanceAs (Decidable (∃ e ∈ entries.getLast?, _))

/-- The first thing `AppendEntries` does. -/
def Node.heed (n : Node ι σ) (req : AppendEntriesRequest ι) : Node ι σ :=
  if n.currentTerm < req.term ∨ PastEnd req.entries n.lastLogIndex then n.stepDown req.term else n

/-- The handler. The signal it sends to the loop that waits for a leader is left out: it can hold
the handler up, and that loop is free to start an election at any time. -/
def appendEntries (n : Node ι σ) (req : AppendEntriesRequest ι) :
    Option (AppendEntriesResponse ι × Node ι σ) :=
  let currentTerm := n.currentTerm
  let lastLogIndex := n.lastLogIndex
  let n := n.heed req
  if req.term < currentTerm then
    some (⟨n.id, n.currentTerm, false, n.lastLogIndex, n.lastLogIndex⟩, n)
  else if toInt64 lastLogIndex < req.prevLogIndex then
    some (⟨n.id, currentTerm, false, 0, lastLogIndex⟩, n)
  else
    match writeEntriesFromLeader env req.entries n with
    | none => none
    | some (.error _, n) => some (⟨n.id, n.currentTerm, false, 0, n.lastLogIndex⟩, n)
    | some (.ok _, n) => some (⟨n.id, n.currentTerm, true, 0, n.lastLogIndex⟩, n)

end Append

section Write

variable [DecidableEq ι] (env : Env σ)

/-- One round of `WritePipeline`, over the peers in some order; after an error it is the last. -/
def writeToPeers (entries : List Entry) : List ι → Node ι σ → Except Err Unit × Node ι σ
  | [], n => (.ok (), n)
  | j :: js, n =>
    match writeBatch (n.peers j).buffer entries with
    | (.ok _, buffer) => writeToPeers entries js (n.setPeer j { n.peers j with buffer })
    | (.error e, buffer) =>
      (.error e, { n.setPeer j { n.peers j with buffer } with pipeline := false })

/-- The hand-over of an entry to `WritePipeline`, which may be too slow to take it (`timely`);
`order` is the order in which that goes through the peers. -/
def handOver (entry : Entry) (timely : Bool) (order : List ι) (n : Node ι σ) :
    Except Err Unit × Node ι σ :=
  if n.pipeline ∧ timely then writeToPeers [entry] order n else (.error .writeTimeout, n)

/-- The entry that `writeEntry` makes at the time `now`. -/
def Node.nextEntry (n : Node ι σ) (typ : EntryType) (data : Bytes) (now : Int64) : Entry :=
  ⟨(n.lastLogIndex + 1) % 2 ^ 64, n.currentTerm, typ.code, data, now.toInt⟩

def writeEntry (typ : EntryType) (data : Bytes) (now : Int64) (timely : Bool) (order : List ι)
    (n : Node ι σ) : Option (Except Err Unit × Node ι σ) :=
  if n.shutdown then some (.error .shutdown, n)
  else
    let lastLogIndex := n.lastLogIndex
    let entry := n.nextEntry typ data now
    let n := n.endWith entry
    match n.onWal (Wal.write env.lru entry.index entry.marshal) with
    | none => none
    | some (.error e, n) => some (.error (.wal e), { n with lastLogIndex := lastLogIndex })
    | some (.ok _, n) => some (handOver entry timely order n)

end Write

end Rhosus.Cluster

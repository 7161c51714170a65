import Rhosus.Cluster.Node
import Rhosus.Lib.Runs

/-!
# The cluster as a system

Registries that all know each other, the calls they have made to one another, and the goroutines
that make them: one election at a time on each registry, and any number of those that dispatch
entries to a peer and recover it. A call stays in the list of calls for good: its request is lost
if it is never delivered, late if it is delivered after its caller has given up, and its answer is
lost if the caller never takes it.

A step is one handler, the half of an election that sends or the half that counts, or what a
goroutine does between two accesses to what it shares with others.
-/

namespace Rhosus.Cluster

/-- A call of `RequestVote`. `own` is the candidate's `lastLogTerm` and `lastLogIndex` when it made
the call, which the request does not tell. -/
structure VoteCall (ι : Type) where
  src : ι
  dst : ι
  req : RequestVoteRequest ι
  own : ℕ × ℕ
  res : Option (RequestVoteResponse ι)

structure AppendCall (ι : Type) where
  src : ι
  dst : ι
  req : AppendEntriesRequest ι
  res : Option (AppendEntriesResponse ι)

/-- `StartElection` after it has sent its requests: the calls it waits for, and its two counters.
`term` is the term it has asked for votes in. -/
structure Election where
  term : ℕ
  waiting : List ℕ
  responded : ℕ
  voted : ℕ

/-- How far a goroutine of `dispatchEntries` is, and `startLogRecovering` within it. -/
inductive Stage
  /-- The loop over the peers has come to this one. -/
  | ticked
  | started
  | readTerm (currentTerm : ℕ)
  | readIndex (currentTerm lastLogIndex : ℕ)
  | sent (call : ℕ)
  /-- `startLogRecovering` is called. -/
  | behind (start : ℕ)
  | marked (start : ℕ)
  | readLast (start lastIndex : ℕ)
  /-- At the head of the loop over the entries to send. -/
  | next (lastIndex currentTerm index : ℕ)
  | resent (lastIndex currentTerm index call : ℕ)
  | done

structure Proc (ι : Type) where
  leader : ι
  peer : ι
  stage : Stage

structure Sys (N : ℕ) (σ : Type) where
  nodes : Fin N → Node (Fin N) σ
  elections : Fin N → Option Election
  voteCalls : List (VoteCall (Fin N))
  appendCalls : List (AppendCall (Fin N))
  procs : List (Proc (Fin N))

/-- The data of an entry, with room for the other fields in a slice. -/
abbrev Payload := { d : Bytes // d.length + 128 < 2 ^ 63 }

def Payload.empty : Payload := ⟨[], by decide⟩

inductive Label (N : ℕ)
  /-- The timeout of `LoopReadEntries`. -/
  | startElection (i : Fin N)
  /-- The answer to the call `k` reaches the election. -/
  | voteAnswer (i : Fin N) (k : ℕ)
  | voteError (i : Fin N) (k : ℕ)
  | tally (i : Fin N)
  | deliverVote (k : ℕ)
  | deliverAppend (k : ℕ)
  | write (i : Fin N) (typ : EntryType) (data : Payload) (now : Int64) (timely : Bool)
    (order : List (Fin N))
  /-- The tick of `LoopWriteEntries`, and the loop over the peers as far as `j`. -/
  | tick (i j : Fin N)
  /-- The goroutine `p` goes on by itself. -/
  | advance (p : ℕ)
  /-- The goroutine `p` gets the answer it waits for. -/
  | answer (p : ℕ)
  /-- The goroutine `p` gets an error for the call it waits for. -/
  | error (p : ℕ)

variable {N : ℕ} {σ : Type}

def others (i : Fin N) : List (Fin N) := (List.finRange N).filter (· ≠ i)

namespace Sys

def setNode (s : Sys N σ) (i : Fin N) (n : Node (Fin N) σ) : Sys N σ :=
  { s with nodes := Function.update s.nodes i n }

def setPeer (s : Sys N σ) (i j : Fin N) (p : Peer) : Sys N σ :=
  s.setNode i ((s.nodes i).setPeer j p)

def setElection (s : Sys N σ) (i : Fin N) (el : Option Election) : Sys N σ :=
  { s with elections := Function.update s.elections i el }

def setProc (s : Sys N σ) (p : ℕ) (pr : Proc (Fin N)) : Sys N σ :=
  { s with procs := s.procs.set p pr }

section Election

def startElection (i : Fin N) (s : Sys N σ) : Option (Sys N σ) :=
  if (s.nodes i).state = .leader ∨ s.elections i ≠ none then none
  else
    let n := (s.nodes i).campaign
    let calls := (others i).map fun j =>
      ⟨i, j, n.voteRequest, (n.lastLogTerm, n.lastLogIndex), none⟩
    let el : Election := ⟨n.currentTerm, List.range' s.voteCalls.length calls.length, 0, 0⟩
    some { (s.setNode i n).setElection i (some el) with voteCalls := s.voteCalls ++ calls }

def voteAnswer (i : Fin N) (k : ℕ) (s : Sys N σ) : Option (Sys N σ) :=
  match s.elections i, s.voteCalls[k]? with
  | some el, some ⟨_, _, _, _, some res⟩ =>
    if k ∈ el.waiting then
      some (s.setElection i (some ⟨el.term, el.waiting.erase k, el.responded + 1,
        el.voted + if res.voteGranted then 1 else 0⟩))
    else none
  | _, _ => none

def voteError (i : Fin N) (k : ℕ) (s : Sys N σ) : Option (Sys N σ) :=
  match s.elections i with
  | some el =>
    if k ∈ el.waiting then some (s.setElection i (some { el with waiting := el.waiting.erase k }))
    else none
  | none => none

/-- The count, once every call has been answered or has failed. -/
def tally (i : Fin N) (s : Sys N σ) : Option (Sys N σ) :=
  match s.elections i with
  | some ⟨_, [], responded, voted⟩ =>
    let s := s.setElection i none
    if wins responded voted then some (s.setNode i { s.nodes i with state := .leader }) else some s
  | _ => none

def deliverVote (k : ℕ) (s : Sys N σ) : Option (Sys N σ) :=
  match s.voteCalls[k]? with
  | some ⟨i, j, req, own, none⟩ =>
    let (res, n) := requestVote (s.nodes j) req
    some { s.setNode j n with voteCalls := s.voteCalls.set k ⟨i, j, req, own, some res⟩ }
  | _ => none

end Election

section Replication

variable (env : Env σ)

def deliverAppend (k : ℕ) (s : Sys N σ) : Option (Sys N σ) :=
  match s.appendCalls[k]? with
  | some ⟨i, j, req, none⟩ =>
    match appendEntries env (s.nodes j) req with
    | some (res, n) =>
      some { s.setNode j n with appendCalls := s.appendCalls.set k ⟨i, j, req, some res⟩ }
    | none => none
  | _ => none

def write (i : Fin N) (typ : EntryType) (data : Payload) (now : Int64) (timely : Bool)
    (order : List (Fin N)) (s : Sys N σ) : Option (Sys N σ) :=
  if order.Perm (others i) then
    match writeEntry env typ data now timely order (s.nodes i) with
    | some (_, n) => some (s.setNode i n)
    | none => none
  else none

def tick (i j : Fin N) (s : Sys N σ) : Option (Sys N σ) :=
  if (s.nodes i).state = .leader ∧ i ≠ j then
    some { s with procs := s.procs ++ [⟨i, j, .ticked⟩] }
  else none

/-- Goroutine `p` calls `AppendEntries` of the registry `j`, and waits. -/
def call (s : Sys N σ) (p : ℕ) (i j : Fin N) (req : AppendEntriesRequest (Fin N))
    (stage : ℕ → Stage) : Sys N σ :=
  { s.setProc p ⟨i, j, stage s.appendCalls.length⟩ with
    appendCalls := s.appendCalls ++ [⟨i, j, req, none⟩] }

def recovered (s : Sys N σ) (p : ℕ) (i j : Fin N) : Sys N σ :=
  (s.setPeer i j { (s.nodes i).peers j with recovering := false }).setProc p ⟨i, j, .done⟩

/-- One round of the loop of `startLogRecovering`, to its call. -/
def sendNext (p : ℕ) (i j : Fin N) (lastIndex currentTerm index : ℕ) (s : Sys N σ) :
    Option (Sys N σ) :=
  if index ≤ lastIndex then
    match (s.nodes i).onWal (Wal.read env.lru index) with
    | none => none
    | some (.error _, n) => some ((s.setNode i n).recovered p i j)
    | some (.ok bytes, n) =>
      -- an entry that cannot be read whole is logged, and sent as far as it was read
      some ((s.setNode i n).call p i j
        ⟨currentTerm, i, toInt64 ((index + (2 ^ 64 - 1)) % 2 ^ 64), [(Entry.unmarshal bytes).1]⟩
        (.resent lastIndex currentTerm index))
  else some (s.recovered p i j)

def advance (p : ℕ) (s : Sys N σ) : Option (Sys N σ) :=
  match s.procs[p]? with
  | none => none
  | some ⟨i, j, stage⟩ =>
    let n := s.nodes i
    let peer := n.peers j
    match stage with
    | .ticked => some (s.setProc p ⟨i, j, if peer.recovering then .done else .started⟩)
    | .started => some (s.setProc p ⟨i, j, .readTerm n.currentTerm⟩)
    | .readTerm currentTerm =>
      some (s.setProc p ⟨i, j, .readIndex currentTerm n.lastLogIndex⟩)
    | .readIndex currentTerm lastLogIndex =>
      some ((s.setPeer i j { peer with buffer := [] }).call p i j
        ⟨currentTerm, i, Int.bmod (toInt64 lastLogIndex - 1) (2 ^ 64), peer.buffer⟩ .sent)
    | .behind start =>
      some ((s.setPeer i j { peer with recovering := true }).setProc p ⟨i, j, .marked start⟩)
    | .marked start => some (s.setProc p ⟨i, j, .readLast start n.lastLogIndex⟩)
    | .readLast start lastIndex =>
      some (s.setProc p ⟨i, j, .next lastIndex n.currentTerm ((start + 1) % 2 ^ 64)⟩)
    | .next lastIndex currentTerm index => s.sendNext env p i j lastIndex currentTerm index
    | .sent _ | .resent .. | .done => none

/-- The answer to the call, once it has been delivered. -/
def answerTo (s : Sys N σ) (call : ℕ) : Option (AppendEntriesResponse (Fin N)) :=
  s.appendCalls[call]?.bind AppendCall.res

def answer (p : ℕ) (s : Sys N σ) : Option (Sys N σ) :=
  match s.procs[p]? with
  | some ⟨i, j, .sent call⟩ =>
    (s.answerTo call).map fun res => s.setProc p
      ⟨i, j, if res.success then .done else .behind res.lastCommittedIndex⟩
  | some ⟨i, j, .resent lastIndex currentTerm index call⟩ =>
    (s.answerTo call).map fun res =>
      if res.success then
        (s.setPeer i j { (s.nodes i).peers j with lastCommittedIndex := index }).setProc p
          ⟨i, j, .next lastIndex currentTerm ((index + 1) % 2 ^ 64)⟩
      else s.recovered p i j
  | _ => none

def error (p : ℕ) (s : Sys N σ) : Option (Sys N σ) :=
  match s.procs[p]? with
  | some ⟨i, j, .sent _⟩ => some (s.setProc p ⟨i, j, .done⟩)
  | some ⟨i, j, .resent ..⟩ => some (s.recovered p i j)
  | _ => none

end Replication

end Sys

def step (env : Env σ) : Label N → Sys N σ → Option (Sys N σ)
  | .startElection i => Sys.startElection i
  | .voteAnswer i k => Sys.voteAnswer i k
  | .voteError i k => Sys.voteError i k
  | .tally i => Sys.tally i
  | .deliverVote k => Sys.deliverVote k
  | .deliverAppend k => Sys.deliverAppend env k
  | .write i typ data now timely order => Sys.write env i typ data now timely order
  | .tick i j => Sys.tick i j
  | .advance p => Sys.advance env p
  | .answer p => Sys.answer p
  | .error p => Sys.error p

/-- A log just created in an empty directory. -/
def freshWal : World Wal.Name Wal.WAL :=
  (Wal.create Wal.defaultOptions ⟨Wal.WAL.new Wal.defaultOptions, ∅, []⟩).2

/-- Registries that have just been created, with peers. -/
def Sys.init (storage : σ) : Sys N σ where
  nodes := fun i => .new i freshWal storage
  elections := fun _ => none
  voteCalls := []
  appendCalls := []
  procs := []

end Rhosus.Cluster

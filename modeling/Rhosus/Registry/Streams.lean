import Rhosus.Registry.Download

/-!
# Loops that receive a stream

`GetBlocks` of the nodes map and `AssignBlocks` of a data node receive messages until `io.EOF`. Any
other error is logged and the loop goes on with the next `Recv`, which on a stream that is over
returns an error again. So both loops do what they are for exactly if the stream ends with `io.EOF`
(`recvLoops_end_iff`); after another error they are endless, or end as if there had been none.
-/

namespace Rhosus.Registry

inductive RecvError
  | eof
  | status (code : ℕ)
  deriving DecidableEq

/-- A stream that brings some messages and then is over. -/
structure RecvStream (α : Type) where
  msgs : List α
  /-- The error that it ends with. -/
  ending : RecvError
  /-- The errors of all further calls. -/
  later : ℕ → RecvError

namespace RecvStream

variable {α : Type}

def recv (s : RecvStream α) : Except RecvError α × RecvStream α :=
  match s.msgs with
  | a :: msgs => (.ok a, { s with msgs })
  | [] => (.error s.ending, ⟨[], s.later 0, fun k => s.later (k + 1)⟩)

/-- The loop, with what it has received so far; nothing where it is not over after `fuel` calls of
`Recv`. -/
def receive : ℕ → RecvStream α → List α → Option (List α)
  | 0, _, _ => none
  | fuel + 1, stream, blocks =>
    match stream.recv with
    | (.error .eof, _) => some blocks
    -- logged, and the loop continues
    | (.error (.status _), stream) => receive fuel stream blocks
    | (.ok block, stream) => receive fuel stream (blocks ++ [block])

/-- The errors that the stream returns once its messages are received. -/
def error (s : RecvStream α) : ℕ → RecvError
  | 0 => s.ending
  | k + 1 => s.later k

theorem error_shift (later : ℕ → RecvError) :
    ∀ k, (⟨[], later 0, fun k => later (k + 1)⟩ : RecvStream α).error k = later k
  | 0 => rfl
  | _ + 1 => rfl

/-- The loop ends at the first `io.EOF`, however many errors come before it. -/
theorem receive_eq_some {out : List α} : ∀ {fuel : ℕ} {s : RecvStream α} {blocks : List α},
    receive fuel s blocks = some out
      ↔ out = blocks ++ s.msgs ∧ ∃ k, s.msgs.length + k < fuel ∧ s.error k = .eof
  | 0, s, blocks => by simp [receive]
  | fuel + 1, ⟨[], ending, later⟩, blocks => by
    rcases ending with _ | code
    · simp only [receive, recv, Option.some.injEq, List.append_nil, List.length_nil]
      exact ⟨fun h => ⟨h.symm, 0, by omega, rfl⟩, fun h => h.1.symm⟩
    · simp only [receive, recv, receive_eq_some, List.length_nil, Nat.zero_add]
      refine and_congr_right fun _ => ⟨fun ⟨k, hk, heof⟩ => ?_, fun ⟨k, hk, heof⟩ => ?_⟩
      · exact ⟨k + 1, by omega, (error_shift later k).symm.trans heof⟩
      · rcases k with _ | k
        · cases heof
        · exact ⟨k, by omega, (error_shift later k).trans heof⟩
  | fuel + 1, ⟨a :: msgs, ending, later⟩, blocks => by
    simp only [receive, recv, receive_eq_some, List.append_assoc, List.singleton_append,
      List.length_cons]
    refine and_congr_right fun _ => exists_congr fun k => and_congr (by omega) ?_
    cases k <;> rfl

end RecvStream

namespace Streams

inductive GetBlocksError
  | notFound
  | call (err : RecvError)

/-- `GetBlocks` of the nodes map, where the node and its stream have been looked up and opened. -/
def getBlocks (node : Option (Except RecvError (RecvStream (Option Data.Block)))) (fuel : ℕ) :
    Option (Except GetBlocksError (List (Option Data.Block))) :=
  match node with
  | none => some (.error .notFound)
  | some (.error err) => some (.error (.call err))
  | some (.ok stream) => (stream.receive fuel []).map .ok

structure Assigned (ε : Type) where
  /-- The calls of `HandleAssignBlocks`. -/
  passed : List (List (Option Data.Block))
  answer : Except ε (List Data.BlockPlacementInfo)

section Assign

variable {ε : Type}

/-- `AssignBlocks` of the data node -/
def assignBlocks
    (handleAssignBlocks : List (Option Data.Block) → Except ε (List Data.BlockPlacementInfo))
    (srv : RecvStream (Option Data.Block)) (fuel : ℕ) : Option (Assigned ε) :=
  (srv.receive fuel []).map fun blocks => ⟨[blocks], handleAssignBlocks blocks⟩

/-- `GetBlocks` returns all blocks if the stream ends with `io.EOF`, and an error otherwise. -/
def Fetched (stream : RecvStream (Option Data.Block)) : Prop :=
  match stream.ending with
  | .eof => ∃ fuel, getBlocks (some (.ok stream)) fuel = some (.ok stream.msgs)
  | .status _ => ∃ fuel err, getBlocks (some (.ok stream)) fuel = some (.error err)

/-- `AssignBlocks` ends, and has passed on the blocks if the stream has ended with `io.EOF`. -/
def PassedOn
    (handleAssignBlocks : List (Option Data.Block) → Except ε (List Data.BlockPlacementInfo))
    (srv : RecvStream (Option Data.Block)) : Prop :=
  ∃ fuel out, assignBlocks handleAssignBlocks srv fuel = some out
    ∧ out.passed = if srv.ending = .eof then [srv.msgs] else []

variable {handleAssignBlocks : List (Option Data.Block) → Except ε (List Data.BlockPlacementInfo)}
  {stream srv : RecvStream (Option Data.Block)} {msgs : List (Option Data.Block)}

theorem getBlocks_ok {fuel : ℕ} {out : List (Option Data.Block)} :
    getBlocks (some (.ok stream)) fuel = some (.ok out)
      ↔ out = stream.msgs ∧ ∃ k, stream.msgs.length + k < fuel ∧ stream.error k = .eof := by
  simp only [getBlocks, Option.map_eq_some_iff, Except.ok.injEq, exists_eq_right,
    RecvStream.receive_eq_some, List.nil_append]

theorem getBlocks_ne_error {fuel : ℕ} {err : GetBlocksError} :
    getBlocks (some (.ok stream)) fuel ≠ some (.error err) := by
  simp [getBlocks]

theorem assignBlocks_passed {fuel : ℕ} {out : Assigned ε}
    (h : assignBlocks handleAssignBlocks srv fuel = some out) : out.passed = [srv.msgs] := by
  obtain ⟨blocks, hblocks, rfl⟩ := Option.map_eq_some_iff.mp h
  obtain ⟨rfl, -⟩ := RecvStream.receive_eq_some.mp hblocks
  rw [List.nil_append]

theorem fetched_iff : Fetched stream ↔ stream.ending = .eof := by
  unfold Fetched
  rcases hend : stream.ending with _ | code <;> dsimp only
  · exact iff_of_true ⟨_, getBlocks_ok.mpr ⟨rfl, 0, Nat.lt_succ_self _, hend⟩⟩ rfl
  · simp [getBlocks_ne_error]

theorem passedOn_iff : PassedOn handleAssignBlocks srv ↔ srv.ending = .eof := by
  refine ⟨fun ⟨fuel, out, hout, hpassed⟩ => ?_, fun hend => ?_⟩
  · by_contra hend
    rw [assignBlocks_passed hout, if_neg hend] at hpassed
    cases hpassed
  · have hloop : srv.receive (srv.msgs.length + 1) [] = some srv.msgs :=
      RecvStream.receive_eq_some.mpr ⟨rfl, 0, Nat.lt_succ_self _, hend⟩
    refine ⟨srv.msgs.length + 1, ⟨[srv.msgs], handleAssignBlocks srv.msgs⟩, ?_, (if_pos hend).symm⟩
    rw [assignBlocks, hloop, Option.map_some]

/-- Where the stream never returns `io.EOF`, neither loop ends. -/
theorem receive_endless (srv : RecvStream (Option Data.Block)) (h : ∀ k, srv.error k ≠ .eof)
    (fuel : ℕ) : srv.receive fuel [] = none := by
  rcases hout : srv.receive fuel [] with _ | out
  · rfl
  · obtain ⟨-, k, -, heof⟩ := RecvStream.receive_eq_some.mp hout
    exact absurd heof (h k)

end Assign

section Served

variable {nodes : NodesMap} {nodeID : Bytes} {later : ℕ → RecvError}

/-- `GetBlocks` of the data node: it sends blocks until it fails to read one, and returns that
error. The code is `Unknown`, which `gRPC` gives to an error that has none. -/
def serve (node : Data.DataNode) (mishap : Bytes → Mishap) :
    List Data.BlockPlacementInfo → List (Option Data.Block) × RecvError
  | [] => ([], .eof)
  | p :: ps =>
    match node.readBlock p (mishap p.blockID) with
    | .error _ => ([], .status 2)
    | .ok b => ((b :: (serve node mishap ps).1), (serve node mishap ps).2)

/-- The stream that the registry opens; a node that is gone is `Unavailable`. -/
def openStream (nodes : NodesMap) (nodeID : Bytes) (ps : List Data.BlockPlacementInfo)
    (later : ℕ → RecvError) : Option (Except RecvError (RecvStream (Option Data.Block))) :=
  (nodes nodeID).map fun
    | .refuses => .error (.status 14)
    | .fails => .ok ⟨[], .status 14, later⟩
    | .answers node mishap =>
      let (msgs, ending) := serve node mishap ps
      .ok ⟨msgs, ending, later⟩

theorem stream_eq_serve (node : Data.DataNode) (mishap : Bytes → Mishap) :
    ∀ ps : List Data.BlockPlacementInfo, stream node mishap ps
      = if (serve node mishap ps).2 = .eof then some (serve node mishap ps).1 else none
  | [] => rfl
  | p :: ps => by
    rw [stream, serve]
    rcases node.readBlock p (mishap p.blockID) with e | b
    · rfl
    · dsimp only
      rw [stream_eq_serve node mishap ps, apply_ite (Option.map (b :: ·))]
      rfl

/-- What a goroutine of `GetFileHandler` is said to come to, the loop of `GetBlocks` comes to on
the stream of the node, as long as no `io.EOF` follows another error. -/
theorem getBlocks_refines (ps : List Data.BlockPlacementInfo) (hlater : ∀ k, later k ≠ .eof) :
    match nodes.getBlocks nodeID ps with
    | .error => ∃ err, ∀ fuel, getBlocks (openStream nodes nodeID ps later) fuel
        = some (.error err)
    | .endless => ∀ fuel, getBlocks (openStream nodes nodeID ps later) fuel = none
    | .blocks dBlocks => ∃ fuel, getBlocks (openStream nodes nodeID ps later) fuel
        = some (.ok dBlocks) := by
  have hendless : ∀ (msgs : List (Option Data.Block)) (ending : RecvError), ending ≠ .eof →
      ∀ fuel, getBlocks (some (.ok ⟨msgs, ending, later⟩)) fuel = none := by
    intro msgs ending hend fuel
    rw [getBlocks, receive_endless _ (fun k => ?_), Option.map_none]
    cases k with
    | zero => exact hend
    | succ k => exact hlater k
  unfold NodesMap.getBlocks openStream
  rcases nodes nodeID with _ | _ | _ | ⟨node, mishap⟩ <;> dsimp only [Option.map_none,
    Option.map_some]
  · exact ⟨_, fun _ => rfl⟩
  · exact ⟨_, fun _ => rfl⟩
  · exact hendless _ _ nofun
  · rw [stream_eq_serve]
    by_cases hend : (serve node mishap ps).2 = .eof
    · rw [if_pos hend]
      exact ⟨_, getBlocks_ok.mpr ⟨rfl, 0, Nat.lt_succ_self _, hend⟩⟩
    · rw [if_neg hend]
      exact hendless _ _ hend

end Served

/-- On every stream, and whatever the calls after its end return, each of the loops does what it is
for if and only if the stream ends with `io.EOF`. -/
theorem recvLoops_end_iff {ε : Type}
    (handleAssignBlocks : List (Option Data.Block) → Except ε (List Data.BlockPlacementInfo))
    (stream : RecvStream (Option Data.Block)) :
    (Fetched stream ↔ stream.ending = .eof)
      ∧ (PassedOn handleAssignBlocks stream ↔ stream.ending = .eof) :=
  ⟨fetched_iff, passedOn_iff⟩

/-- The node fails after one block: neither loop is over after any number of calls. -/
theorem recvLoops_endless_unavailable :
    ¬ Fetched ⟨[some ⟨[1], 0, 2, [10, 11]⟩], .status 14, fun _ => .status 14⟩
      ∧ ¬ PassedOn (fun _ => (.ok [] : Except Unit _))
          ⟨[some ⟨[1], 0, 2, [10, 11]⟩], .status 14, fun _ => .status 14⟩
      ∧ (∀ fuel, getBlocks (some (.ok ⟨[some ⟨[1], 0, 2, [10, 11]⟩], .status 14,
          fun _ => .status 14⟩)) fuel = none)
      ∧ ∀ fuel, assignBlocks (fun _ => (.ok [] : Except Unit _))
          ⟨[some ⟨[1], 0, 2, [10, 11]⟩], .status 14, fun _ => .status 14⟩ fuel = none := by
  have hloop := receive_endless ⟨[some ⟨[1], 0, 2, [10, 11]⟩], .status 14,
    fun _ => .status 14⟩ (fun k => by cases k <;> nofun)
  refine ⟨fun h => ?_, fun h => ?_, fun fuel => ?_, fun fuel => ?_⟩
  · cases fetched_iff.mp h
  · cases passedOn_iff.mp h
  · rw [getBlocks, hloop, Option.map_none]
  · rw [assignBlocks, hloop, Option.map_none]

end Streams

end Rhosus.Registry

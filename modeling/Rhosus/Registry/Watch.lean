import Rhosus.Lib.Runs
import Rhosus.Lib.Table

/-!
# The watch over the nodes

`WatchNodes` sends a heartbeat to every node in the map, and looks the node up again by its id each
time it books one that failed; meanwhile nodes come and go. An access to a node that has gone brings
the registry down. The failures are counted from when the node was added, and no success starts the
count again. So all is well if and only if a node is in the map at each of these accesses, no
heartbeat to it has succeeded since the first failure of the count when there are enough of them,
and a node is not added again when it is about to be marked (`watchNodes_sound_iff`). The heartbeat
that `AddNode` sends is one of them: a failure that waits to be booked then comes before a success.
-/

namespace Rhosus.Registry.Watch

section Source

inductive NodeState
  | normal
  | decommissionInProgress
  | decommissioned
  deriving DecidableEq

structure NodeInfo where
  id : Bytes
  name : Bytes
  address : Bytes
  location : Bytes
  state : NodeState
  deriving DecidableEq

structure Node where
  info : NodeInfo
  /-- Of the metrics, which a new node has none of. -/
  blocksUsed : Option Int32
  pingRetries : ℕ
  unavailable : Bool
  /-- This tells the objects apart that are in the map under one id after one another. -/
  ref : ℕ
  deriving DecidableEq

def Node.new (info : NodeInfo) (ref : ℕ) : Node := ⟨info, none, 0, false, ref⟩

def maxPingRetries : ℕ := 3

inductive Stage
  /-- It waits for the heartbeat of the object it was given. -/
  | probe (ref : ℕ)
  | read
  | mark
  | count
  deriving DecidableEq

structure State where
  nodes : OrdMap Bytes Node
  goroutines : OrdMap Bytes Stage
  next : ℕ
  /-- A goroutine has followed a `nil`. -/
  crashed : Bool

/-- `NewNodesMap`, with the nodes that it has reached. -/
def State.start (infos : OrdMap Bytes NodeInfo) : State where
  nodes := infos.map fun _ info => .new info 0
  goroutines := ∅
  next := 1
  crashed := false

inductive Step
  /-- A goroutine is started for each of the nodes. -/
  | tick
  /-- A heartbeat fails, or brings metrics. -/
  | heartbeat (id : Bytes) (blocksUsed : Option Int32)
  | read (id : Bytes)
  | mark (id : Bytes)
  | count (id : Bytes)
  /-- `AddNode`, which changes nothing where the node is not reached. -/
  | addNode (id : Bytes) (info : NodeInfo) (reached : Bool)
  | updateNodeInfo (id : Bytes) (info : NodeInfo)
  | removeNode (id : Bytes)

/-- The goroutine takes the node out of the map. -/
def State.access (id : Bytes) (stage : Stage) (use : Node → State) (s : State) : Option State :=
  if s.goroutines[id]? = some stage then
    match s.nodes[id]? with
    | some node => some (use node)
    | none => some { s with crashed := true }
  else none

/-- The metrics go to the object that the goroutine was given, be it still in the map or not. -/
def Node.receive (ref : ℕ) (blocksUsed : Int32) (node : Node) : Node :=
  if node.ref = ref then { node with blocksUsed := some blocksUsed } else node

def step (l : Step) (s : State) : Option State :=
  if s.crashed then none
  else
    match l with
    | .tick =>
      -- `wg.Wait` has returned
      if s.goroutines.isEmpty then
        some { s with goroutines := s.nodes.map fun _ node => .probe node.ref }
      else none
    | .heartbeat id res =>
      match s.goroutines[id]?, res with
      | some (.probe _), none => some { s with goroutines := s.goroutines.insert id .read }
      | some (.probe ref), some blocksUsed => some
        { s with
          nodes := s.nodes.modify id (Node.receive ref blocksUsed)
          goroutines := s.goroutines.erase id }
      | _, _ => none
    | .read id => s.access id .read fun node =>
      { s with
        goroutines := s.goroutines.insert id
          (if maxPingRetries ≤ node.pingRetries then .mark else .count) }
    | .mark id => s.access id .mark fun node =>
      { s with
        nodes := s.nodes.insert id { node with unavailable := true }
        goroutines := s.goroutines.insert id .count }
    | .count id => s.access id .count fun node =>
      { s with
        nodes := s.nodes.insert id { node with pingRetries := node.pingRetries + 1 }
        goroutines := s.goroutines.erase id }
    | .addNode id info true => some
      { s with nodes := s.nodes.insert id (.new info s.next), next := s.next + 1 }
    | .addNode _ _ false => some s
    | .updateNodeInfo id info => some
      { s with nodes := s.nodes.modify id fun node => { node with info } }
    | .removeNode id => some { s with nodes := s.nodes.erase id }

end Source

section History

/-- What the calls and the heartbeats so far amount to, for one node. -/
structure History where
  /-- It was added, and not removed since. -/
  listed : Bool
  /-- The heartbeats of the watch that have failed since one was last answered, here or in
  `AddNode`. -/
  inARow : ℕ
  /-- The last of these is not booked yet. -/
  waiting : Bool
  /-- The failures that have been booked since it was added. -/
  booked : ℕ
  /-- A heartbeat has succeeded since the first of these. -/
  broken : Bool
  deriving DecidableEq

def Step.about : Step → Option Bytes
  | .tick => none
  | .heartbeat id _ | .read id | .mark id | .count id | .addNode id _ _ | .updateNodeInfo id _
  | .removeNode id => some id

def History.after (h : History) : Step → History
  | .heartbeat _ none => { h with inARow := h.inARow + 1, waiting := true }
  | .heartbeat _ (some _) => { h with inARow := 0, broken := h.broken || 0 < h.booked }
  | .count _ => { h with waiting := false, booked := h.booked + 1 }
  | .addNode _ _ true => { h with listed := true, inARow := 0, booked := 0, broken := h.waiting }
  | .removeNode _ => { h with listed := false }
  | _ => h

/-- The history after a step, be it about the node or not. -/
def History.see (id : Bytes) (l : Step) (h : History) : History :=
  if l.about = some id then h.after l else h

/-- The state, and what has led to it. -/
structure Observed where
  state : State
  history : Bytes → History

def Observed.start (infos : OrdMap Bytes NodeInfo) : Observed where
  state := .start infos
  history id := ⟨infos.contains id, 0, false, 0, false⟩

def watch (l : Step) (o : Observed) : Option Observed :=
  (step l o.state).map fun s => ⟨s, fun id => (o.history id).see id l⟩

/-- No access was to a node that is not in the map, and a node is to be marked only if more than
`maxPingRetries` heartbeats to it have failed in a row. -/
structure Observed.Sound (o : Observed) : Prop where
  alive : o.state.crashed = false
  marks : ∀ id, o.state.goroutines[id]? = some .mark → maxPingRetries < (o.history id).inARow

/-- The node whose entry the step uses. -/
def Step.accesses : Step → Option Bytes
  | .read id | .mark id | .count id => some id
  | _ => none

/-- A node that is accessed is in the map. When a failure is looked at, and as many have been booked
as mark the node, no heartbeat has succeeded since the first of them. No node is added that is about
to be marked. -/
structure Observed.Fine (o : Observed) (l : Step) : Prop where
  listed : ∀ id ∈ l.accesses, (o.history id).listed = true
  unbroken : ∀ id, l = .read id → maxPingRetries ≤ (o.history id).booked →
    (o.history id).broken = false
  added : ∀ id info, l = .addNode id info true → o.state.goroutines[id]? ≠ some .mark

end History

section Local

/-- What a step does to the entry of one node, and to the goroutine for it. -/
inductive Local (id : Bytes) :
    Step → Option Node → Option Stage → Option Node → Option Stage → Prop
  | other {l node stage} (hl : l.about ≠ some id) (htick : l ≠ .tick) :
    Local id l node stage node stage
  | tick {node} : Local id .tick node none node (node.map fun node => .probe node.ref)
  | fail {node ref} : Local id (.heartbeat id none) node (some (.probe ref)) node (some .read)
  | answer {node ref blocksUsed} : Local id (.heartbeat id (some blocksUsed)) node
      (some (.probe ref)) (node.map (Node.receive ref blocksUsed)) none
  | read {node} : Local id (.read id) (some node) (some .read) (some node)
      (some (if maxPingRetries ≤ node.pingRetries then .mark else .count))
  | mark {node} : Local id (.mark id) (some node) (some .mark)
      (some { node with unavailable := true }) (some .count)
  | count {node} : Local id (.count id) (some node) (some .count)
      (some { node with pingRetries := node.pingRetries + 1 }) none
  | add {info node stage ref} : Local id (.addNode id info true) node stage
      (some (.new info ref)) stage
  | unreached {info node stage} : Local id (.addNode id info false) node stage node stage
  | update {info node stage} : Local id (.updateNodeInfo id info) node stage
      (node.map fun node => { node with info }) stage
  | remove {node stage} : Local id (.removeNode id) node stage none stage

variable {l : Step} {s s' : State}

theorem Local.of_about {i : Bytes} (hl : l.about = some i)
    (hi : Local i l s.nodes[i]? s.goroutines[i]? s'.nodes[i]? s'.goroutines[i]?)
    (hother : ∀ id, id ≠ i → s'.nodes[id]? = s.nodes[id]?
      ∧ s'.goroutines[id]? = s.goroutines[id]?) (id : Bytes) :
    Local id l s.nodes[id]? s.goroutines[id]? s'.nodes[id]? s'.goroutines[id]? := by
  by_cases hid : id = i
  · rw [hid]
    exact hi
  · rw [(hother id hid).1, (hother id hid).2]
    refine .other (fun he => hid ?_) fun he => ?_
    · exact (Option.some.inj (hl.symm.trans he)).symm
    · rw [he] at hl
      cases hl

theorem access_cases {id : Bytes} {stage : Stage} {use : Node → State}
    (h : s.access id stage use = some s') : s.goroutines[id]? = some stage
      ∧ (s.nodes[id]? = none ∧ s' = { s with crashed := true }
        ∨ ∃ node, s.nodes[id]? = some node ∧ s' = use node) := by
  unfold State.access at h
  split_ifs at h with hstage
  refine ⟨hstage, ?_⟩
  rcases hnode : s.nodes[id]? with _ | node <;> rw [hnode] at h
  · exact .inl ⟨rfl, (Option.some.inj h).symm⟩
  · exact .inr ⟨node, rfl, (Option.some.inj h).symm⟩

theorem step_cases (h : step l s = some s') : s.crashed = false
    ∧ ((∃ id ∈ l.accesses, s.nodes[id]? = none) ∧ s' = { s with crashed := true }
      ∨ s'.crashed = false
        ∧ ∀ id, Local id l s.nodes[id]? s.goroutines[id]? s'.nodes[id]? s'.goroutines[id]?) := by
  rcases hcrashed : s.crashed with _ | _
  swap
  · rw [step.eq_def, if_pos hcrashed] at h
    cases h
  rw [step.eq_def, if_neg (Bool.eq_false_iff.mp hcrashed)] at h
  refine ⟨rfl, ?_⟩
  cases l with
  | tick =>
    dsimp only at h
    split_ifs at h with hempty
    obtain rfl := Option.some.inj h
    refine .inr ⟨hcrashed, fun id => ?_⟩
    rw [Std.ExtTreeMap.isEmpty_iff.mp hempty]
    dsimp only
    rw [Std.ExtTreeMap.getElem?_map, show (∅ : OrdMap Bytes Stage)[id]? = none by simp]
    exact .tick
  | heartbeat id res =>
    dsimp only at h
    split at h
    · rename_i hstage
      obtain rfl := Option.some.inj h
      refine .inr ⟨hcrashed, .of_about rfl ?_ fun i hi => ⟨rfl, ?_⟩⟩
      · rw [hstage]
        dsimp only
        rw [OrdMap.get_insert, if_pos rfl]
        exact .fail
      · exact OrdMap.get_insert_of_ne hi.symm _
    · rename_i hstage
      obtain rfl := Option.some.inj h
      refine .inr ⟨hcrashed, .of_about rfl ?_ fun i hi => ⟨?_, ?_⟩⟩
      · rw [hstage]
        dsimp only
        rw [OrdMap.get_modify, if_pos rfl, OrdMap.get_erase, if_pos rfl]
        exact .answer
      · exact OrdMap.get_modify_of_ne hi.symm _
      · exact OrdMap.get_erase_of_ne hi.symm
    · cases h
  | read id =>
    obtain ⟨hstage, ⟨hnone, rfl⟩ | ⟨node, hnode, rfl⟩⟩ := access_cases h
    · exact .inl ⟨⟨id, rfl, hnone⟩, rfl⟩
    · refine .inr ⟨hcrashed, .of_about rfl ?_ fun i hi => ⟨rfl, ?_⟩⟩
      · rw [hstage]
        dsimp only
        rw [hnode, OrdMap.get_insert, if_pos rfl]
        exact .read
      · exact OrdMap.get_insert_of_ne hi.symm _
  | mark id =>
    obtain ⟨hstage, ⟨hnone, rfl⟩ | ⟨node, hnode, rfl⟩⟩ := access_cases h
    · exact .inl ⟨⟨id, rfl, hnone⟩, rfl⟩
    · refine .inr ⟨hcrashed, .of_about rfl ?_ fun i hi => ⟨?_, ?_⟩⟩
      · rw [hstage, hnode]
        dsimp only
        rw [OrdMap.get_insert, if_pos rfl, OrdMap.get_insert, if_pos rfl]
        exact .mark
      · exact OrdMap.get_insert_of_ne hi.symm _
      · exact OrdMap.get_insert_of_ne hi.symm _
  | count id =>
    obtain ⟨hstage, ⟨hnone, rfl⟩ | ⟨node, hnode, rfl⟩⟩ := access_cases h
    · exact .inl ⟨⟨id, rfl, hnone⟩, rfl⟩
    · refine .inr ⟨hcrashed, .of_about rfl ?_ fun i hi => ⟨?_, ?_⟩⟩
      · rw [hstage, hnode]
        dsimp only
        rw [OrdMap.get_insert, if_pos rfl, OrdMap.get_erase, if_pos rfl]
        exact .count
      · exact OrdMap.get_insert_of_ne hi.symm _
      · exact OrdMap.get_erase_of_ne hi.symm
  | addNode id info reached =>
    cases reached with
    | true =>
      obtain rfl := Option.some.inj h
      refine .inr ⟨hcrashed, .of_about rfl ?_ fun i hi => ⟨?_, rfl⟩⟩
      · dsimp only
        rw [OrdMap.get_insert, if_pos rfl]
        exact .add
      · exact OrdMap.get_insert_of_ne hi.symm _
    | false =>
      obtain rfl := Option.some.inj h
      exact .inr ⟨hcrashed, .of_about rfl .unreached fun _ _ => ⟨rfl, rfl⟩⟩
  | updateNodeInfo id info =>
    obtain rfl := Option.some.inj h
    refine .inr ⟨hcrashed, .of_about rfl ?_ fun i hi => ⟨?_, rfl⟩⟩
    · dsimp only
      rw [OrdMap.get_modify, if_pos rfl]
      exact .update
    · exact OrdMap.get_modify_of_ne hi.symm _
  | removeNode id =>
    obtain rfl := Option.some.inj h
    refine .inr ⟨hcrashed, .of_about rfl ?_ fun i hi => ⟨?_, rfl⟩⟩
    · dsimp only
      rw [OrdMap.get_erase, if_pos rfl]
      exact .remove
    · exact OrdMap.get_erase_of_ne hi.symm

end Local

section Follows

variable {id : Bytes} {l : Step} {node node' : Option Node} {stage stage' : Option Stage}
variable {h : History}

/-- The failure that is being booked, if one is. -/
def pending : Option Stage → ℕ
  | some .read | some .mark | some .count => 1
  | _ => 0

/-- What the history says of the node and its goroutine. The failures of the count are the last
ones, and in a row as long as no heartbeat has succeeded since the first. -/
structure Follows (node : Option Node) (stage : Option Stage) (h : History) : Prop where
  listed : node.isSome = h.listed
  booked : ∀ n ∈ node, n.pingRetries = h.booked
  waiting : pending stage = h.waiting.toNat
  unbroken : h.broken = false → h.booked + pending stage ≤ h.inARow
  broken : h.broken = true → h.inARow < h.booked + pending stage

theorem History.see_self (hl : l.about = some id) : h.see id l = h.after l := if_pos hl

theorem Follows.step (hf : Follows node stage h) (hl : Local id l node stage node' stage') :
    Follows node' stage' (h.see id l) := by
  cases hl with
  | other hl =>
    rw [History.see, if_neg hl]
    exact hf
  | tick =>
    rw [History.see, if_neg (by rintro ⟨⟩)]
    have hstage : pending (node.map fun n => Stage.probe n.ref) = 0 := by cases node <;> rfl
    exact ⟨hf.listed, hf.booked, hstage ▸ hf.waiting, hstage ▸ hf.unbroken, hstage ▸ hf.broken⟩
  | fail =>
    rw [History.see_self rfl]
    refine ⟨hf.listed, hf.booked, rfl, fun hb => ?_, fun hb => ?_⟩
    · exact Nat.succ_le_succ (hf.unbroken hb)
    · exact Nat.succ_lt_succ (hf.broken hb)
  | answer =>
    rw [History.see_self rfl]
    refine ⟨?_, ?_, hf.waiting, fun hb => ?_, fun hb => ?_⟩
    · rw [Option.isSome_map]
      exact hf.listed
    · intro n hn
      obtain ⟨m, hm, rfl⟩ := Option.mem_map.mp hn
      refine Eq.trans ?_ (hf.booked m hm)
      rw [Node.receive]
      split_ifs <;> rfl
    · have hbooked : ¬ 0 < h.booked := of_decide_eq_false (Bool.or_eq_false_iff.mp hb).2
      exact Nat.le_of_not_lt hbooked
    · rcases Bool.or_eq_true_iff.mp hb with hb | hb
      · exact (Nat.zero_le _).trans_lt (hf.broken hb)
      · exact of_decide_eq_true hb
  | read =>
    rw [History.see_self rfl]
    have hstage : ∀ p : Prop, [Decidable p] →
        pending (some (if p then .mark else .count)) = pending (some .read) := by
      intro p _
      split_ifs <;> rfl
    refine ⟨hf.listed, hf.booked, ?_, ?_, ?_⟩
    all_goals rw [hstage]
    exacts [hf.waiting, hf.unbroken, hf.broken]
  | @mark m =>
    rw [History.see_self rfl]
    refine ⟨hf.listed, fun n hn => ?_, hf.waiting, hf.unbroken, hf.broken⟩
    rw [← Option.some.inj hn]
    exact hf.booked m rfl
  | @count m =>
    rw [History.see_self rfl]
    refine ⟨hf.listed, fun n hn => ?_, rfl, hf.unbroken, hf.broken⟩
    rw [← Option.some.inj hn]
    exact congrArg Nat.succ (hf.booked m rfl)
  | add =>
    rw [History.see_self rfl]
    -- a failure that waits was before the heartbeat of `AddNode`, and is booked on the new node
    have hwaiting := hf.waiting
    refine ⟨rfl, fun n hn => ?_, hwaiting, fun hb => ?_, fun hb => ?_⟩
    · obtain rfl := Option.some.inj hn
      rfl
    all_goals
      rw [show h.waiting = _ from hb] at hwaiting
      simp [History.after, hwaiting]
  | unreached =>
    rw [History.see_self rfl]
    exact hf
  | update =>
    rw [History.see_self rfl]
    refine ⟨?_, fun n hn => ?_, hf.waiting, hf.unbroken, hf.broken⟩
    · rw [Option.isSome_map]
      exact hf.listed
    · obtain ⟨m, hm, rfl⟩ := Option.mem_map.mp hn
      exact hf.booked m hm
  | remove =>
    rw [History.see_self rfl]
    exact ⟨rfl, by rintro n ⟨⟩, hf.waiting, hf.unbroken, hf.broken⟩

/-- A node is to be marked, and was already before the step, which may have added it again; or the
step has found out. -/
theorem Local.mark_cases (hl : Local id l node stage node' stage') (hmark : stage' = some .mark)
    (h : History) : stage = some .mark
        ∧ ((∃ info, l = .addNode id info true) ∨ (h.see id l).inARow = h.inARow)
      ∨ ∃ n, l = .read id ∧ node = some n ∧ stage = some .read
        ∧ maxPingRetries ≤ n.pingRetries := by
  cases hl with
  | other hl => exact .inl ⟨hmark, .inr (by rw [History.see, if_neg hl])⟩
  | tick => cases node <;> cases hmark
  | fail | answer | mark | count => cases hmark
  | read =>
    refine .inr ⟨_, rfl, rfl, rfl, ?_⟩
    by_contra hlt
    rw [if_neg hlt] at hmark
    cases hmark
  | add => exact .inl ⟨hmark, .inl ⟨_, rfl⟩⟩
  | unreached | update | remove =>
    exact .inl ⟨hmark, .inr (by rw [History.see_self rfl]; rfl)⟩

theorem Local.isSome_of_accesses (hl : Local id l node stage node' stage')
    (hid : id ∈ l.accesses) : node.isSome := by
  cases hl with
  | other hl =>
    cases l <;> cases hid
    all_goals exact absurd rfl hl
  | read | mark | count => rfl
  | _ => cases hid

theorem Local.read_cases (hl : Local id (.read id) node stage node' stage') :
    ∃ n, node = some n ∧ stage = some .read
      ∧ (maxPingRetries ≤ n.pingRetries → stage' = some .mark) := by
  cases hl with
  | other hl => exact absurd rfl hl
  | read => exact ⟨_, rfl, rfl, fun hle => by rw [if_pos hle]⟩

theorem Local.stage_of_add {info : NodeInfo}
    (hl : Local id (.addNode id info true) node stage node' stage') : stage' = stage := by
  cases hl <;> rfl

/-- As long as every mark is due, a count with a success in it does not get far: it is stopped when
it comes to `maxPingRetries`, or right after the success. -/
def Late (stage : Option Stage) (h : History) : Prop :=
  h.broken = true →
    match stage with
    | some .mark | some .count => h.booked < maxPingRetries
    | stage => h.booked ≤ maxPingRetries ∨ h.inARow ≤ pending stage

/-- A failure that is looked at when there is a success in the count does not mark the node. -/
theorem Late.booked_lt {n : Node} (hlate : Late (some .read) h)
    (hf : Follows (some n) (some .read) h)
    (hmark : maxPingRetries ≤ n.pingRetries → maxPingRetries < h.inARow)
    (hb : h.broken = true) : h.booked < maxPingRetries := by
  by_contra hle
  have hle : maxPingRetries ≤ h.booked := Nat.le_of_not_lt hle
  have hrow := hmark (by rwa [hf.booked n rfl])
  have hlt : h.inARow < h.booked + 1 := hf.broken hb
  have hmax : 1 ≤ maxPingRetries := by decide
  rcases hlate hb with hbooked | hone
  · omega
  · have hone : h.inARow ≤ 1 := hone
    omega

theorem Late.step (hlate : Late stage h) (hf : Follows node stage h)
    (hl : Local id l node stage node' stage')
    (hmark : stage' = some .mark → maxPingRetries < (h.see id l).inARow) :
    Late stage' (h.see id l) := by
  cases hl with
  | other hl =>
    rw [History.see, if_neg hl]
    exact hlate
  | tick =>
    rw [History.see, if_neg (by rintro ⟨⟩)]
    cases node <;> exact hlate
  | fail =>
    rw [History.see_self rfl]
    exact fun hb => (hlate hb).imp_right Nat.succ_le_succ
  | answer => exact fun _ => .inr (by rw [History.see_self rfl]; exact Nat.le_refl 0)
  | read =>
    rw [History.see_self rfl] at hmark ⊢
    intro hb
    have hlt := hlate.booked_lt hf (fun hle => hmark (by rw [if_pos hle])) hb
    split_ifs <;> exact hlt
  | count =>
    rw [History.see_self rfl]
    exact fun hb => .inl (hlate hb)
  | add =>
    rw [History.see_self rfl]
    intro _
    split
    · exact Nat.succ_pos 2
    · exact Nat.succ_pos 2
    · exact .inl (Nat.zero_le _)
  | mark | unreached | update | remove =>
    rw [History.see_self rfl]
    exact hlate

end Follows

section Sound

variable {o o' : Observed} {l : Step} {infos : OrdMap Bytes NodeInfo}

/-- The history says of every node what it says of one. -/
def Observed.Follows (o : Observed) : Prop :=
  ∀ id, Watch.Follows o.state.nodes[id]? o.state.goroutines[id]? (o.history id)

theorem follows_start : (Observed.start infos).Follows := by
  intro id
  have hstage : (∅ : OrdMap Bytes Stage)[id]? = none := by simp
  change Watch.Follows (infos.map fun _ info => Node.new info 0)[id]?
    (∅ : OrdMap Bytes Stage)[id]? _
  rw [hstage, Std.ExtTreeMap.getElem?_map]
  refine ⟨?_, fun n hn => ?_, rfl, fun _ => Nat.le_refl 0, by rintro ⟨⟩⟩
  · rw [Option.isSome_map]
    exact Std.ExtTreeMap.contains_eq_isSome_getElem?.symm
  · obtain ⟨info, -, rfl⟩ := Option.mem_map.mp hn
    rfl

/-- A step comes upon a node that is not there, or does to each node what it does to one. -/
theorem watch_cases (h : watch l o = some o') :
    (∃ id ∈ l.accesses, o.state.nodes[id]? = none) ∧ o'.state.crashed = true
      ∨ o'.state.crashed = false ∧ ∀ id, o'.history id = (o.history id).see id l
        ∧ Local id l o.state.nodes[id]? o.state.goroutines[id]? o'.state.nodes[id]?
          o'.state.goroutines[id]? := by
  obtain ⟨s, hs, rfl⟩ := Option.map_eq_some_iff.mp h
  rcases (step_cases hs).2 with ⟨hmissing, rfl⟩ | ⟨halive, hlocal⟩
  · exact .inl ⟨hmissing, rfl⟩
  · exact .inr ⟨halive, fun id => ⟨rfl, hlocal id⟩⟩

theorem Observed.Follows.step (hf : o.Follows) (h : watch l o = some o')
    (halive : o'.state.crashed = false) : o'.Follows := by
  rcases watch_cases h with ⟨-, hcrashed⟩ | ⟨-, hlocal⟩
  · cases halive.symm.trans hcrashed
  · intro id
    rw [(hlocal id).1]
    exact (hf id).step (hlocal id).2

theorem Observed.Sound.step (hs : o.Sound) (hf : o.Follows) (hfine : o.Fine l)
    (h : watch l o = some o') : o'.Sound := by
  rcases watch_cases h with ⟨⟨id, hid, hnone⟩, -⟩ | ⟨halive, hlocal⟩
  · have hlisted := (hf id).listed
    rw [hnone, hfine.listed id hid] at hlisted
    cases hlisted
  · refine ⟨halive, fun id hmark => ?_⟩
    rw [(hlocal id).1]
    rcases (hlocal id).2.mark_cases hmark (o.history id)
      with ⟨hstage, ⟨info, rfl⟩ | hrow⟩ | ⟨n, rfl, hn, hstage, hle⟩
    · exact absurd hstage (hfine.added id info rfl)
    · rw [hrow]
      exact hs.marks id hstage
    · have hbooked := (hf id).booked n hn
      have hrow := (hf id).unbroken (hfine.unbroken id rfl (hbooked ▸ hle))
      rw [hstage] at hrow
      rw [History.see_self rfl]
      exact (hbooked ▸ hle).trans_lt hrow

/-- Where the next state is as it should be, the step was. -/
theorem Observed.Fine.of_sound (hf : o.Follows)
    (hlate : ∀ id, Late o.state.goroutines[id]? (o.history id)) (h : watch l o = some o')
    (hs : o'.Sound) : o.Fine l := by
  rcases watch_cases h with ⟨-, hcrashed⟩ | ⟨-, hlocal⟩
  · cases hs.alive.symm.trans hcrashed
  · refine ⟨fun id hid => ?_, ?_, ?_⟩
    · rw [← (hf id).listed]
      exact (hlocal id).2.isSome_of_accesses hid
    · rintro id rfl hle
      obtain ⟨n, hn, hstage, hmark⟩ := (hlocal id).2.read_cases
      have hfollows := hf id
      have hlateid := hlate id
      have hrow := fun hle => hs.marks id (hmark hle)
      rw [hn, hstage] at hfollows
      rw [hstage] at hlateid
      rw [(hlocal id).1, History.see_self rfl] at hrow
      by_contra hb
      have hlt := hlateid.booked_lt hfollows hrow (Bool.eq_true_of_not_eq_false hb)
      exact absurd hle hlt.not_ge
    · rintro id info rfl hstage
      have hrow := hs.marks id ((hlocal id).2.stage_of_add.trans hstage)
      rw [(hlocal id).1, History.see_self rfl] at hrow
      exact absurd hrow (Nat.not_lt_zero _)

/-- Whatever nodes there are, come and go, whatever becomes of the heartbeats, and in whatever order
the steps are taken: no access is to a node that is not in the map, and a node is marked only after
more than `maxPingRetries` heartbeats to it have failed in a row, if and only if a node that is
accessed was not removed since it was added, a failure that is looked at when as many have been
booked since then comes with no success since the first of them, and no node is added that is about
to be marked. -/
theorem watchNodes_sound_iff (infos : OrdMap Bytes NodeInfo) (ls : List Step) :
    Along watch (fun l o => ∀ o' ∈ watch l o, o'.Sound) ls (.start infos)
      ↔ Along watch (fun l o => (watch l o).isSome → o.Fine l) ls (.start infos) := by
  constructor
  · refine Along.imp_of_invariant (I := fun o => o.Follows
      ∧ ∀ id, Late o.state.goroutines[id]? (o.history id)) ?_ ?_ ls ⟨follows_start, ?_⟩
    · rintro l o o' ⟨hf, hlate⟩ hs hstep
      have hs := hs o' hstep
      refine ⟨hf.step hstep hs.alive, fun id => ?_⟩
      rcases watch_cases hstep with ⟨-, hcrashed⟩ | ⟨-, hlocal⟩
      · cases hs.alive.symm.trans hcrashed
      · have hmarks := hs.marks id
        rw [(hlocal id).1] at hmarks ⊢
        exact (hlate id).step (hf id) (hlocal id).2 hmarks
    · rintro l o ⟨hf, hlate⟩ hs hsome
      obtain ⟨o', hstep⟩ := Option.isSome_iff_exists.mp hsome
      exact .of_sound hf hlate hstep (hs o' hstep)
    · rintro id ⟨⟩
  · refine Along.imp_of_invariant (I := fun o => o.Follows ∧ o.Sound) ?_ ?_ ls
      ⟨follows_start, rfl, fun id hid => ?_⟩
    · rintro l o o' ⟨hf, hs⟩ hfine hstep
      have hs' := hs.step hf (hfine (Option.isSome_of_mem hstep)) hstep
      exact ⟨hf.step hstep hs'.alive, hs'⟩
    · rintro l o ⟨hf, hs⟩ hfine o' hstep
      exact hs.step hf (hfine (Option.isSome_of_mem hstep)) hstep
    · rw [show (Observed.start infos).state.goroutines = ∅ from rfl] at hid
      simp at hid

section Counterexample

def oneNode : OrdMap Bytes NodeInfo := (∅ : OrdMap Bytes NodeInfo).insert [7]
  ⟨[7], [110], [97], [], .normal⟩

/-- The node goes when a heartbeat to it has failed. -/
def goesFailing : List Step := [.tick, .heartbeat [7] none, .removeNode [7], .read [7]]

/-- Every second heartbeat fails. -/
def failsEverySecond : List Step :=
  (List.replicate 3 [.tick, .heartbeat [7] none, .read [7], .count [7], .tick,
    .heartbeat [7] (some 0)]).flatten ++ [.tick, .heartbeat [7] none, .read [7], .mark [7]]

/-- The registry comes down; the node is marked after a single failure. -/
theorem not_sound_oneNode :
    (∃ o ∈ runSteps watch goesFailing (.start oneNode), o.state.crashed = true)
    ∧ ∃ o ∈ runSteps watch failsEverySecond (.start oneNode),
      (∃ node ∈ o.state.nodes.get? [7], node.unavailable = true)
        ∧ (o.history [7]).inARow = 1 := by
  decide +kernel

end Counterexample

end Sound

end Rhosus.Registry.Watch

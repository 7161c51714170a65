import Rhosus.Cluster.Poll
import Rhosus.Cluster.Steps

/-!
# Elections

The votes of the cluster are a poll (`Sys.poll`), which only elections and the two handlers touch.
`StartElection` makes a registry the leader on too little: half of the answers it happened to get,
or none, whatever has become of its term since. Where a winner has a majority of the cluster with
itself, in a term that it is still a candidate of, no vote goes out of a candidate's or leader's
own term, and no term goes back, a term has one leader (`election_safety`).

A request for a vote tells the candidate's term in place of the term of its last entry, so a vote
shows only that the candidate's log is as long as the voter's. It is up to date as well exactly if
its last entry is of no earlier term than the voter's (`granted_upToDate_iff`).
-/

namespace Rhosus.Cluster

variable {N : ℕ} {σ : Type} {env : Env σ} {s s' : Sys N σ} {i j : Fin N}

def Node.ballot {ι : Type} (n : Node ι σ) : Ballot := ⟨n.currentTerm, n.state, n.lastVotedTerm⟩

def Sys.poll (s : Sys N σ) : Poll N := ⟨fun i => (s.nodes i).ballot, s.elections, s.voteCalls⟩

section Frame

theorem Sys.poll_setNode (s : Sys N σ) (i : Fin N) (n : Node (Fin N) σ) : (s.setNode i n).poll
    = { s.poll with ballots := Function.update s.poll.ballots i n.ballot } := by
  simp only [poll, setNode, Poll.mk.injEq, and_self, and_true]
  funext j
  exact Function.apply_update (fun _ => Node.ballot) s.nodes i n j

theorem Sys.poll_setNode_same {n : Node (Fin N) σ} (h : n.ballot = (s.nodes i).ballot) :
    (s.setNode i n).poll = s.poll := by
  rw [poll_setNode, h]
  exact congrArg (Poll.mk · _ _) (Function.update_eq_self i s.poll.ballots)

/-- The steps of writing, dispatching and recovering. -/
def Label.replicates : Label N → Bool
  | .write .. | .tick .. | .advance _ | .answer _ | .error _ => true
  | _ => false

theorem Stepped.poll {l : Label N} (h : Stepped env s l s') (hl : l.replicates = true) :
    s'.poll = s.poll := by
  cases h with
  | startElection | promote | deliverVote | deliverAppend => cases hl
  | election el hcounts => cases l <;> simp [Label.counts, Label.replicates] at hcounts hl
  | write r n hw =>
    obtain ⟨wal, li, lt, peers, pipeline, rfl⟩ := writeEntry_eq hw
    exact Sys.poll_setNode_same rfl
  | tick => rfl
  | @proc _ _ p i j stage stage' n new _ h =>
    obtain ⟨peers, wal, hn⟩ := h.node
    rw [h.eq, hn]
    exact Sys.poll_setNode_same (s := s) (i := i) rfl

end Frame

section Steps

theorem appendEntries_ballot {ι : Type} {n n' : Node ι σ} {req : AppendEntriesRequest ι}
    {res : AppendEntriesResponse ι} (h : appendEntries env n req = some (res, n')) :
    n'.ballot = (n.heed req).ballot := by
  rcases appendEntries_cases h with ⟨-, rfl, -⟩ | ⟨-, -, r, hw, -⟩
  · rfl
  · obtain ⟨wal, storage, li, lt, rfl⟩ := writeEntriesFromLeader_eq hw
    rfl

theorem others_nodup (i : Fin N) : (others i).Nodup := (List.nodup_finRange N).filter _

theorem ne_of_mem_others (h : j ∈ others i) : j ≠ i := by
  simpa using (List.mem_filter.mp h).2

theorem Safe.startElection (h : Safe s.poll) (hwrap : (s.nodes i).currentTerm < 2 ^ 32 - 1)
    (hs : s.startElection i = some s') : Safe s'.poll := by
  unfold Sys.startElection at hs
  split_ifs at hs
  obtain rfl := Option.some.inj hs
  have hterm := (s.nodes i).campaign_currentTerm hwrap
  have hcamp := h.enter i (s.nodes i).campaign.currentTerm .candidate
    (by rw [hterm]; exact Nat.le_succ _) (.inr ⟨rfl, by rw [hterm]; exact Nat.lt_succ_self _⟩)
  change Safe { (s.setNode i (s.nodes i).campaign).poll with
    elections := Function.update s.elections i _
    calls := s.voteCalls ++ _ }
  rw [Sys.poll_setNode]
  refine hcamp.openElection i (fun c hc => ?_) ?_
  · obtain ⟨j, hj, rfl⟩ := List.mem_map.mp hc
    exact ⟨rfl, ne_of_mem_others hj, rfl, rfl⟩
  · rw [List.map_map]
    exact (List.map_id (others i)).symm ▸ others_nodup i

theorem Safe.voteAnswer {k : ℕ} (h : Safe s.poll) (hs : s.voteAnswer i k = some s') :
    Safe s'.poll := by
  unfold Sys.voteAnswer at hs
  split at hs
  · rename_i el src dst req own res hel hc
    have hcounted := h.counted i el hel
    split_ifs at hs with hk hg
    · obtain rfl := Option.some.inj hs
      refine h.setElection i fun e he => ?_
      obtain rfl := Option.some.inj he
      exact hcounted.count hk hc ⟨res, rfl, hg⟩ _
    · obtain rfl := Option.some.inj hs
      refine h.setElection i fun e he => ?_
      obtain rfl := Option.some.inj he
      exact ⟨(hcounted.erase k).waiting, (hcounted.erase k).targets, (hcounted.erase k).votes⟩
  · cases hs

theorem Safe.voteError {k : ℕ} (h : Safe s.poll) (hs : s.voteError i k = some s') :
    Safe s'.poll := by
  unfold Sys.voteError at hs
  split at hs
  · rename_i el hel
    split_ifs at hs with hk
    obtain rfl := Option.some.inj hs
    refine h.setElection i fun e he => ?_
    obtain rfl := Option.some.inj he
    exact (h.counted i el hel).erase k
  · cases hs

theorem Safe.tally (h : Safe s.poll) (hmaj : ∀ el ∈ s.elections i, wins el.responded el.voted →
    (s.nodes i).state = .candidate ∧ (s.nodes i).currentTerm = el.term ∧ N < 2 * (el.voted + 1))
    (hs : s.tally i = some s') : Safe s'.poll := by
  unfold Sys.tally at hs
  split at hs
  · rename_i term responded voted hel
    dsimp only at hs
    split_ifs at hs with hw
    · obtain rfl := Option.some.inj hs
      obtain ⟨hstate, hterm, hcard⟩ := hmaj _ hel hw
      rw [Sys.poll_setNode]
      exact (h.promote hel hstate hterm hcard).setElection i fun e he => by cases he
    · obtain rfl := Option.some.inj hs
      exact h.setElection i fun e he => by cases he
  · cases hs

theorem Safe.deliverVote {k : ℕ} (h : Safe s.poll) (hown : ∀ c ∈ s.voteCalls[k]?,
    Passes (s.nodes c.dst) c.req →
      (s.nodes c.dst).currentTerm = c.req.term → (s.nodes c.dst).state = .follower)
    (hs : s.deliverVote k = some s') : Safe s'.poll := by
  unfold Sys.deliverVote at hs
  split at hs
  · rename_i src dst req own hc
    obtain rfl := Option.some.inj hs
    have hown := hown _ hc
    change Safe { (s.setNode dst (requestVote (s.nodes dst) req).2).poll with
      calls := s.voteCalls.set k ⟨src, dst, req, own, some (requestVote (s.nodes dst) req).1⟩ }
    rcases requestVote_cases (s.nodes dst) req with ⟨hres, hn⟩ | ⟨hres, hle, hne, hn⟩
    · have hraise : Safe (s.setNode dst ((s.nodes dst).raise req)).poll := by
        unfold Node.raise
        split_ifs with hlt
        · rw [Sys.poll_setNode]
          exact h.enter dst _ _ hlt.le (.inl rfl)
        · rwa [Sys.poll_setNode_same rfl]
      rw [hn]
      exact hraise.decline hc rfl hres
    · have hballot : (requestVote (s.nodes dst) req).2.ballot =
          ⟨req.term, .follower, req.term⟩ := by
        rw [hn, Node.raise]
        split_ifs with hlt
        · rfl
        · have := hown ((requestVote_granted _ _).mp hres) (by dsimp only; omega)
          simp only [Node.ballot, Ballot.mk.injEq, true_and, and_true]
          exact this
      rw [Sys.poll_setNode, hballot]
      exact h.grant hc rfl _ hle hne
  · cases hs

theorem Safe.deliverAppend {k : ℕ} (h : Safe s.poll) (hfwd : ∀ c ∈ s.appendCalls[k]?,
    ¬ Overtakes (.appendEntries c.req) (s.nodes c.dst))
    (hs : s.deliverAppend env k = some s') : Safe s'.poll := by
  unfold Sys.deliverAppend at hs
  split at hs
  · rename_i src dst req hc
    have hle := Node.heed_currentTerm_le (hfwd _ hc)
    split at hs
    · rename_i res n ha
      obtain rfl := Option.some.inj hs
      change Safe (s.setNode dst n).poll
      have hb := appendEntries_ballot ha
      unfold Node.heed at hle hb
      split_ifs at hle hb
      · rw [Sys.poll_setNode, hb]
        exact h.enter dst _ _ hle (.inl rfl)
      · rwa [Sys.poll_setNode_same hb]
    · cases hs
  · cases hs

end Steps

section Safety

/-- What elections rest on. Terms do not wrap around or go back; a winner has a majority with
itself, in a term that it is still a candidate of; and a candidate or leader is asked for no vote
in its own term that it has not given away yet. -/
def Proper (l : Label N) (s : Sys N σ) : Prop :=
  match l with
  | .startElection i => (s.nodes i).currentTerm < 2 ^ 32 - 1
  | .tally i => ∀ el ∈ s.elections i, wins el.responded el.voted →
    (s.nodes i).state = .candidate ∧ (s.nodes i).currentTerm = el.term ∧ N < 2 * (el.voted + 1)
  | .deliverVote k => ∀ c ∈ s.voteCalls[k]?, Passes (s.nodes c.dst) c.req →
    (s.nodes c.dst).currentTerm = c.req.term → (s.nodes c.dst).state = .follower
  | .deliverAppend k => ∀ c ∈ s.appendCalls[k]?,
    ¬ Overtakes (.appendEntries c.req) (s.nodes c.dst)
  | _ => True

instance (l : Label N) (s : Sys N σ) : Decidable (Proper l s) := by
  cases l <;> unfold Proper <;> infer_instance

theorem Safe.step {l : Label N} (h : Safe s.poll) (hl : Proper l s)
    (hs : step env l s = some s') : Safe s'.poll := by
  cases l with
  | startElection i => exact h.startElection hl hs
  | voteAnswer i k => exact h.voteAnswer hs
  | voteError i k => exact h.voteError hs
  | tally i => exact h.tally hl hs
  | deliverVote k => exact h.deliverVote hl hs
  | deliverAppend k => exact h.deliverAppend hl hs
  | write | tick | advance | answer | error => rwa [(stepped hs).poll rfl]

theorem safe_init (storage : σ) : Safe (Sys.init storage : Sys N σ).poll where
  voted _ := le_rfl
  past c hc := by cases hc
  unique c hc := by cases hc
  own c hc := by cases hc
  other c hc := by cases hc
  counted i el hel := by cases hel
  leader i hi := by cases hi

/-- In a run whose steps are proper, no two registries lead in one term. -/
theorem election_safety (env : Env σ) (storage : σ) (ls : List (Label N))
    (hproper : Along (step env) Proper ls (Sys.init storage))
    (hrun : runSteps (step env) ls (Sys.init storage) = some s) (i j : Fin N)
    (hi : (s.nodes i).state = .leader) (hj : (s.nodes j).state = .leader)
    (ht : (s.nodes i).currentTerm = (s.nodes j).currentTerm) : i = j :=
  (Along.invariant (I := fun s => Safe s.poll) (fun _ _ _ h hl hs => h.step hl hs) ls
    (safe_init storage) hproper hrun).leader_unique hi hj ht

/-- Of three registries, the first gets the vote of the second, and the third hears nothing. -/
def oneLeader : List (Label 3) :=
  [.startElection 0, .deliverVote 0, .voteAnswer 0 0, .voteError 0 1, .tally 0]

theorem election_safety_oneLeader : ∃ s, runSteps (step plain) oneLeader (Sys.init ()) = some s
    ∧ (s.nodes 0).state = .leader ∧ ∀ j, (s.nodes j).state = .leader →
      (s.nodes 0).currentTerm = (s.nodes j).currentTerm → 0 = j := by
  obtain ⟨s, hrun⟩ : ∃ s, runSteps (step plain) oneLeader (Sys.init ()) = some s :=
    Option.isSome_iff_exists.mp (by decide +kernel)
  have hlead : (runSteps (step plain) oneLeader (Sys.init ())).map (fun s => (s.nodes 0).state)
      = some .leader := by decide +kernel
  rw [hrun] at hlead
  have hlead := Option.some.inj hlead
  exact ⟨s, hrun, hlead, fun j hj ht =>
    election_safety plain () oneLeader (by decide +kernel) hrun 0 j hlead hj ht⟩

/-- Two registries whose requests for votes do not reach each other. -/
def twoLeaders : List (Label 2) :=
  [.startElection 0, .startElection 1, .voteError 0 0, .voteError 1 1, .tally 0, .tally 1]

/-- Both become the leader of term 1. -/
theorem two_leaders : (runSteps (step plain) twoLeaders (Sys.init ())).map
    (fun s => ((s.nodes 0).state, (s.nodes 1).state, (s.nodes 0).currentTerm,
      (s.nodes 1).currentTerm)) = some (.leader, .leader, 1, 1) := by
  decide +kernel

end Safety

section Logs

/-- A log that ends in the term and at the index `own` is as up to date as one that ends at
`other`. -/
def UpToDate (own other : ℕ × ℕ) : Prop := other.1 < own.1 ∨ other.1 = own.1 ∧ other.2 ≤ own.2

instance (own other : ℕ × ℕ) : Decidable (UpToDate own other) :=
  inferInstanceAs (Decidable (_ ∨ _))

/-- A vote that the step grants goes to a candidate whose log was up to date when it asked. -/
def GrantsUpToDate (l : Label N) (s : Sys N σ) : Prop :=
  match l with
  | .deliverVote k => ∀ c ∈ s.voteCalls[k]?, (requestVote (s.nodes c.dst) c.req).1.voteGranted →
    UpToDate c.own ((s.nodes c.dst).lastLogTerm, (s.nodes c.dst).lastLogIndex)
  | _ => True

/-- A request that is delivered and passes the checks is of a candidate whose last entry was of no
earlier term than the voter's. -/
def RecentTerm (l : Label N) (s : Sys N σ) : Prop :=
  match l with
  | .deliverVote k => ∀ c ∈ s.voteCalls[k]?, Passes (s.nodes c.dst) c.req →
    (s.nodes c.dst).lastLogTerm ≤ c.own.1
  | _ => True

instance (l : Label N) (s : Sys N σ) : Decidable (GrantsUpToDate l s) := by
  cases l <;> unfold GrantsUpToDate <;> infer_instance

/-- The requests for votes tell the candidate's last index. -/
def TellIndex (s : Sys N σ) : Prop := ∀ c ∈ s.voteCalls, c.req.lastLogIndex = c.own.2

theorem TellIndex.step {l : Label N} (h : TellIndex s) (hs : step env l s = some s') :
    TellIndex s' := by
  cases stepped hs with
  | startElection el calls hcalls =>
    intro c hc
    rcases List.mem_append.mp hc with hc | hc
    · exact h c hc
    · rw [(hcalls c hc).1, (hcalls c hc).2]
      rfl
  | deliverVote c hc =>
    intro c' hc'
    rcases List.mem_or_eq_of_mem_set hc' with hc' | rfl
    · exact h c' hc'
    · exact h c (List.mem_of_getElem? hc)
  | election | promote | deliverAppend | write | tick => exact h
  | proc _ hw =>
    rw [hw.eq]
    exact h

theorem TellIndex.granted_iff (h : TellIndex s) (l : Label N) :
    GrantsUpToDate l s ↔ RecentTerm l s := by
  cases l with
  | deliverVote k =>
    refine forall₂_congr fun c hc => imp_congr_ctx (requestVote_granted _ _) fun hpass => ?_
    have hindex := h c (List.mem_of_getElem? hc)
    obtain ⟨-, -, hlen, -⟩ := hpass
    unfold UpToDate
    dsimp only
    omega
  | _ => exact Iff.rfl

/-- In any run, every vote goes to a candidate whose log was up to date exactly if every request
that passes the checks is of a candidate whose last entry is recent enough. -/
theorem granted_upToDate_iff (env : Env σ) (storage : σ) (ls : List (Label N)) :
    Along (step env) GrantsUpToDate ls (Sys.init storage)
      ↔ Along (step env) RecentTerm ls (Sys.init storage) := by
  have hinit : TellIndex (Sys.init storage : Sys N σ) := fun c hc => by cases hc
  constructor
  · exact Along.imp_of_invariant (fun _ _ _ h _ hs => h.step hs)
      (fun l s h => (h.granted_iff l).mp) ls hinit
  · exact Along.imp_of_invariant (fun _ _ _ h _ hs => h.step hs)
      (fun l s h => (h.granted_iff l).mpr) ls hinit

/-- The first registry leads in term 1 and writes an entry, then the second in term 2; neither
entry is sent. The first asks for votes again in term 3. -/
def oldLogWins : List (Label 2) :=
  [.startElection 0, .deliverVote 0, .voteAnswer 0 0, .tally 0,
    .write 0 .assignFile Payload.empty 0 true [1],
    .startElection 1, .deliverVote 1, .voteAnswer 1 1, .tally 1,
    .write 1 .assignFile Payload.empty 0 true [0],
    .startElection 0, .deliverVote 2]

/-- The second, whose last entry is of term 2, votes for the first, whose last is of term 1. -/
theorem not_grantsUpToDate_oldLogWins :
    ¬ Along (step plain) GrantsUpToDate oldLogWins (Sys.init ()) := by
  decide +kernel

end Logs

end Rhosus.Cluster

import Rhosus.Cluster.Election

/-!
# One election

`StartElection` on one registry, from its vote requests to the count, while its handlers go on. The
count looks at the answers alone: it makes a leader of a registry that a handler has made a
follower since, or that has moved on to another term, and it sets the votes against half of the
answers, rounded down, where the cluster is all the peers and the registry itself. So a leader has
won, as a candidate of the term it asked for votes in, if and only if no request has deposed it
meanwhile and at least half of its peers have voted for it (`leader_won_iff`).
-/

namespace Rhosus.Cluster

variable {ι σ : Type} (env : Env σ)

/-- A request that a registry gets during its election. Entries of which the handler is still held
up by its signal to `LoopReadEntries`, which has room for 50, have been heeded all the same. -/
inductive Incoming (ι : Type)
  | requestVote (req : RequestVoteRequest ι)
  | appendEntries (req : AppendEntriesRequest ι)
  | heldUp (req : AppendEntriesRequest ι)

def Incoming.handle : Incoming ι → Node ι σ → Option (Node ι σ)
  | .requestVote req, n => some (Cluster.requestVote n req).2
  | .appendEntries req, n => (Cluster.appendEntries env n req).map Prod.snd
  | .heldUp req, n => some (n.heed req)

/-- The `int32` counter that has been raised `n` times. -/
def toInt32 (n : ℕ) : ℤ := Int.bmod n (2 ^ 32)

/-- What `sendVoteRequest` gives for each of the peers: nothing where there is an error. -/
abbrev Answers (ι : Type) := List (Option (RequestVoteResponse ι))

def Answers.responded (answers : Answers ι) : ℕ := answers.countP Option.isSome

def Answers.voted (answers : Answers ι) : ℕ :=
  answers.countP (·.any RequestVoteResponse.voteGranted)

/-- The peers, and the registry itself. -/
def Answers.memberCount (answers : Answers ι) : ℕ := answers.length + 1

/-- The answers fall short of what `StartElection` wants. -/
def Answers.Short (answers : Answers ι) : Prop :=
  1 ≤ toInt32 answers.responded
    ∧ toInt32 answers.voted < (toInt32 answers.responded).tdiv 2

instance (answers : Answers ι) : Decidable answers.Short :=
  inferInstanceAs (Decidable (_ ∧ _))

/-- The end of `StartElection`. -/
def Node.count (answers : Answers ι) (n : Node ι σ) : Node ι σ :=
  if toInt32 answers.responded < 1
      ∨ (toInt32 answers.responded).tdiv 2 ≤ toInt32 answers.voted then
    { n with state := .leader }
  else n

/-- `StartElection`, with the requests that are handled between the sending of its own and the
count. -/
def Node.startElection (reqs : List (Incoming ι)) (answers : Answers ι) (n : Node ι σ) :
    Option (Node ι σ) :=
  (runSteps (Incoming.handle env) reqs n.campaign).map (Node.count answers)

/-- The registry is still a candidate of the term it asked for votes in, and the votes with its own
are a majority of the cluster. -/
structure Won (reqs : List (Incoming ι)) (answers : Answers ι) (n : Node ι σ) : Prop where
  candidate : ∃ m, runSteps (Incoming.handle env) reqs n.campaign = some m
    ∧ m.state = .candidate ∧ m.currentTerm = n.campaign.currentTerm
  majority : answers.memberCount < 2 * (answers.voted + 1)

section Count

variable {N : ℕ} {s s' : Sys N σ} {i : Fin N} {answers : Answers ι}

theorem toInt32_of_lt {n : ℕ} (h : n < 2 ^ 31) : toInt32 n = n := by
  unfold toInt32
  rw [Int.bmod_def]
  omega

theorem Node.count_eq (n : Node ι σ) :
    n.count answers = if answers.Short then n else { n with state := .leader } := by
  have hwanted : (toInt32 answers.responded < 1
      ∨ (toInt32 answers.responded).tdiv 2 ≤ toInt32 answers.voted) ↔ ¬ answers.Short := by
    unfold Answers.Short
    omega
  rw [count, if_congr hwanted rfl rfl, ite_not]

/-- The counters of the cluster's model are those of fewer than `2 ^ 31` peers. -/
theorem not_short_iff_wins (h : answers.length < 2 ^ 31) :
    ¬ answers.Short ↔ wins answers.responded answers.voted = true := by
  have hr : answers.responded ≤ answers.length := List.countP_le_length
  have hv : answers.voted ≤ answers.length := List.countP_le_length
  unfold Answers.Short wins
  rw [toInt32_of_lt (by omega), toInt32_of_lt (by omega), Int.tdiv_eq_ediv_of_nonneg (by omega)]
  simp only [Bool.or_eq_true, decide_eq_true_eq]
  omega

/-- The cluster's model counts as the registry does. -/
theorem Sys.tally_eq_count {answers : Answers (Fin N)} {el : Election}
    (h : s.tally i = some s') (hel : s.elections i = some el)
    (hr : el.responded = answers.responded) (hv : el.voted = answers.voted)
    (hpeers : answers.length < 2 ^ 31) : s'.nodes i = (s.nodes i).count answers := by
  obtain ⟨term, waiting, responded, voted⟩ := el
  obtain ⟨rfl, rfl⟩ : responded = answers.responded ∧ voted = answers.voted := ⟨hr, hv⟩
  unfold tally at h
  rw [hel] at h
  rcases waiting with _ | ⟨k, waiting⟩
  · dsimp only at h
    rw [Node.count_eq, ← ite_not, if_congr (not_short_iff_wins hpeers) rfl rfl]
    split_ifs at h ⊢
    · obtain rfl := Option.some.inj h
      exact Function.update_self i _ _
    · obtain rfl := Option.some.inj h
      rfl
  · cases h

end Count

section Requests

variable {env} {n n' : Node ι σ} {l : Incoming ι}

/-- The request makes a follower of the registry. -/
def Incoming.Deposes : Incoming ι → Node ι σ → Prop
  | .requestVote req, n => n.currentTerm < req.term
  | .appendEntries req, n | .heldUp req, n =>
    n.currentTerm < req.term ∨ PastEnd req.entries n.lastLogIndex

instance (l : Incoming ι) (n : Node ι σ) : Decidable (l.Deposes n) := by
  cases l <;> unfold Incoming.Deposes <;> infer_instance

theorem Node.heed_cases (n : Node ι σ) (req : AppendEntriesRequest ι) :
    (n.currentTerm < req.term ∨ PastEnd req.entries n.lastLogIndex)
        ∧ (n.heed req).state = .follower
      ∨ ¬ (n.currentTerm < req.term ∨ PastEnd req.entries n.lastLogIndex)
        ∧ (n.heed req).state = n.state ∧ (n.heed req).currentTerm = n.currentTerm := by
  unfold heed
  split_ifs with h
  · exact .inl ⟨h, rfl⟩
  · exact .inr ⟨h, rfl, rfl⟩

/-- A request deposes a registry, or leaves its state and its term as they are. -/
theorem Incoming.handle_cases (h : l.handle env n = some n') :
    l.Deposes n ∧ n'.state = .follower
      ∨ ¬ l.Deposes n ∧ n'.state = n.state ∧ n'.currentTerm = n.currentTerm := by
  cases l with
  | requestVote req =>
    obtain rfl := Option.some.inj h
    have hraise : n.currentTerm < req.term ∧ (n.raise req).state = .follower
        ∨ ¬ n.currentTerm < req.term ∧ n.raise req = n := by
      unfold Node.raise
      split_ifs with hlt
      · exact .inl ⟨hlt, rfl⟩
      · exact .inr ⟨hlt, rfl⟩
    rcases requestVote_cases n req with ⟨-, hn⟩ | ⟨-, hle, -, hn⟩ <;> rw [hn]
    · exact hraise.imp id fun ⟨hlt, hr⟩ => ⟨hlt, by rw [hr], by rw [hr]⟩
    · exact hraise.imp id fun ⟨hlt, hr⟩ => ⟨hlt, by rw [hr], le_antisymm (not_lt.mp hlt) hle⟩
  | appendEntries req =>
    obtain ⟨⟨res, n'⟩, happend, rfl⟩ := Option.map_eq_some_iff.mp h
    have hballot := appendEntries_ballot happend
    rw [show n'.state = (n.heed req).state from congrArg Ballot.state hballot,
      show n'.currentTerm = (n.heed req).currentTerm from congrArg Ballot.currentTerm hballot]
    exact n.heed_cases req
  | heldUp req =>
    obtain rfl := Option.some.inj h
    exact n.heed_cases req

theorem state_of_handled {reqs : List (Incoming ι)}
    (h : runSteps (Incoming.handle env) reqs n = some n') :
    n'.state = .follower ∨ n'.state = n.state := by
  refine runSteps_invariant (I := fun m => m.state = .follower ∨ m.state = n.state) ?_ reqs
    (.inr rfl) h
  intro l m m' hm hstep
  rcases Incoming.handle_cases hstep with ⟨-, hm'⟩ | ⟨-, hm', -⟩
  · exact .inl hm'
  · rwa [hm']

theorem candidate_iff : ∀ {reqs : List (Incoming ι)} {n : Node ι σ}, n.state = .candidate →
    runSteps (Incoming.handle env) reqs n = some n' →
    (n'.state = .candidate ∧ n'.currentTerm = n.currentTerm
      ↔ Along (Incoming.handle env) (fun l m => ¬ l.Deposes m) reqs n)
  | [], n, hn, h => by
    obtain rfl := Option.some.inj h
    exact iff_of_true ⟨hn, rfl⟩ trivial
  | l :: reqs, n, hn, h => by
    rw [runSteps] at h
    rw [Along]
    rcases hstep : l.handle env n with _ | m <;> rw [hstep] at h
    · cases h
    rcases Incoming.handle_cases hstep with ⟨hdeposes, hm⟩ | ⟨hkeeps, hm, hterm⟩
    · have hstate : n'.state = .follower := (state_of_handled h).elim id fun hm' => hm'.trans hm
      refine iff_of_false (fun hc => ?_) fun hc => hc.1 hdeposes
      exact absurd (hstate.symm.trans hc.1) (by decide)
    · rw [← hterm, candidate_iff (hm.trans hn) h, and_iff_right hkeeps]

end Requests

/-- For any answers and any requests meanwhile, a registry that ends as the leader has won its
election if and only if it does not end as one by its answers, or no request has deposed it and at
least half of its peers have voted for it. -/
theorem leader_won_iff (reqs : List (Incoming ι)) (answers : Answers ι) (n n' : Node ι σ)
    (h : n.startElection env reqs answers = some n') :
    (n'.state = .leader → Won env reqs answers n)
      ↔ answers.Short
        ∨ Along (Incoming.handle env) (fun l m => ¬ l.Deposes m) reqs n.campaign
          ∧ answers.length ≤ 2 * answers.voted := by
  obtain ⟨m, hrun, rfl⟩ := Option.map_eq_some_iff.mp h
  have hcandidate := candidate_iff (n := n.campaign) rfl hrun
  have hstate : m.state ≠ .leader := by
    rcases state_of_handled hrun with hm | hm <;> rw [hm]
    · decide
    · exact State.noConfusion
  rw [Node.count_eq]
  by_cases hshort : answers.Short
  · rw [if_pos hshort]
    exact iff_of_true (fun hm => absurd hm hstate) (.inl hshort)
  · rw [if_neg hshort, or_iff_right hshort, ← hcandidate]
    constructor
    · intro hwon
      obtain ⟨⟨m', hrun', hm'⟩, hmajority⟩ := hwon rfl
      obtain rfl := Option.some.inj (hrun.symm.trans hrun')
      unfold Answers.memberCount at hmajority
      exact ⟨hm', by omega⟩
    · rintro ⟨hm, hvoted⟩ -
      exact ⟨⟨m, hrun, hm⟩, by unfold Answers.memberCount; omega⟩

section Witness

/-- A candidate with two peers votes for another one in its term, and hears from an old leader. -/
def heardMeanwhile : List (Incoming ℕ) :=
  [.requestVote ⟨1, 2, 0, 1⟩, .appendEntries ⟨0, 1, 0, []⟩, .heldUp ⟨1, 2, -1, []⟩]

theorem leader_won_iff_heardMeanwhile :
    ∃ n', (Node.new 0 freshWal ()).startElection plain heardMeanwhile
        [some ⟨1, 0, true⟩, none] = some n' ∧ n'.state = .leader
      ∧ Won plain heardMeanwhile [some ⟨1, 0, true⟩, none] (Node.new 0 freshWal ()) := by
  obtain ⟨n', hrun⟩ : ∃ n', (Node.new 0 freshWal ()).startElection plain heardMeanwhile
      [some ⟨1, 0, true⟩, none] = some n' := Option.isSome_iff_exists.mp (by decide +kernel)
  have hlead : ((Node.new 0 freshWal ()).startElection plain heardMeanwhile
      [some ⟨1, 0, true⟩, none]).map Node.state = some .leader := by decide +kernel
  rw [hrun, Option.map_some, Option.some.injEq] at hlead
  exact ⟨n', hrun, hlead, (leader_won_iff plain heardMeanwhile _ _ n' hrun).mpr
    (.inr (by decide +kernel)) hlead⟩

/-- Two peers that do not answer; two that do, to a candidate that has gone over to a later term
since; and one of three that votes for it. -/
def undeserved : List (List (Incoming ℕ) × Answers ℕ) :=
  [([], [none, none]),
    ([.requestVote ⟨5, 2, 0, 5⟩], [some ⟨1, 0, true⟩, some ⟨2, 0, true⟩]),
    ([], [some ⟨1, 0, true⟩, some ⟨2, 0, false⟩, some ⟨3, 0, false⟩])]

/-- Each time a leader comes out that has not won. -/
theorem not_won_undeserved : undeserved.Forall fun l => ∃ n',
    (Node.new 0 freshWal ()).startElection plain l.1 l.2 = some n' ∧ n'.state = .leader
      ∧ ¬ Won plain l.1 l.2 (Node.new 0 freshWal ()) := by
  refine List.forall_iff_forall_mem.mpr fun l hl => ?_
  have hlead : ∀ l ∈ undeserved,
      ((Node.new 0 freshWal ()).startElection plain l.1 l.2).map Node.state = some .leader := by
    decide +kernel
  have hwon : ∀ l ∈ undeserved, ¬ l.2.memberCount < 2 * (l.2.voted + 1)
      ∨ (runSteps (Incoming.handle plain) l.1 (Node.new 0 freshWal ()).campaign).map Node.state
        ≠ some .candidate := by
    decide +kernel
  obtain ⟨n', hrun, hstate⟩ := Option.map_eq_some_iff.mp (hlead l hl)
  refine ⟨n', hrun, hstate, fun h => ?_⟩
  obtain ⟨m, hm, hcandidate, -⟩ := h.candidate
  rcases hwon l hl with hnot | hnot
  · exact hnot h.majority
  · exact hnot (by rw [hm, Option.map_some, hcandidate])

end Witness

end Rhosus.Cluster

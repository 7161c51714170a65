import Rhosus.Cluster.Node
import Rhosus.Lib.Runs

/-!
# Terms and votes of one registry

What each handler can do to a registry is said once, in `requestVote_cases` and
`appendEntries_cases`. A registry grants its vote in increasing terms (`grantedTerms_increasing`).
Its own term never decreases unless it is sent entries past the end of its log under an old term,
which it takes on before it declines them (`forward_iff`).
-/

namespace Rhosus.Cluster

variable {ι σ : Type} {env : Env σ} {n n' : Node ι σ}

section Cases

theorem Node.raise_lastVotedTerm (n : Node ι σ) (req : RequestVoteRequest ι) :
    (n.raise req).lastVotedTerm = n.lastVotedTerm := by
  unfold Node.raise
  split_ifs <;> rfl

theorem Node.raise_currentTerm (n : Node ι σ) (req : RequestVoteRequest ι) :
    (n.raise req).currentTerm = max n.currentTerm req.term := by
  unfold Node.raise
  split_ifs with h
  · exact (max_eq_right h.le).symm
  · exact (max_eq_left (not_lt.mp h)).symm

/-- The request passes every check that `RequestVote` makes. -/
def Passes (n : Node ι σ) (req : RequestVoteRequest ι) : Prop :=
  n.currentTerm ≤ req.term ∧ n.lastVotedTerm ≠ req.term
    ∧ n.lastLogIndex ≤ req.lastLogIndex ∧ n.lastLogTerm ≤ req.lastLogTerm

instance (n : Node ι σ) (req : RequestVoteRequest ι) : Decidable (Passes n req) :=
  inferInstanceAs (Decidable (_ ∧ _))

theorem requestVote_granted (n : Node ι σ) (req : RequestVoteRequest ι) :
    (requestVote n req).1.voteGranted = true ↔ Passes n req := by
  have hindex : (n.raise req).lastLogIndex = n.lastLogIndex := by
    unfold Node.raise
    split_ifs <;> rfl
  have hterm : (n.raise req).lastLogTerm = n.lastLogTerm := by
    unfold Node.raise
    split_ifs <;> rfl
  unfold requestVote Passes
  dsimp only
  rw [hindex, hterm, n.raise_lastVotedTerm]
  split_ifs <;> simp <;> omega

/-- A vote is declined, or granted to a candidate that is not behind, in a term not voted in. -/
theorem requestVote_cases (n : Node ι σ) (req : RequestVoteRequest ι) :
    (requestVote n req).1.voteGranted = false ∧ (requestVote n req).2 = n.raise req
    ∨ (requestVote n req).1.voteGranted = true ∧ n.currentTerm ≤ req.term
      ∧ n.lastVotedTerm ≠ req.term
      ∧ (requestVote n req).2
        = { n.raise req with currentTerm := req.term, lastVotedTerm := req.term } := by
  have hgranted := requestVote_granted n req
  rcases hg : (requestVote n req).1.voteGranted
  · refine .inl ⟨rfl, ?_⟩
    unfold requestVote at hg ⊢
    dsimp only at hg ⊢
    split_ifs at hg ⊢ <;> rfl
  · obtain ⟨hle, hne, -⟩ := hgranted.mp hg
    refine .inr ⟨rfl, hle, hne, ?_⟩
    unfold requestVote at hg ⊢
    dsimp only at hg ⊢
    split_ifs at hg ⊢
    rfl

theorem requestVote_eq (n : Node ι σ) (req : RequestVoteRequest ι) :
    ∃ state lastVotedTerm votedFor, (requestVote n req).2
      = { n with currentTerm := max n.currentTerm req.term, state, lastVotedTerm, votedFor } := by
  have hraise : ∃ state votedFor, n.raise req
      = { n with currentTerm := max n.currentTerm req.term, state, votedFor } := by
    unfold Node.raise
    split_ifs with h
    · rw [max_eq_right h.le]
      exact ⟨_, _, rfl⟩
    · rw [max_eq_left (not_lt.mp h)]
      exact ⟨_, _, rfl⟩
  obtain ⟨state, votedFor, hr⟩ := hraise
  rcases requestVote_cases n req with ⟨-, hn⟩ | ⟨-, hle, -, hn⟩
  · exact ⟨state, n.lastVotedTerm, votedFor, by rw [hn, hr]⟩
  · exact ⟨state, req.term, votedFor, by rw [hn, hr, max_eq_right hle]⟩

theorem Node.heed_eq (n : Node ι σ) (req : AppendEntriesRequest ι) :
    ∃ currentTerm state votedFor, n.heed req = { n with currentTerm, state, votedFor }
      ∧ (currentTerm = n.currentTerm ∨ currentTerm = req.term) := by
  unfold Node.heed
  split_ifs
  · exact ⟨_, _, _, rfl, .inr rfl⟩
  · exact ⟨n.currentTerm, n.state, n.votedFor, rfl, .inl rfl⟩

theorem Node.onWal_eq {α : Type} {m : Wal.WalM α} {r : Except Wal.Err α}
    (h : n.onWal m = some (r, n')) : ∃ wal, n' = { n with wal } := by
  unfold Node.onWal at h
  rcases hm : m n.wal with ⟨o, w⟩
  rw [hm] at h
  cases o <;> simp only [Option.some.injEq, Prod.mk.injEq, reduceCtorEq] at h
  all_goals exact ⟨w, h.2.symm⟩

theorem Node.onWal_ok {α : Type} {m : Wal.WalM α} {a : α} {wal : World Wal.Name Wal.WAL}
    (h : m n.wal = (.ok a, wal)) : n.onWal m = some (.ok a, { n with wal }) := by
  rw [Node.onWal, h]

theorem Node.onWal_err {α : Type} {m : Wal.WalM α} {e : Wal.Err} {wal : World Wal.Name Wal.WAL}
    (h : m n.wal = (.err e, wal)) : n.onWal m = some (.error e, { n with wal }) := by
  rw [Node.onWal, h]

theorem writeEntries_eq : ∀ (es : List Entry) {n n' : Node ι σ} {r : Except Err Unit},
    writeEntries env es n = some (r, n') →
      ∃ wal lastLogIndex lastLogTerm, n' = { n with wal, lastLogIndex, lastLogTerm }
  | [], n, n', r, h => by
    obtain ⟨-, rfl⟩ := Prod.mk.inj (Option.some.inj h)
    exact ⟨n.wal, n.lastLogIndex, n.lastLogTerm, rfl⟩
  | e :: es, n, n', r, h => by
    rw [writeEntries] at h
    rcases hw : n.onWal (Wal.write env.lru e.index e.marshal) with _ | ⟨_ | _, n₁⟩ <;> rw [hw] at h
    · cases h
    · obtain ⟨-, rfl⟩ := Prod.mk.inj (Option.some.inj h)
      obtain ⟨wal, rfl⟩ := Node.onWal_eq hw
      exact ⟨wal, n.lastLogIndex, n.lastLogTerm, rfl⟩
    · obtain ⟨wal, rfl⟩ := Node.onWal_eq hw
      obtain ⟨wal', i, t, rfl⟩ := writeEntries_eq es h
      exact ⟨wal', i, t, rfl⟩

theorem writeEntriesFromLeader_eq {es : List Entry} {r : Except Err Unit}
    (h : writeEntriesFromLeader env es n = some (r, n')) :
    ∃ wal storage lastLogIndex lastLogTerm,
      n' = { n with wal, storage, lastLogIndex, lastLogTerm } := by
  unfold writeEntriesFromLeader at h
  split_ifs at h
  · obtain ⟨wal, i, t, rfl⟩ := writeEntries_eq es h
    exact ⟨wal, _, i, t, rfl⟩
  · obtain ⟨-, rfl⟩ := Prod.mk.inj (Option.some.inj h)
    exact ⟨n.wal, n.storage, n.lastLogIndex, n.lastLogTerm, rfl⟩

/-- A request is declined for its term or for its place, or its entries are written. -/
theorem appendEntries_cases {req : AppendEntriesRequest ι} {res : AppendEntriesResponse ι}
    (h : appendEntries env n req = some (res, n')) :
    res.success = false ∧ n' = n.heed req
        ∧ (req.term < n.currentTerm ∨ toInt64 n.lastLogIndex < req.prevLogIndex)
      ∨ n.currentTerm ≤ req.term ∧ req.prevLogIndex ≤ toInt64 n.lastLogIndex
        ∧ ∃ r, writeEntriesFromLeader env req.entries (n.heed req) = some (r, n')
          ∧ (res.success = true ↔ r = .ok ()) := by
  unfold appendEntries at h
  dsimp only at h
  split_ifs at h with h1 h2
  · obtain ⟨rfl, rfl⟩ := Prod.mk.inj (Option.some.inj h)
    exact .inl ⟨rfl, rfl, .inl h1⟩
  · obtain ⟨rfl, rfl⟩ := Prod.mk.inj (Option.some.inj h)
    exact .inl ⟨rfl, rfl, .inr h2⟩
  · refine .inr ⟨not_lt.mp h1, not_lt.mp h2, ?_⟩
    rcases hw : writeEntriesFromLeader env req.entries (n.heed req) with _ | ⟨_ | _, n₁⟩ <;>
      rw [hw] at h
    · cases h
    · obtain ⟨rfl, rfl⟩ := Prod.mk.inj (Option.some.inj h)
      exact ⟨_, rfl, by simp⟩
    · obtain ⟨rfl, rfl⟩ := Prod.mk.inj (Option.some.inj h)
      exact ⟨_, rfl, by simp⟩

theorem writeToPeers_eq [DecidableEq ι] (es : List Entry) : ∀ (js : List ι) (n : Node ι σ),
    ∃ peers pipeline, (writeToPeers es js n).2 = { n with peers, pipeline }
  | [], n => ⟨n.peers, n.pipeline, rfl⟩
  | j :: js, n => by
    rw [writeToPeers]
    rcases writeBatch (n.peers j).buffer es with ⟨_ | _, b⟩
    · exact ⟨_, false, rfl⟩
    · obtain ⟨peers, pipeline, h⟩ :=
          writeToPeers_eq es js (n.setPeer j { n.peers j with buffer := b })
      exact ⟨peers, pipeline, h⟩

theorem handOver_eq [DecidableEq ι] (e : Entry) (timely : Bool) (order : List ι) (n : Node ι σ) :
    ∃ peers pipeline, (handOver e timely order n).2 = { n with peers, pipeline } := by
  unfold handOver
  split_ifs
  · exact writeToPeers_eq [e] order n
  · exact ⟨n.peers, n.pipeline, rfl⟩

theorem writeEntry_eq [DecidableEq ι] {typ : EntryType} {data : Bytes} {now : Int64}
    {timely : Bool} {order : List ι} {r : Except Err Unit}
    (h : writeEntry env typ data now timely order n = some (r, n')) :
    ∃ wal lastLogIndex lastLogTerm peers pipeline,
      n' = { n with wal, lastLogIndex, lastLogTerm, peers, pipeline } := by
  unfold writeEntry at h
  split_ifs at h
  · obtain ⟨-, rfl⟩ := Prod.mk.inj (Option.some.inj h)
    exact ⟨n.wal, n.lastLogIndex, n.lastLogTerm, n.peers, n.pipeline, rfl⟩
  · dsimp only at h
    split at h
    · cases h
    · rename_i hw
      obtain ⟨-, rfl⟩ := Prod.mk.inj (Option.some.inj h)
      obtain ⟨wal, rfl⟩ := Node.onWal_eq hw
      exact ⟨wal, n.lastLogIndex, n.currentTerm, n.peers, n.pipeline, rfl⟩
    · rename_i n₁ hw
      obtain ⟨wal, rfl⟩ := Node.onWal_eq hw
      obtain ⟨peers, pipeline, hp⟩ := handOver_eq (n.nextEntry typ data now) timely order _
      rw [Option.some.inj h] at hp
      exact ⟨wal, _, n.currentTerm, peers, pipeline, hp⟩

end Cases

section Votes

/-- What can make a registry's votes and term change, short of a leader's entries. -/
inductive VoteEvent (ι : Type)
  | requestVote (req : RequestVoteRequest ι)
  | startElection

def voteStep : VoteEvent ι → Node ι σ → Option (Node ι σ)
  | .requestVote req, n => some (requestVote n req).2
  | .startElection, n => some n.campaign

/-- The terms of the requests that are granted, in turn. -/
def grantedTerms : List (VoteEvent ι) → Node ι σ → List ℕ
  | [], _ => []
  | .requestVote req :: evs, n =>
    let (res, n') := requestVote n req
    if res.voteGranted then req.term :: grantedTerms evs n' else grantedTerms evs n'
  | .startElection :: evs, n => grantedTerms evs n.campaign

/-- The term is not the last one, where an election begins. -/
def NoWrap (ev : VoteEvent ι) (n : Node ι σ) : Prop :=
  match ev with
  | .requestVote _ => True
  | .startElection => n.currentTerm < 2 ^ 32 - 1

instance : ∀ (ev : VoteEvent ι) (n : Node ι σ), Decidable (NoWrap ev n)
  | .requestVote _, _ => inferInstanceAs (Decidable True)
  | .startElection, n => inferInstanceAs (Decidable (n.currentTerm < 2 ^ 32 - 1))

theorem Node.campaign_currentTerm (h : n.currentTerm < 2 ^ 32 - 1) :
    n.campaign.currentTerm = n.currentTerm + 1 :=
  Nat.mod_eq_of_lt (by omega)

/-- Votes are granted past the last term voted in, and each past the one before. -/
theorem grantedTerms_increasing : ∀ (evs : List (VoteEvent ι)) {n : Node ι σ},
    n.lastVotedTerm ≤ n.currentTerm → Along voteStep NoWrap evs n →
      (∀ t ∈ grantedTerms evs n, n.lastVotedTerm < t) ∧ (grantedTerms evs n).Pairwise (· < ·)
  | [], _, _, _ => ⟨by simp [grantedTerms], .nil⟩
  | .startElection :: evs, n, h, hw => by
    have hterm := n.campaign_currentTerm hw.1
    exact grantedTerms_increasing evs (n := n.campaign)
      (h.trans (by rw [hterm]; exact Nat.le_succ _)) hw.2
  | .requestVote req :: evs, n, h, hw => by
    rcases requestVote_cases n req with ⟨hres, hn⟩ | ⟨hres, hle, hne, hn⟩
    · have hrest := hw.2
      simp only [voteStep, hn] at hrest
      simp only [grantedTerms, hres, hn, Bool.false_eq_true, if_false]
      have := grantedTerms_increasing evs (n := n.raise req)
        (by rw [n.raise_lastVotedTerm, n.raise_currentTerm]; exact h.trans (le_max_left _ _)) hrest
      rwa [n.raise_lastVotedTerm] at this
    · have hrest := hw.2
      simp only [voteStep, hn] at hrest
      simp only [grantedTerms, hres, hn, if_true]
      obtain ⟨hall, hpair⟩ := grantedTerms_increasing evs
        (n := { n.raise req with currentTerm := req.term, lastVotedTerm := req.term }) le_rfl hrest
      have hlt : n.lastVotedTerm < req.term := lt_of_le_of_ne (h.trans hle) hne
      refine ⟨fun t ht => ?_, List.pairwise_cons.mpr ⟨hall, hpair⟩⟩
      rcases List.mem_cons.mp ht with rfl | ht
      · exact hlt
      · exact hlt.trans (hall t ht)

/-- A registry that has not voted past its term grants at most one vote in each term, and none in
a term below one it has granted. -/
theorem one_vote_per_term (evs : List (VoteEvent ι)) (n : Node ι σ)
    (h : n.lastVotedTerm ≤ n.currentTerm) (hw : Along voteStep NoWrap evs n) :
    (grantedTerms evs n).Pairwise (· < ·) :=
  (grantedTerms_increasing evs h hw).2

/-- A registry on which no request has been made yet, with nothing in its log. -/
def blank (id : Fin 2) : Node (Fin 2) Unit := .new id ⟨Wal.WAL.new Wal.defaultOptions, ∅, []⟩ ()

/-- A request made twice, then one for the term of an election of its own, and one for an old
term. -/
def someVotes : List (VoteEvent (Fin 2)) :=
  [.requestVote ⟨1, 1, 0, 1⟩, .requestVote ⟨1, 1, 0, 1⟩, .startElection,
    .requestVote ⟨2, 1, 0, 2⟩, .requestVote ⟨1, 1, 0, 1⟩]

theorem one_vote_per_term_blank : grantedTerms someVotes (blank 0) = [1, 2]
    ∧ (grantedTerms someVotes (blank 0)).Pairwise (· < ·) :=
  ⟨by decide +kernel, one_vote_per_term someVotes (blank 0) le_rfl (by decide +kernel)⟩

end Votes

section Forward

inductive Request (ι : Type)
  | requestVote (req : RequestVoteRequest ι)
  | appendEntries (req : AppendEntriesRequest ι)

variable (env)

def handle : Request ι → Node ι σ → Option (Node ι σ)
  | .requestVote req, n => some (requestVote n req).2
  | .appendEntries req, n => (appendEntries env n req).map Prod.snd

/-- The parts of a registry that a declined leader must leave as they are. -/
structure Node.Same (n n' : Node ι σ) : Prop where
  currentTerm : n'.currentTerm = n.currentTerm
  state : n'.state = n.state
  lastLogIndex : n'.lastLogIndex = n.lastLogIndex
  lastLogTerm : n'.lastLogTerm = n.lastLogTerm
  wal : n'.wal = n.wal
  storage : n'.storage = n.storage

/-- The request does not take the registry back to an earlier term, and entries sent under an
earlier term are declined without effect. -/
structure Forward (r : Request ι) (n : Node ι σ) : Prop where
  term : ∀ n', handle env r n = some n' → n.currentTerm ≤ n'.currentTerm
  declined : ∀ req, r = .appendEntries req → req.term < n.currentTerm →
    ∃ res n', appendEntries env n req = some (res, n') ∧ res.success = false ∧ n.Same n'

/-- Entries sent under an earlier term that go past the end of the log. -/
def Overtakes (r : Request ι) (n : Node ι σ) : Prop :=
  match r with
  | .requestVote _ => False
  | .appendEntries req => req.term < n.currentTerm ∧ PastEnd req.entries n.lastLogIndex

instance : ∀ (r : Request ι) (n : Node ι σ), Decidable (Overtakes r n)
  | .requestVote _, _ => inferInstanceAs (Decidable False)
  | .appendEntries _, _ => inferInstanceAs (Decidable (_ ∧ _))

variable {env}

theorem appendEntries_stale (env : Env σ) {req : AppendEntriesRequest ι}
    (h : req.term < n.currentTerm) :
    ∃ res, appendEntries env n req = some (res, n.heed req) ∧ res.success = false := by
  unfold appendEntries
  dsimp only
  rw [if_pos h]
  exact ⟨_, rfl, rfl⟩

theorem Node.heed_currentTerm_le {req : AppendEntriesRequest ι}
    (h : ¬ Overtakes (.appendEntries req) n) : n.currentTerm ≤ (n.heed req).currentTerm := by
  unfold Node.heed
  split_ifs with hh
  · rcases hh with hlt | hpast
    · exact hlt.le
    · exact not_lt.mp fun hlt => h ⟨hlt, hpast⟩
  · exact le_rfl

theorem appendEntries_currentTerm {req : AppendEntriesRequest ι} {res : AppendEntriesResponse ι}
    (h : appendEntries env n req = some (res, n')) :
    n'.currentTerm = (n.heed req).currentTerm := by
  rcases appendEntries_cases h with ⟨-, rfl, -⟩ | ⟨-, -, r, hw, -⟩
  · rfl
  · obtain ⟨wal, storage, i, t, rfl⟩ := writeEntriesFromLeader_eq hw
    rfl

theorem forward_of_not_overtakes {r : Request ι} (h : ¬ Overtakes r n) : Forward env r n := by
  cases r with
  | requestVote req =>
    refine ⟨fun n' hn => ?_, fun _ hr => by cases hr⟩
    obtain rfl := Option.some.inj hn
    rcases requestVote_cases n req with ⟨-, hn'⟩ | ⟨-, hle, -, hn'⟩
    · rw [hn', n.raise_currentTerm]
      exact le_max_left _ _
    · rw [hn']
      exact hle
  | appendEntries req =>
    constructor
    · intro n' hn
      obtain ⟨⟨res, n''⟩, ha, rfl⟩ := Option.map_eq_some_iff.mp hn
      rw [appendEntries_currentTerm ha]
      exact n.heed_currentTerm_le h
    · rintro _ ⟨rfl⟩ hlt
      obtain ⟨res, ha, hres⟩ := appendEntries_stale env hlt
      have hsame : n.heed req = n :=
        if_neg (not_or.mpr ⟨hlt.not_gt, fun hpast => h ⟨hlt, hpast⟩⟩)
      rw [hsame] at ha
      exact ⟨res, n, ha, hres, rfl, rfl, rfl, rfl, rfl, rfl⟩

theorem Overtakes.not_forward {r : Request ι} (h : Overtakes r n) : ¬ Forward env r n := by
  cases r with
  | requestVote req => exact h.elim
  | appendEntries req =>
    intro hf
    obtain ⟨res, ha, -⟩ := appendEntries_stale env h.1
    have hle := hf.term (n.heed req) (by simp [handle, ha])
    rw [Node.heed, if_pos (.inr h.2)] at hle
    exact hle.not_gt h.1

/-- Along any requests, terms go forward and declined leaders leave no trace exactly if no request
is one that overtakes the log under an earlier term. -/
theorem forward_iff (env : Env σ) (reqs : List (Request ι)) (n : Node ι σ) :
    Along (handle env) (Forward env) reqs n
      ↔ Along (handle env) (fun r n => ¬ Overtakes r n) reqs n :=
  Along.congr (fun _ _ => ⟨fun hf ho => ho.not_forward hf, forward_of_not_overtakes⟩) reqs n

/-- A registry that has taken on term 2 goes back to term 1 for an entry sent under it. -/
theorem not_forward_blank : ¬ Along (handle ⟨lruSet, fun _ s => s⟩) (Forward ⟨lruSet, fun _ s => s⟩)
    [.requestVote ⟨2, 1, 0, 2⟩, .appendEntries ⟨1, 1, 0, [⟨1, 1, 0, [], 0⟩]⟩] (blank 0) := by
  rintro ⟨-, hf, -⟩
  exact absurd hf (Overtakes.not_forward (by decide +kernel))

end Forward

end Rhosus.Cluster

import Rhosus.Cluster.Terms
import Rhosus.Cluster.Net

/-!
# What a step can do

Each step of the cluster, by what it leaves (`Stepped`). A goroutine that dispatches entries or
recovers a peer changes what its registry keeps for its peers and reads its log; it may make one
call, of entries out of the peer's buffer or out of the log. `Went` says that once for all the steps
of goroutines.
-/

namespace Rhosus.Cluster

variable {N : ℕ} {σ : Type} {env : Env σ} {s s' : Sys N σ} {p : ℕ} {i j : Fin N}

/-- The term a goroutine has read, and will call with. -/
def Stage.term : Stage → ℕ
  | .readTerm currentTerm | .readIndex currentTerm _ | .next _ currentTerm _
  | .resent _ currentTerm _ _ => currentTerm
  | .ticked | .started | .sent _ | .behind _ | .marked _ | .readLast _ _ | .done => 0

theorem Sys.forall_setNode {P : Fin N → Node (Fin N) σ → Prop} {n : Node (Fin N) σ} (hn : P i n)
    (h : ∀ v, P v (s.nodes v)) (v : Fin N) : P v ((s.setNode i n).nodes v) :=
  (Function.forall_update_iff s.nodes P).mpr ⟨hn, fun v _ => h v⟩ v

/-- Goroutine `p` of the registry `i` for the peer `j` goes from one stage to another. The registry
becomes `n`, and the calls in `new` are made. -/
structure Went (env : Env σ) (s s' : Sys N σ) (p : ℕ) (i j : Fin N) (stage stage' : Stage)
    (n : Node (Fin N) σ) (new : List (AppendCall (Fin N))) : Prop where
  proc : s.procs[p]? = some ⟨i, j, stage⟩
  eq : s' = { s with
    nodes := Function.update s.nodes i n
    appendCalls := s.appendCalls ++ new
    procs := s.procs.set p ⟨i, j, stage'⟩ }
  node : ∃ peers wal, n = { s.nodes i with peers, wal }
  buffers : ∀ v, (n.peers v).buffer ⊆ ((s.nodes i).peers v).buffer
  wal : n.wal = (s.nodes i).wal ∨ ∃ index r,
    (s.nodes i).onWal (Wal.read env.lru index) = some (r, { s.nodes i with wal := n.wal })
  calls : ∀ c ∈ new, c.src = i ∧ c.dst = j ∧ c.req.term = stage.term ∧ ∀ e ∈ c.req.entries,
    e ∈ ((s.nodes i).peers j).buffer ∨ ∃ index bytes n',
      (s.nodes i).onWal (Wal.read env.lru index) = some (.ok bytes, n')
        ∧ e = (Entry.unmarshal bytes).1
  term : stage'.term = 0 ∨ stage'.term = stage.term ∨ stage'.term = (s.nodes i).currentTerm

theorem went_setProc {stage stage' : Stage} (hp : s.procs[p]? = some ⟨i, j, stage⟩)
    (ht : stage'.term = 0 ∨ stage'.term = stage.term ∨ stage'.term = (s.nodes i).currentTerm) :
    Went env s (s.setProc p ⟨i, j, stage'⟩) p i j stage stage' (s.nodes i) [] where
  proc := hp
  eq := by simp [Sys.setProc]
  node := ⟨_, _, rfl⟩
  buffers _ := List.Subset.refl _
  wal := .inl rfl
  calls c hc := by cases hc
  term := ht

theorem setPeer_buffer_subset {n : Node (Fin N) σ} {q : Peer}
    (hq : q.buffer ⊆ (n.peers j).buffer) (v : Fin N) :
    ((n.setPeer j q).peers v).buffer ⊆ (n.peers v).buffer := by
  change (Function.update n.peers j q v).buffer ⊆ _
  by_cases hv : v = j
  · subst hv
    rwa [Function.update_self]
  · rw [Function.update_of_ne hv]
    exact List.Subset.refl _

theorem went_setPeer {stage stage' : Stage} (hp : s.procs[p]? = some ⟨i, j, stage⟩) {q : Peer}
    (hq : q.buffer ⊆ ((s.nodes i).peers j).buffer)
    (ht : stage'.term = 0 ∨ stage'.term = stage.term) :
    Went env s ((s.setPeer i j q).setProc p ⟨i, j, stage'⟩) p i j stage stage'
      ((s.nodes i).setPeer j q) [] where
  proc := hp
  eq := by simp [Sys.setProc, Sys.setPeer, Sys.setNode]
  node := ⟨_, _, rfl⟩
  buffers := setPeer_buffer_subset hq
  wal := .inl rfl
  calls c hc := by cases hc
  term := by
    rcases ht with ht | ht
    · exact .inl ht
    · exact .inr (.inl ht)

theorem went_recovered (env : Env σ) {stage : Stage} (hp : s.procs[p]? = some ⟨i, j, stage⟩) :
    ∃ n new, Went env s (s.recovered p i j) p i j stage .done n new :=
  ⟨_, _, went_setPeer hp (List.Subset.refl _) (.inl rfl)⟩

theorem went_sendNext {lastIndex currentTerm index : ℕ}
    (hp : s.procs[p]? = some ⟨i, j, .next lastIndex currentTerm index⟩)
    (hs : s.sendNext env p i j lastIndex currentTerm index = some s') :
    ∃ stage' n new, Went env s s' p i j (.next lastIndex currentTerm index) stage' n new := by
  unfold Sys.sendNext at hs
  split_ifs at hs
  · rcases hw : (s.nodes i).onWal (Wal.read env.lru index) with _ | ⟨_ | bytes, n⟩ <;> rw [hw] at hs
    · cases hs
    · obtain rfl := Option.some.inj hs
      obtain ⟨wal, rfl⟩ := Node.onWal_eq hw
      refine ⟨.done, { (s.nodes i).setPeer j
        { (s.nodes i).peers j with recovering := false } with wal }, [], hp, ?_, ⟨_, _, rfl⟩,
        setPeer_buffer_subset (List.Subset.refl _), .inr ⟨index, _, hw⟩, by simp, .inl rfl⟩
      simp [Sys.recovered, Sys.setPeer, Sys.setNode, Sys.setProc, Node.setPeer]
    · obtain rfl := Option.some.inj hs
      obtain ⟨wal, rfl⟩ := Node.onWal_eq hw
      refine ⟨_, { s.nodes i with wal }, _, hp, rfl, ⟨_, _, rfl⟩, fun v => List.Subset.refl _,
        .inr ⟨index, _, hw⟩, fun c hc => ?_, .inr (.inl rfl)⟩
      obtain rfl := List.mem_singleton.mp hc
      refine ⟨rfl, rfl, rfl, fun e he => .inr ⟨index, bytes, _, hw, List.mem_singleton.mp he⟩⟩
  · obtain rfl := Option.some.inj hs
    obtain ⟨n, new, h⟩ := went_recovered env hp
    exact ⟨.done, n, new, h⟩

theorem went_advance (hs : s.advance env p = some s') :
    ∃ i j stage stage' n new, Went env s s' p i j stage stage' n new := by
  unfold Sys.advance at hs
  rcases hp : s.procs[p]? with _ | ⟨i, j, stage⟩ <;> rw [hp] at hs
  · cases hs
  · refine ⟨i, j, stage, ?_⟩
    cases stage with
    | next lastIndex currentTerm index => exact went_sendNext hp hs
    | readIndex currentTerm lastLogIndex =>
      obtain rfl := Option.some.inj hs
      refine ⟨_, _, _, hp, rfl, ⟨_, _, rfl⟩, setPeer_buffer_subset (List.nil_subset _), .inl rfl,
        fun c hc => ?_, .inl rfl⟩
      obtain rfl := List.mem_singleton.mp hc
      exact ⟨rfl, rfl, rfl, fun e he => .inl he⟩
    | behind start =>
      obtain rfl := Option.some.inj hs
      exact ⟨_, _, _, went_setPeer hp (List.Subset.refl _) (.inl rfl)⟩
    | ticked =>
      obtain rfl := Option.some.inj hs
      exact ⟨_, _, _, went_setProc hp (.inl (by split_ifs <;> rfl))⟩
    | started | readLast =>
      obtain rfl := Option.some.inj hs
      exact ⟨_, _, _, went_setProc hp (.inr (.inr rfl))⟩
    | readTerm | marked =>
      obtain rfl := Option.some.inj hs
      exact ⟨_, _, _, went_setProc hp (.inr (.inl rfl))⟩
    | sent | resent | done => cases hs

theorem went_answer (env : Env σ) (hs : s.answer p = some s') :
    ∃ i j stage stage' n new, Went env s s' p i j stage stage' n new := by
  unfold Sys.answer at hs
  split at hs
  · rename_i i j call hp
    obtain ⟨res, -, rfl⟩ := Option.map_eq_some_iff.mp hs
    exact ⟨i, j, _, _, _, _, went_setProc hp (.inl (by split_ifs <;> rfl))⟩
  · rename_i i j lastIndex currentTerm index call hp
    obtain ⟨res, -, rfl⟩ := Option.map_eq_some_iff.mp hs
    split_ifs
    · exact ⟨i, j, _, _, _, _, went_setPeer hp (List.Subset.refl _) (.inr rfl)⟩
    · obtain ⟨n, new, h⟩ := went_recovered env hp
      exact ⟨i, j, _, _, n, new, h⟩
  · cases hs

theorem went_error (env : Env σ) (hs : s.error p = some s') :
    ∃ i j stage stage' n new, Went env s s' p i j stage stage' n new := by
  unfold Sys.error at hs
  split at hs
  · rename_i i j call hp
    obtain rfl := Option.some.inj hs
    exact ⟨i, j, _, _, _, _, went_setProc hp (.inl rfl)⟩
  · rename_i i j lastIndex currentTerm index call hp
    obtain rfl := Option.some.inj hs
    obtain ⟨n, new, h⟩ := went_recovered env hp
    exact ⟨i, j, _, _, n, new, h⟩
  · cases hs

def Label.proc : Label N → Option ℕ
  | .advance p | .answer p | .error p => some p
  | _ => none

/-- The steps within an open election. -/
def Label.counts : Label N → Bool
  | .voteAnswer .. | .voteError .. | .tally _ => true
  | _ => false

/-- A step with this label takes the system to this state. Of an open election it says only that
it changes. -/
inductive Stepped (env : Env σ) (s : Sys N σ) : Label N → Sys N σ → Prop
  | startElection {i : Fin N} (el : Election) (calls : List (VoteCall (Fin N)))
    (hcalls : ∀ c ∈ calls, c.req = (s.nodes i).campaign.voteRequest
      ∧ c.own = ((s.nodes i).lastLogTerm, (s.nodes i).lastLogIndex)) :
    Stepped env s (.startElection i)
      { (s.setNode i (s.nodes i).campaign).setElection i (some el) with
        voteCalls := s.voteCalls ++ calls }
  | election {l : Label N} {i : Fin N} (el : Option Election) (hl : l.counts = true) :
    Stepped env s l (s.setElection i el)
  | promote {i : Fin N} : Stepped env s (.tally i)
      ((s.setElection i none).setNode i { s.nodes i with state := .leader })
  | deliverVote {k : ℕ} (c : VoteCall (Fin N)) (hc : s.voteCalls[k]? = some c) :
    Stepped env s (.deliverVote k) { s.setNode c.dst (requestVote (s.nodes c.dst) c.req).2 with
      voteCalls := s.voteCalls.set k
        { c with res := some (requestVote (s.nodes c.dst) c.req).1 } }
  | deliverAppend {k : ℕ} (c : AppendCall (Fin N)) (hc : s.appendCalls[k]? = some c)
    (res : AppendEntriesResponse (Fin N)) (n : Node (Fin N) σ)
    (ha : appendEntries env (s.nodes c.dst) c.req = some (res, n)) :
    Stepped env s (.deliverAppend k) { s.setNode c.dst n with
      appendCalls := s.appendCalls.set k { c with res := some res } }
  | write {i : Fin N} {typ : EntryType} {data : Payload} {now : Int64} {timely : Bool}
    {order : List (Fin N)} (r : Except Err Unit) (n : Node (Fin N) σ)
    (hw : writeEntry env typ data now timely order (s.nodes i) = some (r, n)) :
    Stepped env s (.write i typ data now timely order) (s.setNode i n)
  | tick {i j : Fin N} (hlead : (s.nodes i).state = .leader) (hij : i ≠ j) :
    Stepped env s (.tick i j) { s with procs := s.procs ++ [⟨i, j, .ticked⟩] }
  | proc {l : Label N} {s' : Sys N σ} {p : ℕ} {i j : Fin N} {stage stage' : Stage}
    {n : Node (Fin N) σ} {new : List (AppendCall (Fin N))} (hl : l.proc = some p)
    (h : Went env s s' p i j stage stage' n new) : Stepped env s l s'

theorem stepped {l : Label N} (hs : step env l s = some s') : Stepped env s l s' := by
  cases l with
  | startElection i =>
    rw [step, Sys.startElection] at hs
    split_ifs at hs
    obtain rfl := Option.some.inj hs
    refine .startElection _ _ fun c hc => ?_
    obtain ⟨j, -, rfl⟩ := List.mem_map.mp hc
    exact ⟨rfl, rfl⟩
  | voteAnswer i k =>
    rw [step, Sys.voteAnswer] at hs
    split at hs
    · split_ifs at hs <;> exact Option.some.inj hs ▸ .election _ rfl
    · cases hs
  | voteError i k =>
    rw [step, Sys.voteError] at hs
    split at hs
    · split_ifs at hs
      exact Option.some.inj hs ▸ .election _ rfl
    · cases hs
  | tally i =>
    rw [step, Sys.tally] at hs
    split at hs
    · dsimp only at hs
      split_ifs at hs
      · exact Option.some.inj hs ▸ .promote
      · exact Option.some.inj hs ▸ .election none rfl
    · cases hs
  | deliverVote k =>
    rw [step, Sys.deliverVote] at hs
    split at hs
    · rename_i src dst req own hc
      exact Option.some.inj hs ▸ .deliverVote _ hc
    · cases hs
  | deliverAppend k =>
    rw [step, Sys.deliverAppend] at hs
    split at hs
    · rename_i src dst req hc
      split at hs
      · rename_i res n ha
        exact Option.some.inj hs ▸ .deliverAppend _ hc res n ha
      · cases hs
    · cases hs
  | write i typ data now timely order =>
    rw [step, Sys.write] at hs
    split_ifs at hs
    split at hs
    · rename_i r n hw
      exact Option.some.inj hs ▸ .write r n hw
    · cases hs
  | tick i j =>
    rw [step, Sys.tick] at hs
    split_ifs at hs with h
    exact Option.some.inj hs ▸ .tick h.1 h.2
  | advance p =>
    obtain ⟨i, j, stage, stage', n, new, h⟩ := went_advance hs
    exact .proc rfl h
  | answer p =>
    obtain ⟨i, j, stage, stage', n, new, h⟩ := went_answer env hs
    exact .proc rfl h
  | error p =>
    obtain ⟨i, j, stage, stage', n, new, h⟩ := went_error env hs
    exact .proc rfl h

end Rhosus.Cluster

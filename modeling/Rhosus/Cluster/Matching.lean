import Rhosus.Cluster.Replication

/-!
# Logs that match

Entries are never taken out of a registry's log again, and a follower does not check that its log
ends in the entry that comes before those of a request. So two logs may share an entry's term at an
index and still differ there and before it. They match in every run in which the requests that are
accepted go on where the log ends, after an entry of the same term as in the sender's log
(`log_matching`): each log is then, up to any of its entries, a prefix of the log of the leader that
wrote that entry.
-/

namespace Rhosus.Cluster

variable {N : ℕ} {σ : Type} {env : Env σ} {s s' : Sys N σ} {logs : Fin N → List Entry}

/-- The entry that the registry's log returns at an index. -/
def Node.entryAt {ι : Type} (lru : SetEvicted ℕ Wal.Ptr) (n : Node ι σ) (i : ℕ) : Option Entry :=
  match Wal.read lru i n.wal with
  | (.ok bytes, _) => some (Entry.unmarshal bytes).1
  | _ => none

theorem Node.Logs.entryAt {ι : Type} {n : Node ι σ} {es : List Entry} (hlru : env.lru.Lawful)
    (h : n.Logs es) (i : ℕ) : n.entryAt env.lru (i + 1) = es[i]? := by
  obtain ⟨wal, hw, -⟩ := read_logOf hlru h.rep h.plan (i + 1)
  rw [Node.entryAt, hw, Wal.Log.read, logOf_get?]
  rcases hi : es[i]? with _ | e
  · rfl
  · simp [Outcome.ofExcept, Entry.unmarshal_marshal (h.wf e (List.mem_of_getElem? hi))]

theorem Node.Logs.entryAt_zero {ι : Type} {n : Node ι σ} {es : List Entry} (hlru : env.lru.Lawful)
    (h : n.Logs es) : n.entryAt env.lru 0 = none := by
  obtain ⟨wal, hw, -⟩ := read_logOf hlru h.rep h.plan 0
  rw [Node.entryAt, hw]
  simp [Wal.Log.read, Wal.Log.get?, logOf, Outcome.ofExcept]

/-- Where two logs have entries of one term at an index, they have the same entries up to it. -/
def Matching (lru : SetEvicted ℕ Wal.Ptr) (s : Sys N σ) : Prop :=
  ∀ i j k e e', (s.nodes i).entryAt lru k = some e → (s.nodes j).entryAt lru k = some e' →
    e.term = e'.term → ∀ m ≤ k, ∀ f f', (s.nodes i).entryAt lru m = some f →
      (s.nodes j).entryAt lru m = some f' → f = f'

/-- A term has at most one leader, which alone writes. -/
def OneLeader (leaderOf : ℕ → Fin N) (l : Label N) (s : Sys N σ) : Prop :=
  (∀ i, (s.nodes i).state = .leader → leaderOf (s.nodes i).currentTerm = i)
    ∧ match l with
      | .write i .. => (s.nodes i).state = .leader
      | _ => True

instance (leaderOf : ℕ → Fin N) : ∀ (l : Label N) (s : Sys N σ),
    Decidable (OneLeader leaderOf l s)
  | .write i .., s => inferInstanceAs (Decidable ((∀ _, _ → _) ∧ (s.nodes i).state = .leader))
  | .startElection _, _ | .voteAnswer .., _ | .voteError .., _ | .tally _, _ | .deliverVote _, _
  | .deliverAppend _, _ | .tick .., _ | .advance _, _ | .answer _, _ | .error _, _ =>
    inferInstanceAs (Decidable ((∀ _, _ → _) ∧ True))

/-- The entries of a request that is accepted go on where the log ends, which it does with an entry
of the same term as the sender's at that index. -/
def Continues (lru : SetEvicted ℕ Wal.Ptr) (l : Label N) (s : Sys N σ) : Prop :=
  InOrder l s ∧ match l with
    | .deliverAppend k => ∀ c ∈ s.appendCalls[k]?, Accepts (s.nodes c.dst) c.req →
      c.req.entries = [] ∨ (s.nodes c.dst).lastLogIndex = 0
        ∨ ∃ e ∈ (s.nodes c.src).entryAt lru (s.nodes c.dst).lastLogIndex,
          e.term = (s.nodes c.dst).lastLogTerm
    | _ => True

instance (lru : SetEvicted ℕ Wal.Ptr) : ∀ (l : Label N) (s : Sys N σ),
    Decidable (Continues lru l s)
  | .deliverAppend k, s =>
    inferInstanceAs (Decidable (InOrder _ _ ∧ ∀ c ∈ s.appendCalls[k]?, _ → _ ∨ _ ∨ _))
  | .startElection _, _ | .voteAnswer .., _ | .voteError .., _ | .tally _, _ | .deliverVote _, _
  | .write .., _ | .tick .., _ | .advance _, _ | .answer _, _ | .error _, _ =>
    inferInstanceAs (Decidable (InOrder _ _ ∧ True))

/-- Up to any of its entries, a log is a prefix of the log of the leader of that entry's term. -/
def Coherent (leaderOf : ℕ → Fin N) (logs : Fin N → List Entry) : Prop :=
  ∀ (i : Fin N) (k : ℕ) (e : Entry), (logs i)[k]? = some e →
    (logs i).take (k + 1) <+: logs (leaderOf e.term)

section Coherent

variable {leaderOf : ℕ → Fin N} {i j : Fin N}

theorem take_eq_take_of_le {α : Type} {xs ys : List α} (h : xs <+: ys) {k : ℕ}
    (hk : k ≤ xs.length) :
    xs.take k = ys.take k := by
  rw [List.prefix_iff_eq_take.mp h, List.take_take, min_eq_left hk]

theorem Coherent.take_eq (h : Coherent leaderOf logs) {k : ℕ} {e e' : Entry}
    (he : (logs i)[k]? = some e) (he' : (logs j)[k]? = some e') (ht : e.term = e'.term) :
    (logs i).take (k + 1) = (logs j).take (k + 1) := by
  have hi := h i k e he
  have hj := h j k e' he'
  have hlen : ∀ {v : Fin N} {f : Entry}, (logs v)[k]? = some f →
        ((logs v).take (k + 1)).length = k + 1 := by
    intro v f hf
    have := (List.getElem?_eq_some_iff.mp hf).1
    rw [List.length_take]
    omega
  rw [← ht] at hj
  rw [List.prefix_iff_eq_take.mp hi, List.prefix_iff_eq_take.mp hj, hlen he, hlen he']

theorem prefix_update (new : List Entry) (v : Fin N) :
    logs v <+: Function.update logs i (logs i ++ new) v := by
  by_cases hv : v = i
  · subst hv
    rw [Function.update_self]
    exact List.prefix_append _ _
  · rw [Function.update_of_ne hv]

/-- The log of the leader of the entry's term grows by it. -/
theorem Coherent.write (h : Coherent leaderOf logs) {e : Entry} (hl : leaderOf e.term = i) :
    Coherent leaderOf (Function.update logs i (logs i ++ [e])) := by
  intro v k f hf
  by_cases hv : v = i
  · subst hv
    rw [Function.update_self] at hf ⊢
    by_cases hk : k < (logs v).length
    · rw [List.getElem?_append_left hk] at hf
      rw [List.take_append_of_le_length hk]
      exact (h v k f hf).trans (prefix_update _ _)
    · obtain rfl : f = e := by
        have hlt := (List.getElem?_eq_some_iff.mp hf).1
        rw [List.length_append, List.length_singleton] at hlt
        obtain rfl : k = (logs v).length := by omega
        simpa using hf.symm
      rw [hl, Function.update_self]
      exact List.take_prefix _ _
  · rw [Function.update_of_ne hv] at hf ⊢
    exact (h v k f hf).trans (prefix_update _ _)

theorem Coherent.extend (h : Coherent leaderOf logs) {new : List Entry}
    (hpre : logs i ++ new <+: logs j) :
    Coherent leaderOf (Function.update logs i (logs i ++ new)) := by
  intro v k f hf
  by_cases hv : v = i
  · subst hv
    rw [Function.update_self] at hf ⊢
    have hk := (List.getElem?_eq_some_iff.mp hf).1
    have hf' : (logs j)[k]? = some f := by
      obtain ⟨t, ht⟩ := hpre
      rw [← ht, List.getElem?_append_left hk, hf]
    rw [take_eq_take_of_le hpre hk]
    exact (h j k f hf').trans (prefix_update _ _)
  · rw [Function.update_of_ne hv] at hf ⊢
    exact (h v k f hf).trans (prefix_update _ _)

/-- A follower's log that ends in an entry of the same term as the sender's there is a prefix of
the sender's. -/
theorem Coherent.prefix_of_last (h : Coherent leaderOf logs) (hi : (s.nodes i).Logs (logs i))
    {e : Entry} (he : (logs j)[(logs i).length - 1]? = some e)
    (ht : e.term = (s.nodes i).lastLogTerm) : logs i <+: logs j := by
  rcases List.eq_nil_or_concat' (logs i) with hnil | ⟨init, last, hlast⟩
  · rw [hnil]
    exact List.nil_prefix
  · have hlen : (logs i).length = init.length + 1 := by simp [hlast]
    have hget : (logs i)[(logs i).length - 1]? = some last := by simp [hlast]
    have hterm := hi.lastLogTerm last (by simp [hlast])
    have htake := h.take_eq hget he (by rw [ht, hterm])
    rw [hlen, Nat.add_sub_cancel, ← hlen, List.take_length] at htake
    rw [htake]
    exact List.take_prefix _ _

structure Coheres (leaderOf : ℕ → Fin N) (s : Sys N σ) : Prop where
  bounded : Bounded s
  logs : ∃ logs, Replicas s logs ∧ Coherent leaderOf logs

theorem Coheres.step (hlru : env.lru.Lawful) (h : Coheres leaderOf s) {l : Label N}
    (hone : OneLeader leaderOf l s) (hcont : Continues env.lru l s)
    (hs : step env l s = some s') : Coheres leaderOf s' := by
  obtain ⟨logs, hrep, hcoh⟩ := h.logs
  obtain ⟨logs', hrep', hgrows⟩ := hrep.step hlru h.bounded hcont.1 hs
  refine ⟨h.bounded.step hs, logs', hrep', ?_⟩
  cases hgrows with
  | same => exact hcoh
  | @write i _ _ _ _ _ e hterm _ =>
    exact hcoh.write (by rw [hterm]; exact hone.1 i hone.2)
  | deliver c hc hacc _ =>
    have hmem := List.mem_of_getElem? hc
    have hdst := hrep.node c.dst
    have hcons := hcont.1 c hc hacc
    rw [hdst.lastLogIndex] at hcons
    rcases hcont.2 c hc hacc with hnil | hlast
    · rwa [hnil, List.append_nil, Function.update_eq_self]
    · have hpre : logs c.dst <+: logs c.src := by
        rw [hdst.lastLogIndex] at hlast
        rcases hlast with h0 | ⟨e, he, ht⟩
        · rw [List.length_eq_zero_iff.mp h0]
          exact List.nil_prefix
        · rcases hk : (logs c.dst).length with _ | k
          · rw [List.length_eq_zero_iff.mp hk]
            exact List.nil_prefix
          · rw [hk, (hrep.node c.src).entryAt hlru] at he
            refine hcoh.prefix_of_last hdst ?_ ht
            rw [hk]
            exact he
      exact hcoh.extend (prefix_append_of_consecutive (hrep.node c.src).index _ hpre hcons
        (hrep.call c hmem))

theorem Coheres.matching (hlru : env.lru.Lawful) (h : Coheres leaderOf s) : Matching env.lru s := by
  obtain ⟨logs, hrep, hcoh⟩ := h.logs
  intro i j k e e' he he' ht m hm f f' hf hf'
  rcases m with _ | m
  · rw [(hrep.node i).entryAt_zero hlru] at hf
    cases hf
  · obtain ⟨k, rfl⟩ : ∃ k', k = k' + 1 := ⟨k - 1, by omega⟩
    rw [(hrep.node _).entryAt hlru] at he he' hf hf'
    have htake := hcoh.take_eq he he' ht
    have hget : ∀ {v : Fin N}, ((logs v).take (k + 1))[m]? = (logs v)[m]? :=
      List.getElem?_take_of_lt (by omega)
    rw [← hget, htake, hget, hf'] at hf
    exact (Option.some.inj hf).symm

end Coherent

theorem coheres_init (leaderOf : ℕ → Fin N) (storage : σ) :
    Coheres leaderOf (Sys.init storage : Sys N σ) :=
  ⟨⟨by simp [Sys.init, Node.new], by simp [Sys.init], by simp [Sys.init], by simp [Sys.init]⟩,
    _, replicas_init storage, by simp [Coherent]⟩

/-- Logs match in every run in which each term has one leader, which alone writes, and accepted
requests continue the log with the same entry before them as in the sender's. -/
theorem log_matching (env : Env σ) (hlru : env.lru.Lawful) (leaderOf : ℕ → Fin N) (storage : σ)
    (ls : List (Label N)) (hone : Along (step env) (OneLeader leaderOf) ls (Sys.init storage))
    (hcont : Along (step env) (Continues env.lru) ls (Sys.init storage))
    (hrun : runSteps (step env) ls (Sys.init storage) = some s) : Matching env.lru s :=
  (Along.invariant (I := Coheres leaderOf)
    (P := fun l s => OneLeader leaderOf l s ∧ Continues env.lru l s)
    (fun _ _ _ h hl hs => h.step hlru hl.1 hl.2 hs) ls (coheres_init leaderOf storage)
    (Along.and hone hcont) hrun).matching hlru

/-- The first registry leads in term 1, and the second in term 2. -/
def firstThenSecond (t : ℕ) : Fin 2 := if t = 2 then 1 else 0

/-- A registry writes an entry, to be sent from the other's buffer. -/
def writeAt (i j : Fin 2) : Label 2 := .write i .assignFile Payload.empty 0 true [j]

/-- The first leads and sends its entry to the second, which then leads and sends its own. -/
def sentInTurn : List (Label 2) :=
  [.startElection 0, .deliverVote 0, .voteAnswer 0 0, .tally 0, writeAt 0 1,
    .tick 0 1, .advance 0, .advance 0, .advance 0, .advance 0, .deliverAppend 0, .answer 0,
    .startElection 1, .deliverVote 1, .voteAnswer 1 1, .tally 1, writeAt 1 0,
    .tick 1 0, .advance 1, .advance 1, .advance 1, .advance 1, .deliverAppend 1, .answer 1]

theorem log_matching_sentInTurn : ∃ s,
    runSteps (step (recording lruSet)) sentInTurn (Sys.init []) = some s
      ∧ (s.nodes 0).entryAt lruSet 2 = (s.nodes 1).entryAt lruSet 2
      ∧ (s.nodes 0).entryAt lruSet 2 = some ⟨2, 2, 0, [], 0⟩ ∧ Matching lruSet s := by
  obtain ⟨s, hrun⟩ : ∃ s, runSteps (step (recording lruSet)) sentInTurn (Sys.init []) = some s :=
    Option.isSome_iff_exists.mp (by decide +kernel)
  have hend : (runSteps (step (recording lruSet)) sentInTurn (Sys.init [])).map
      (fun s => ((s.nodes 0).entryAt lruSet 2, (s.nodes 1).entryAt lruSet 2))
      = some (some ⟨2, 2, 0, [], 0⟩, some ⟨2, 2, 0, [], 0⟩) := by decide +kernel
  rw [hrun, Option.map_some, Option.some.injEq, Prod.mk.injEq] at hend
  exact ⟨s, hrun, hend.1.trans hend.2.symm, hend.1,
    log_matching (recording lruSet) lruSet_lawful firstThenSecond [] sentInTurn
      (by decide +kernel) (by decide +kernel) hrun⟩

/-- The entry that the first writes in term 1 stays with it. The second leads in term 2 and sends
two entries. -/
def unsentThenOvertaken : List (Label 2) :=
  [.startElection 0, .deliverVote 0, .voteAnswer 0 0, .tally 0, writeAt 0 1,
    .startElection 1, .deliverVote 1, .voteAnswer 1 1, .tally 1, writeAt 1 0, writeAt 1 0,
    .tick 1 0, .advance 0, .advance 0, .advance 0, .advance 0, .deliverAppend 0]

/-- The first registry has the second's entries after its own, so its second record is the other's
first: both are of term 2. -/
theorem not_matching_overtaken : Along (step (recording lruSet)) (OneLeader firstThenSecond)
    unsentThenOvertaken (Sys.init []) ∧ ∃ s,
    runSteps (step (recording lruSet)) unsentThenOvertaken (Sys.init []) = some s
      ∧ (s.nodes 0).entryAt lruSet 2 = some ⟨1, 2, 0, [], 0⟩
      ∧ (s.nodes 1).entryAt lruSet 2 = some ⟨2, 2, 0, [], 0⟩ ∧ ¬ Matching lruSet s := by
  refine ⟨by decide +kernel, ?_⟩
  obtain ⟨s, hrun⟩ : ∃ s,
      runSteps (step (recording lruSet)) unsentThenOvertaken (Sys.init []) = some s :=
    Option.isSome_iff_exists.mp (by decide +kernel)
  have hend : (runSteps (step (recording lruSet)) unsentThenOvertaken (Sys.init [])).map
      (fun s => ((s.nodes 0).entryAt lruSet 2, (s.nodes 1).entryAt lruSet 2))
      = some (some ⟨1, 2, 0, [], 0⟩, some ⟨2, 2, 0, [], 0⟩) := by decide +kernel
  rw [hrun, Option.map_some, Option.some.injEq, Prod.mk.injEq] at hend
  refine ⟨s, hrun, hend.1, hend.2, fun hm => ?_⟩
  have := hm 0 1 2 _ _ hend.1 hend.2 rfl 2 le_rfl _ _ hend.1 hend.2
  cases this

end Rhosus.Cluster

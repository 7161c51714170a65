import Rhosus.Cluster.Logs

/-!
# Replication by a leader

The goroutines that dispatch entries to a peer take the index of the last entry and the buffer at
different moments, and the follower checks only that its log reaches the index before. So entries
can reach it with others missing before them, or twice. Under a leader that stays, the follower's
records are a prefix of the leader's as long as each request the follower accepts goes on where its
log ends (`replication_prefix`).
-/

namespace Rhosus.Cluster

theorem prefix_append_of_consecutive {L : List Entry} (hL : Consecutive 0 L) :
    ∀ (es : List Entry) {M : List Entry}, M <+: L → Consecutive M.length es → (∀ e ∈ es, e ∈ L) →
      M ++ es <+: L
  | [], M, hM, _, _ => by rwa [List.append_nil]
  | e :: es, M, hM, hc, hmem => by
    obtain ⟨k, hk⟩ := List.mem_iff_getElem?.mp (hmem e List.mem_cons_self)
    obtain rfl : M.length = k := by
      have := hL.index hk
      have := hc.1
      omega
    have hstep : M ++ [e] <+: L := by
      rw [List.prefix_iff_eq_take] at hM ⊢
      rw [List.length_append, List.length_singleton, List.take_add_one, ← hM, hk]
      rfl
    have := prefix_append_of_consecutive hL es hstep (by simpa using hc.2)
      fun e' he' => hmem e' (List.mem_cons_of_mem _ he')
    simpa using this

section Init

variable {N : ℕ} {σ : Type}

theorem freshWal_rep : Wal.Rep freshWal (logOf []) ∧ freshWal.plan = [] := by
  obtain ⟨r, W, hrun, hp, rfl, hW, -⟩ := (Wal.create_rep Wal.defaultOptions Wal.recovers_empty
    NoFail.nil (Wal.WAL.new Wal.defaultOptions)).returns rfl
  rw [freshWal, hrun]
  exact ⟨hW, hp⟩

theorem logs_new {ι : Type} (i : ι) (storage : σ) : (Node.new i freshWal storage).Logs [] :=
  ⟨freshWal_rep.1, freshWal_rep.2, trivial, by simp, rfl, by simp⟩

theorem replicas_init (storage : σ) : Replicas (Sys.init storage : Sys N σ) fun _ => [] :=
  ⟨fun i => logs_new i storage, by simp [Sys.init, Node.new], by simp [Sys.init]⟩

end Init

/-- The records in the registry's log, as its files have them. -/
def Node.records {ι σ : Type} (n : Node ι σ) : Option (List Bytes) :=
  Wal.diskRecords n.wal n.wal.mem.segments

theorem Node.Logs.records {ι σ : Type} {n : Node ι σ} {es : List Entry} (h : n.Logs es) :
    n.records = some (es.map Entry.marshal) := h.rep.diskRecords

variable {lru : SetEvicted ℕ Wal.Ptr} {s s' : Sys 2 (List Entry)}

/-- A storage that keeps the entries it is given. -/
def recording (lru : SetEvicted ℕ Wal.Ptr) : Env (List Entry) := ⟨lru, fun es st => st ++ es⟩

/-- The first registry leads the second in the term `T`, and both logs are empty. -/
def Sys.stable (T : ℕ) : Sys 2 (List Entry) :=
  { Sys.init ([] : List Entry) with
    nodes := fun i => { Node.new i freshWal [] with
      currentTerm := T
      state := if i = 0 then .leader else .follower } }

/-- The leader writes, dispatches and recovers; there are no elections. -/
def Label.led : Label 2 → Bool
  | .write i .. => i = 0
  | .deliverAppend _ | .tick .. | .advance _ | .answer _ | .error _ => true
  | _ => false

/-- The follower's records are a prefix of the leader's, and its storage has been given their
entries. -/
def Sys.Replicated (s : Sys 2 (List Entry)) : Prop :=
  ∃ recs ∈ (s.nodes 0).records, ∃ recs' ∈ (s.nodes 1).records, recs' <+: recs
    ∧ (s.nodes 1).storage.map Entry.marshal = recs'

instance (s : Sys 2 (List Entry)) : Decidable s.Replicated :=
  inferInstanceAs (Decidable (∃ recs ∈ (s.nodes 0).records, ∃ recs' ∈ (s.nodes 1).records, _ ∧ _))

/-- Everything is sent by the first registry to the second, which does not lead. -/
structure Led {σ : Type} (s : Sys 2 σ) : Prop where
  state : (s.nodes 1).state ≠ .leader
  proc : ∀ p ∈ s.procs, p.leader = 0 ∧ p.peer = 1
  call : ∀ c ∈ s.appendCalls, c.src = 0 ∧ c.dst = 1

theorem Led.step {σ : Type} {env : Env σ} {s s' : Sys 2 σ} (h : Led s) {l : Label 2}
    (hl : l.led = true) (hs : step env l s = some s') : Led s' := by
  have hset : ∀ {i : Fin 2} {n : Node (Fin 2) σ},
      (n.state = (s.nodes i).state ∨ n.state = .follower) →
        (Function.update s.nodes i n 1).state ≠ .leader := by
    intro i n hn
    refine Sys.forall_setNode (P := fun v n => v = 1 → n.state ≠ .leader) ?_ ?_ 1 rfl
    · rintro rfl
      rcases hn with hn | hn <;> rw [hn]
      · exact h.state
      · decide
    · rintro v rfl
      exact h.state
  cases stepped hs with
  | startElection | promote | deliverVote => cases hl
  | election el hcounts => cases l <;> simp [Label.counts, Label.led] at hcounts hl
  | deliverAppend c hc res n ha =>
    have hstate : n.state = (s.nodes c.dst).state ∨ n.state = .follower := by
      have hheed : ((s.nodes c.dst).heed c.req).state = (s.nodes c.dst).state
          ∨ ((s.nodes c.dst).heed c.req).state = .follower := by
        unfold Node.heed
        split_ifs
        · exact .inr rfl
        · exact .inl rfl
      rcases appendEntries_cases ha with ⟨-, rfl, -⟩ | ⟨-, -, r, hw, -⟩
      · exact hheed
      · obtain ⟨wal, storage, li, lt, rfl⟩ := writeEntriesFromLeader_eq hw
        exact hheed
    refine ⟨hset hstate, h.proc, fun c' hc' => ?_⟩
    rcases List.mem_or_eq_of_mem_set hc' with hc' | rfl
    · exact h.call c' hc'
    · exact h.call c (List.mem_of_getElem? hc)
  | write r n hw =>
    obtain ⟨wal, li, lt, peers, pipeline, rfl⟩ := writeEntry_eq hw
    exact ⟨hset (.inl rfl), h.proc, h.call⟩
  | @tick i j hlead hij =>
    refine ⟨h.state, fun p hp => ?_, h.call⟩
    rcases List.mem_append.mp hp with hp | hp
    · exact h.proc p hp
    · have htwo : ∀ i j : Fin 2, i ≠ 1 → i ≠ j → i = 0 ∧ j = 1 := by decide
      rw [List.mem_singleton.mp hp]
      exact htwo i j (fun hi => h.state (hi ▸ hlead)) hij
  | @proc _ _ p i j stage stage' n new _ hw =>
    obtain ⟨peers, wal, hn⟩ := hw.node
    obtain ⟨hi, hj⟩ := h.proc _ (List.mem_of_getElem? hw.proc)
    rw [hw.eq]
    refine ⟨hset (.inl (by rw [hn])), fun q hq => ?_, fun c hc => ?_⟩
    · rcases List.mem_or_eq_of_mem_set hq with hq | rfl
      · exact h.proc q hq
      · exact ⟨hi, hj⟩
    · rcases List.mem_append.mp hc with hc | hc
      · exact h.call c hc
      · obtain ⟨hsrc, hdst, -⟩ := hw.calls c hc
        exact ⟨hsrc.trans hi, hdst.trans hj⟩

/-- What holds at every moment: the follower has the first entries of the leader, and has handed
them to its storage. -/
structure Mirrors (s : Sys 2 (List Entry)) : Prop where
  led : Led s
  bounded : Bounded s
  logs : ∃ logs, Replicas s logs ∧ logs 1 <+: logs 0 ∧ (s.nodes 1).storage = logs 1

theorem Mirrors.step (hlru : lru.Lawful) (h : Mirrors s) {l : Label 2} (hl : l.led = true)
    (hin : InOrder l s) (hs : step (recording lru) l s = some s') : Mirrors s' := by
  obtain ⟨logs, hrep, hpre, hst⟩ := h.logs
  obtain ⟨logs', hrep', hgrows⟩ :=
      hrep.step (show (recording lru).lru.Lawful from hlru) h.bounded hin hs
  refine ⟨h.led.step hl hs, h.bounded.step hs, logs', hrep', ?_⟩
  cases hgrows with
  | same hst' => exact ⟨hpre, (hst' 1).trans hst⟩
  | @write i _ _ _ _ _ e _ hst' =>
    obtain rfl : i = 0 := by simpa [Label.led] using hl
    rw [Function.update_self, Function.update_of_ne (by decide)]
    exact ⟨hpre.trans (List.prefix_append _ _), (hst' 1).trans hst⟩
  | deliver c hc hacc hst' =>
    have hmem := List.mem_of_getElem? hc
    obtain ⟨hsrc, hdst⟩ := h.led.call c hmem
    have hcons := hin c hc hacc
    have hentries := hrep.call c hmem
    have hst1 := hst' 1
    rw [hdst] at hcons hst1 ⊢
    rw [hsrc] at hentries
    rw [(hrep.node 1).lastLogIndex] at hcons
    rw [if_pos rfl, hst] at hst1
    rw [Function.update_self, Function.update_of_ne (by decide)]
    exact ⟨prefix_append_of_consecutive (hrep.node 0).index _ hpre hcons hentries, hst1⟩

theorem Mirrors.replicated (h : Mirrors s) : s.Replicated := by
  obtain ⟨logs, hrep, hpre, hst⟩ := h.logs
  refine ⟨_, (hrep.node 0).records, _, (hrep.node 1).records, hpre.map _, ?_⟩
  rw [hst]

theorem mirrors_stable {T : ℕ} (hT : T < 2 ^ 32) : Mirrors (Sys.stable T) := by
  refine ⟨⟨by simp [Sys.stable], by simp [Sys.stable, Sys.init], by simp [Sys.stable, Sys.init]⟩,
    ⟨fun _ => hT, by simp [Sys.stable, Sys.init], by simp [Sys.stable, Sys.init],
      by simp [Sys.stable, Sys.init]⟩, fun _ => [], ⟨fun i => ?_, ?_, ?_⟩, List.prefix_rfl, rfl⟩
  · have h := logs_new i ([] : List Entry)
    exact ⟨h.rep, h.plan, h.index, h.wf, h.lastLogIndex, h.lastLogTerm⟩
  · simp [Sys.stable, Node.new]
  · simp [Sys.stable, Sys.init]

/-- Under a leader that stays, the follower's records are a prefix of the leader's in every run in
which the requests it accepts go on where its log ends. -/
theorem replication_prefix (hlru : lru.Lawful) {T : ℕ} (hT : T < 2 ^ 32) (ls : List (Label 2))
    (hled : Along (step (recording lru)) (fun l s => l.led = true ∧ InOrder l s) ls (Sys.stable T))
    (hrun : runSteps (step (recording lru)) ls (Sys.stable T) = some s) : s.Replicated :=
  (Along.invariant (I := Mirrors) (fun _ _ _ h hl hs => h.step hlru hl.1 hl.2 hs) ls
    (mirrors_stable hT) hled hrun).replicated

/-- The leader writes an entry, to be sent from the follower's buffer. -/
def writeOne : Label 2 := .write 0 .assignFile Payload.empty 0 true [1]

/-- The first request is lost, the second is declined, and both entries are sent again out of the
leader's log. -/
def lostThenRecovered : List (Label 2) :=
  [writeOne, .tick 0 1, .advance 0, .advance 0, .advance 0, .advance 0, .error 0,
    writeOne, .tick 0 1, .advance 1, .advance 1, .advance 1, .advance 1, .deliverAppend 1,
    .answer 1, .advance 1, .advance 1, .advance 1, .advance 1, .deliverAppend 2, .answer 1,
    .advance 1, .deliverAppend 3, .answer 1, .advance 1]

theorem replication_prefix_recovered : ∃ s,
    runSteps (step (recording lruSet)) lostThenRecovered (Sys.stable 1) = some s
      ∧ (s.nodes 1).lastLogIndex = 2 ∧ s.Replicated := by
  obtain ⟨s, hrun⟩ : ∃ s,
      runSteps (step (recording lruSet)) lostThenRecovered (Sys.stable 1) = some s :=
    Option.isSome_iff_exists.mp (by decide +kernel)
  have hlast : (runSteps (step (recording lruSet)) lostThenRecovered (Sys.stable 1)).map
      (fun s => (s.nodes 1).lastLogIndex) = some 2 := by decide +kernel
  rw [hrun] at hlast
  exact ⟨s, hrun, Option.some.inj hlast, replication_prefix lruSet_lawful (by norm_num)
    lostThenRecovered (by decide +kernel) hrun⟩

/-- The first request is lost. The second takes the last index before the leader writes again, and
the buffer after it. -/
def lostThenSkipped : List (Label 2) :=
  [writeOne, .tick 0 1, .advance 0, .advance 0, .advance 0, .advance 0, .error 0,
    .tick 0 1, .advance 1, .advance 1, .advance 1, writeOne, .advance 1, .deliverAppend 1]

/-- The follower logs the second entry without the first. -/
theorem not_replicated_skipped : ∃ s,
    runSteps (step (recording lruSet)) lostThenSkipped (Sys.stable 1) = some s
      ∧ (s.nodes 0).records = some [[8, 1, 16, 1], [8, 2, 16, 1]]
      ∧ (s.nodes 1).records = some [[8, 2, 16, 1]] ∧ ¬ s.Replicated := by
  obtain ⟨s, hrun⟩ : ∃ s,
      runSteps (step (recording lruSet)) lostThenSkipped (Sys.stable 1) = some s :=
    Option.isSome_iff_exists.mp (by decide +kernel)
  have hend : (runSteps (step (recording lruSet)) lostThenSkipped (Sys.stable 1)).map
      (fun s => ((s.nodes 0).records, (s.nodes 1).records, decide s.Replicated))
      = some (some [[8, 1, 16, 1], [8, 2, 16, 1]], some [[8, 2, 16, 1]], false) := by decide +kernel
  rw [hrun, Option.map_some, Option.some.injEq, Prod.mk.injEq, Prod.mk.injEq] at hend
  exact ⟨s, hrun, hend.1, hend.2.1, of_decide_eq_false hend.2.2⟩

end Rhosus.Cluster

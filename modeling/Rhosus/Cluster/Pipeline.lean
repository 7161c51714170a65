import Rhosus.Cluster.Node
import Rhosus.Lib.Runs

/-!
# The write pipeline

`WritePipeline` takes one request after the other and writes its entries to the buffers of the
peers. Here each access to the registry is a step, and between any two of them the rest of the
registry may make of it what it likes: drain the buffers, shut it down, become the leader. The
steps of a round in turn are `writeToPeers` (`writeToPeers_run`).

A request that is taken after a shutdown is never answered, and the first request that does not fit
the buffer of a peer is the last one that is taken. So every request is answered, and none keeps
those after it from it, exactly if neither happens (`writePipeline_answers_iff`).
-/

namespace Rhosus.Cluster

variable {ι σ : Type}

inductive PipeStage (ι : Type)
  | waiting
  | took (entries : List Entry)
  /-- The registry was not shut down. -/
  | running (entries : List Entry)
  /-- The buffer of the `k`-th of the peers is next. -/
  | writing (entries : List Entry) (peers : List ι) (k : ℕ)
  | ended

/-- A call of `done` for the request of that number, when `written` peers have its entries. -/
structure WriteResponse (ι : Type) where
  request : ℕ
  peers : List ι
  written : ℕ
  err : Except Err Unit

structure Pipeline (ι σ : Type) where
  node : Node ι σ
  /-- The requests that are still to be received. -/
  requests : List (List Entry)
  taken : ℕ
  stage : PipeStage ι
  responses : List (WriteResponse ι)

inductive PipeLabel (ι σ : Type)
  | take
  | check
  /-- The peers there are, in the order in which the copy of the map is gone through. -/
  | copyPeers (peers : List ι)
  | write
  /-- What the rest of the registry has made of it. -/
  | others (node : Node ι σ)

namespace Pipeline

def start (node : Node ι σ) (requests : List (List Entry)) : Pipeline ι σ :=
  ⟨node, requests, 0, .waiting, []⟩

/-- The request that was taken last gets its response. -/
def done (s : Pipeline ι σ) (peers : List ι) (written : ℕ) (err : Except Err Unit) :
    List (WriteResponse ι) := s.responses ++ [⟨s.taken - 1, peers, written, err⟩]

def step [DecidableEq ι] : PipeLabel ι σ → Pipeline ι σ → Option (Pipeline ι σ)
  | .take, s =>
    match s.stage, s.requests with
    | .waiting, entries :: requests =>
      some { s with requests, taken := s.taken + 1, stage := .took entries }
    | _, _ => none
  | .check, s =>
    match s.stage with
    | .took entries => some { s with stage := if s.node.shutdown then .ended else .running entries }
    | _ => none
  | .copyPeers peers, s =>
    match s.stage with
    | .running entries => some { s with stage := .writing entries peers 0 }
    | _ => none
  | .write, s =>
    match s.stage with
    | .writing entries peers k =>
      match peers[k]? with
      | none => some { s with stage := .waiting, responses := s.done peers k (.ok ()) }
      | some j =>
        match writeBatch (s.node.peers j).buffer entries with
        | (.ok _, buffer) =>
          some { s with
            node := s.node.setPeer j { s.node.peers j with buffer }
            stage := .writing entries peers (k + 1) }
        | (.error e, buffer) =>
          some { s with
            node := { s.node.setPeer j { s.node.peers j with buffer } with pipeline := false }
            stage := .ended
            responses := s.done peers k (.error e) }
    | _ => none
  | .others node, s => some { s with node }

/-- Nothing is left to do for the pipeline, or it has returned. -/
def AtRest (s : Pipeline ι σ) : Prop :=
  match s.stage with
  | .waiting => s.requests = []
  | .ended => True
  | _ => False

/-- Every request that was taken has one response, one with an error has not kept the others from
being taken, and one without has been written to all peers. -/
structure Answered (s : Pipeline ι σ) : Prop where
  once : ∀ k < s.taken, s.responses.countP (·.request = k) = 1
  goesOn : ∀ r ∈ s.responses, r.err ≠ .ok () → s.requests = []
  distributed : ∀ r ∈ s.responses, r.err = .ok () → r.written = r.peers.length

/-- The entries come after the last one of a buffer: each index is above that of the last entry
that is kept, and an entry of a lower term than that is not kept. -/
def Fits : Option Entry → List Entry → Prop
  | _, [] => True
  | none, e :: es => Fits (some e) es
  | some last, e :: es =>
    last.index < e.index ∧ Fits (some (if e.term < last.term then last else e)) es

/-- A request that is taken finds the registry running, and its entries fit the buffers of the
peers unless it is the last one. -/
def Fine (l : PipeLabel ι σ) (s : Pipeline ι σ) : Prop :=
  match l, s.stage with
  | .check, .took _ => s.node.shutdown = false
  | .write, .writing entries peers k => ∀ j ∈ peers[k]?,
      Fits (s.node.peers j).buffer.getLast? entries ∨ s.requests = []
  | _, _ => True

end Pipeline

section Batch

theorem writeBatch_ok_iff : ∀ {es b : List Entry},
    (writeBatch b es).1 = .ok () ↔ Pipeline.Fits b.getLast? es
  | [], b => by simp [writeBatch, Pipeline.Fits]
  | e :: es, b => by
    have happend : (b ++ [e]).getLast? = some e := by
      rw [List.getLast?_append, List.getLast?_singleton]
      rfl
    rw [writeBatch]
    rcases hlast : b.getLast? with _ | last <;> dsimp only
    · rw [writeBatch_ok_iff, happend, Pipeline.Fits]
    · rw [Pipeline.Fits]
      by_cases hindex : e.index ≤ last.index
      · simp [hindex, Nat.not_lt.mpr hindex]
      · rw [if_neg hindex, and_iff_right (Nat.not_le.mp hindex)]
        by_cases hterm : e.term < last.term
        · rw [if_pos hterm, if_pos hterm, writeBatch_ok_iff, hlast]
        · rw [if_neg hterm, if_neg hterm, writeBatch_ok_iff, happend]

end Batch

namespace Pipeline

section Responses

variable {s : Pipeline ι σ}

/-- The requests before the `n`-th have one response each. -/
def Numbered (s : Pipeline ι σ) (n : ℕ) : Prop :=
  s.responses.map WriteResponse.request = List.range n

def AllOk (s : Pipeline ι σ) : Prop := ∀ r ∈ s.responses, r.err = .ok ()

/-- What holds as long as the steps are `Fine`. -/
structure Inv (s : Pipeline ι σ) : Prop where
  distributed : ∀ r ∈ s.responses, r.err = .ok () → r.written = r.peers.length
  stage : match s.stage with
    | .waiting => s.Numbered s.taken ∧ s.AllOk
    | .took _ | .running _ => ∃ n, s.taken = n + 1 ∧ s.Numbered n ∧ s.AllOk
    | .writing _ peers k => k ≤ peers.length ∧ ∃ n, s.taken = n + 1 ∧ s.Numbered n ∧ s.AllOk
    | .ended => s.Numbered s.taken ∧ s.requests = []

/-- The pipeline has returned without an answer to a request, or with an error and before the other
requests. -/
def Bad (s : Pipeline ι σ) : Prop :=
  s.stage = .ended ∧ ((∃ k < s.taken, s.responses.countP (·.request = k) = 0)
    ∨ (∃ r ∈ s.responses, r.err ≠ .ok ()) ∧ s.requests ≠ [])

theorem Numbered.done {n : ℕ} (h : s.Numbered n) (htaken : s.taken = n + 1) (peers : List ι)
    (k : ℕ) (err : Except Err Unit) :
    (s.done peers k err).map WriteResponse.request = List.range s.taken := by
  rw [Pipeline.done, List.map_append, h, htaken, List.range_succ]
  rfl

theorem Numbered.count {n : ℕ} (h : s.Numbered n) (k : ℕ) :
    s.responses.countP (·.request = k) = if k < n then 1 else 0 := by
  have hcount : s.responses.countP (·.request = k)
      = (s.responses.map WriteResponse.request).count k := by
    rw [List.count, List.countP_map]
    rfl
  rw [hcount, h]
  split_ifs with hk
  · exact List.count_eq_one_of_mem List.nodup_range (List.mem_range.mpr hk)
  · exact List.count_eq_zero_of_not_mem fun hmem => hk (List.mem_range.mp hmem)

theorem mem_done {peers : List ι} {k : ℕ} {err : Except Err Unit} {r : WriteResponse ι} :
    r ∈ s.done peers k err ↔ r ∈ s.responses ∨ r = ⟨s.taken - 1, peers, k, err⟩ := by
  rw [Pipeline.done, List.mem_append, List.mem_singleton]

theorem inv_start (node : Node ι σ) (requests : List (List Entry)) :
    (start node requests).Inv :=
  ⟨nofun, rfl, nofun⟩

theorem Answered.not_bad (h : s.Answered) : ¬ s.Bad := by
  rintro ⟨-, ⟨k, hk, hcount⟩ | ⟨⟨r, hr, herr⟩, hreqs⟩⟩
  · rw [h.once k hk] at hcount
    cases hcount
  · exact hreqs (h.goesOn r hr herr)

theorem Inv.answered (h : s.Inv) (hrest : s.AtRest) : s.Answered := by
  have hst := h.stage
  unfold AtRest at hrest
  rcases hstage : s.stage with _ | _ | _ | _ | _ <;> rw [hstage] at hrest hst
  · refine ⟨fun k hk => ?_, fun r hr herr => absurd (hst.2 r hr) herr, h.distributed⟩
    rw [hst.1.count, if_pos hk]
  · exact hrest.elim
  · exact hrest.elim
  · exact hrest.elim
  · refine ⟨fun k hk => ?_, fun _ _ _ => hst.2, h.distributed⟩
    rw [hst.1.count, if_pos hk]

end Responses

section Steps

variable [DecidableEq ι] {s s' : Pipeline ι σ} {l : PipeLabel ι σ}

inductive Move (s : Pipeline ι σ) : PipeLabel ι σ → Pipeline ι σ → Prop
  | take {entries : List Entry} {requests : List (List Entry)} (hstage : s.stage = .waiting)
      (hreqs : s.requests = entries :: requests) :
      Move s .take { s with requests, taken := s.taken + 1, stage := .took entries }
  | down {entries : List Entry} (hstage : s.stage = .took entries)
      (hdown : s.node.shutdown = true) : Move s .check { s with stage := .ended }
  | check {entries : List Entry} (hstage : s.stage = .took entries)
      (hup : s.node.shutdown = false) : Move s .check { s with stage := .running entries }
  | copyPeers {entries : List Entry} (peers : List ι) (hstage : s.stage = .running entries) :
      Move s (.copyPeers peers) { s with stage := .writing entries peers 0 }
  | done {entries : List Entry} {peers : List ι} {k : ℕ}
      (hstage : s.stage = .writing entries peers k) (hk : peers.length ≤ k) :
      Move s .write { s with stage := .waiting, responses := s.done peers k (.ok ()) }
  | write {entries : List Entry} {peers : List ι} {k : ℕ} {j : ι} (buffer : List Entry)
      (hstage : s.stage = .writing entries peers k) (hj : peers[k]? = some j)
      (hfits : Fits (s.node.peers j).buffer.getLast? entries) :
      Move s .write { s with
        node := s.node.setPeer j { s.node.peers j with buffer }
        stage := .writing entries peers (k + 1) }
  | fail {entries : List Entry} {peers : List ι} {k : ℕ} {j : ι} (e : Err) (node : Node ι σ)
      (hstage : s.stage = .writing entries peers k) (hj : peers[k]? = some j)
      (hfits : ¬ Fits (s.node.peers j).buffer.getLast? entries) :
      Move s .write { s with node, stage := .ended, responses := s.done peers k (.error e) }
  | others (node : Node ι σ) : Move s (.others node) { s with node }

theorem step_cases (h : step l s = some s') : Move s l s' := by
  cases l with
  | take =>
    rw [step] at h
    split at h
    next hstage hreqs =>
      obtain rfl := Option.some.inj h
      exact .take hstage hreqs
    next => cases h
  | check =>
    rw [step] at h
    split at h
    next hstage =>
      obtain rfl := Option.some.inj h
      rcases hdown : s.node.shutdown
      · exact .check hstage hdown
      · exact .down hstage hdown
    next => cases h
  | copyPeers peers =>
    rw [step] at h
    split at h
    next hstage =>
      obtain rfl := Option.some.inj h
      exact .copyPeers peers hstage
    next => cases h
  | write =>
    rw [step] at h
    split at h
    next entries peers k hstage =>
      rcases hj : peers[k]? with _ | j <;> rw [hj] at h <;> dsimp only at h
      · obtain rfl := Option.some.inj h
        exact .done hstage (List.getElem?_eq_none_iff.mp hj)
      · have hfits : (writeBatch (s.node.peers j).buffer entries).1 = .ok () ↔ _ :=
          writeBatch_ok_iff
        rcases hbatch : writeBatch (s.node.peers j).buffer entries with ⟨e | _, buffer⟩ <;>
          rw [hbatch] at h hfits <;> obtain rfl := Option.some.inj h
        · exact .fail e _ hstage hj fun h => nomatch hfits.mpr h
        · exact .write buffer hstage hj (hfits.mp rfl)
    next => cases h
  | others node =>
    obtain rfl := Option.some.inj h
    exact .others node

/-- The pipeline is never stuck. -/
theorem exists_step_of_not_atRest (h : ¬ s.AtRest) :
    ∃ l, (∀ node, l ≠ .others node) ∧ (step l s).isSome := by
  rcases s with ⟨node, requests, taken, _ | entries | entries | ⟨entries, peers, k⟩ | _, responses⟩
  · rcases requests with _ | ⟨entries, requests⟩
    · exact absurd rfl h
    · exact ⟨.take, nofun, rfl⟩
  · exact ⟨.check, nofun, rfl⟩
  · exact ⟨.copyPeers [], nofun, rfl⟩
  · refine ⟨.write, nofun, ?_⟩
    simp only [step]
    split
    · rfl
    · split <;> rfl
  · exact absurd trivial h

theorem Inv.step (h : s.Inv) (hfine : Fine l s) (hstep : Pipeline.step l s = some s') : s'.Inv := by
  have hst := h.stage
  cases step_cases hstep with
  | take hstage hreqs =>
    rw [hstage] at hst
    exact ⟨h.distributed, _, rfl, hst⟩
  | down hstage hdown =>
    simp only [Fine, hstage] at hfine
    rw [hfine] at hdown
    cases hdown
  | check hstage hup =>
    rw [hstage] at hst
    exact ⟨h.distributed, hst⟩
  | copyPeers peers hstage =>
    rw [hstage] at hst
    exact ⟨h.distributed, Nat.zero_le _, hst⟩
  | @done entries peers k hstage hk =>
    rw [hstage] at hst
    obtain ⟨hle, n, htaken, hnum, hok⟩ := hst
    refine ⟨fun r hr hrok => ?_, hnum.done htaken peers k _, fun r hr => ?_⟩
    · rcases mem_done.mp hr with hr | rfl
      · exact h.distributed r hr hrok
      · exact Nat.le_antisymm hle hk
    · rcases mem_done.mp hr with hr | rfl
      · exact hok r hr
      · rfl
  | write buffer hstage hj hfits =>
    rw [hstage] at hst
    exact ⟨h.distributed, (List.getElem?_eq_some_iff.mp hj).1, hst.2⟩
  | @fail entries peers k j e node hstage hj hfits =>
    simp only [Fine, hstage] at hfine
    rw [hstage] at hst
    obtain ⟨-, n, htaken, hnum, hok⟩ := hst
    refine ⟨fun r hr hrok => ?_, hnum.done htaken peers k _, (hfine j hj).resolve_left hfits⟩
    rcases mem_done.mp hr with hr | rfl
    · exact h.distributed r hr hrok
    · cases hrok
  | others node => exact ⟨h.distributed, h.stage⟩

theorem Inv.bad (h : s.Inv) (hfine : ¬ Fine l s) (hstep : Pipeline.step l s = some s') :
    s'.Bad := by
  have hst := h.stage
  cases step_cases hstep with
  | take hstage hreqs => exact absurd trivial hfine
  | down hstage hdown =>
    rw [hstage] at hst
    obtain ⟨n, htaken, hnum, -⟩ := hst
    refine ⟨rfl, .inl ⟨n, ?_, ?_⟩⟩
    · rw [htaken]
      exact Nat.lt_succ_self n
    · rw [hnum.count, if_neg (Nat.lt_irrefl n)]
  | check hstage hup =>
    simp only [Fine, hstage] at hfine
    exact absurd hup hfine
  | copyPeers peers hstage => exact absurd trivial hfine
  | done hstage hk =>
    simp only [Fine, hstage, List.getElem?_eq_none hk] at hfine
    exact absurd (fun _ h => nomatch h) hfine
  | write buffer hstage hj hfits =>
    simp only [Fine, hstage, hj] at hfine
    exact absurd (fun j' hj' => .inl (Option.some.inj hj' ▸ hfits)) hfine
  | @fail entries peers k j e node hstage hj hfits =>
    simp only [Fine, hstage, hj] at hfine
    refine ⟨rfl, .inr ⟨⟨_, mem_done.mpr (.inr rfl), nofun⟩, fun hreqs => hfine ?_⟩⟩
    exact fun _ _ => .inr hreqs
  | others node => exact absurd trivial hfine

theorem Bad.step (h : s.Bad) (hstep : Pipeline.step l s = some s') : s'.Bad := by
  cases step_cases hstep with
  | take hstage => exact nomatch h.1.symm.trans hstage
  | down hstage => exact nomatch h.1.symm.trans hstage
  | check hstage => exact nomatch h.1.symm.trans hstage
  | copyPeers peers hstage => exact nomatch h.1.symm.trans hstage
  | done hstage => exact nomatch h.1.symm.trans hstage
  | write buffer hstage => exact nomatch h.1.symm.trans hstage
  | fail e node hstage => exact nomatch h.1.symm.trans hstage
  | others node => exact h

/-- The steps of a round in turn are `writeToPeers`. -/
theorem writeToPeers_run (entries : List Entry) : ∀ (left written : List ι) (s : Pipeline ι σ),
    s.stage = .writing entries (written ++ left) written.length →
      ∃ n k s', runSteps step (List.replicate n .write) s = some s'
        ∧ s'.node = (writeToPeers entries left s.node).2
        ∧ s'.responses = s.done (written ++ left) k (writeToPeers entries left s.node).1
  | [], written, s, hstage => by
    refine ⟨1, written.length, { s with
      stage := .waiting
      responses := s.done written written.length (.ok ()) }, ?_, rfl, ?_⟩
    · simp [runSteps, step, hstage]
    · rw [List.append_nil]
      rfl
  | j :: left, written, s, hstage => by
    have hj : (written ++ j :: left)[written.length]? = some j := by simp
    rw [writeToPeers]
    rcases hbatch : writeBatch (s.node.peers j).buffer entries with ⟨e | _, buffer⟩ <;> dsimp only
    · refine ⟨1, written.length, { s with
        node := { s.node.setPeer j { s.node.peers j with buffer } with pipeline := false }
        stage := .ended
        responses := s.done (written ++ j :: left) written.length (.error e) }, ?_, rfl, rfl⟩
      simp [runSteps, step, hstage, hbatch]
    · obtain ⟨n, k, s', hrun, hnode, hresp⟩ := writeToPeers_run entries left (written ++ [j])
        { s with
          node := s.node.setPeer j { s.node.peers j with buffer }
          stage := .writing entries (written ++ j :: left) (written.length + 1) } (by simp)
      rw [List.append_assoc, List.singleton_append] at hresp
      refine ⟨n + 1, k, s', ?_, hnode, hresp⟩
      rw [List.replicate_succ, runSteps]
      simp only [step, hstage, hj, hbatch]
      exact hrun

end Steps

end Pipeline

/-- Whatever the requests, the peers and their buffers are, and whatever the rest of the registry
does in between: every request that the pipeline takes is answered once, and one that fails keeps
no other from being taken, if and only if each finds the registry running and, but for the last,
fits the buffers of all peers. -/
theorem writePipeline_answers_iff [DecidableEq ι] (node : Node ι σ) (requests : List (List Entry))
    (ls : List (PipeLabel ι σ)) (s : Pipeline ι σ)
    (hrun : runSteps Pipeline.step ls (.start node requests) = some s) (hrest : s.AtRest) :
    s.Answered ↔ Along Pipeline.step Pipeline.Fine ls (.start node requests) := by
  have hstart := Pipeline.inv_start node requests
  have hstep : ∀ (l : PipeLabel ι σ) s s', s.Inv → Pipeline.Fine l s →
      Pipeline.step l s = some s' → s'.Inv := fun _ _ _ hI hfine hs => hI.step hfine hs
  refine ⟨fun h => ?_, fun h => ?_⟩
  · exact Along.of_escapes hstep (fun _ _ _ hI hfine hs => hI.bad hfine hs)
      (fun _ _ _ hbad hs => hbad.step hs) ls hstart hrun h.not_bad
  · exact (Along.invariant hstep ls hstart h hrun).answered hrest

section Witness

/-- A registry with an entry in the buffer of peer `1`. -/
def bufferedNode (index : ℕ) : Node ℕ Unit :=
  (Node.new 0 ⟨Wal.WAL.new Wal.defaultOptions, ∅, []⟩ ()).setPeer 1
    ⟨[⟨index, 1, 0, [], 0⟩], false, 0⟩

/-- The steps of a round over the peers `1` and `2`. -/
def twoPeersRound : List (PipeLabel ℕ Unit) :=
  [.take, .check, .copyPeers [1, 2], .write, .write, .write]

theorem writePipeline_answers_iff_twoRequests : ∃ s,
    runSteps Pipeline.step (twoPeersRound ++ twoPeersRound)
        (.start (bufferedNode 2) [[⟨3, 1, 0, [], 0⟩], [⟨4, 1, 0, [], 0⟩]]) = some s
      ∧ s.AtRest ∧ s.Answered := by
  obtain ⟨s, hs, hrest⟩ : ∃ s, runSteps Pipeline.step (twoPeersRound ++ twoPeersRound)
      (.start (bufferedNode 2) [[⟨3, 1, 0, [], 0⟩], [⟨4, 1, 0, [], 0⟩]]) = some s ∧ s.AtRest :=
    ⟨_, rfl, rfl⟩
  refine ⟨s, hs, hrest, (writePipeline_answers_iff _ _ _ s hs hrest).mpr ?_⟩
  simp [Along, twoPeersRound, Pipeline.Fine, Pipeline.start, Pipeline.step, bufferedNode, Node.new,
    Node.setPeer, Pipeline.Fits, writeBatch]

/-- Peer `1` has an entry past that of the first request, which fails, and the second request is
never taken. A request that is taken just before the shutdown gets no response. -/
theorem not_answered_corrupt_down :
    (∃ s, runSteps Pipeline.step [.take, .check, .copyPeers [1, 2], .write]
        (.start (bufferedNode 5) [[⟨3, 1, 0, [], 0⟩], [⟨6, 1, 0, [], 0⟩]]) = some s
      ∧ s.AtRest ∧ s.requests = [[⟨6, 1, 0, [], 0⟩]] ∧ ¬ s.Answered)
    ∧ ∃ s, runSteps Pipeline.step
        [.take, .others { bufferedNode 2 with shutdown := true }, .check]
        (.start (bufferedNode 2) [[⟨3, 1, 0, [], 0⟩]]) = some s
      ∧ s.AtRest ∧ s.taken = 1 ∧ s.responses.length = 0 ∧ ¬ s.Answered := by
  refine ⟨⟨_, rfl, trivial, rfl, fun h => ?_⟩, _, rfl, trivial, rfl, rfl, fun h => ?_⟩
  · cases h.goesOn _ List.mem_cons_self nofun
  · cases h.once 0 Nat.zero_lt_one

end Witness

end Rhosus.Cluster

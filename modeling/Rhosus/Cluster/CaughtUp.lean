import Rhosus.Cluster.Replication

/-!
# What a follower's success tells the leader

`dispatchEntries` sends the index before the leader's last one, whether it sends entries with it or
not. Where the buffer is empty, since what was in it went with a request that was lost, a follower
that lacks exactly the last entry passes the check and answers with success. That is the one way in
which it does so behind the leader (`caughtUp_iff`).
-/

namespace Rhosus.Cluster

section Handlers

variable {ι σ : Type} {env : Env σ} {n n' : Node ι σ}

theorem writeEntries_last : ∀ (es : List Entry) {n n' : Node ι σ},
    writeEntries env es n = some (.ok (), n') →
      n'.lastLogIndex = (es.getLast?.map Entry.index).getD n.lastLogIndex
  | [], n, n', h => by
    obtain ⟨-, rfl⟩ := Prod.mk.inj (Option.some.inj h)
    rfl
  | e :: es, n, n', h => by
    rw [writeEntries] at h
    rcases hw : n.onWal (Wal.write env.lru e.index e.marshal) with _ | ⟨_ | _, n₁⟩ <;> rw [hw] at h
    · cases h
    · cases h
    · rw [writeEntries_last es h, List.getLast?_cons]
      cases es.getLast? <;> rfl

theorem appendEntries_last {req : AppendEntriesRequest ι} {res : AppendEntriesResponse ι}
    (h : appendEntries env n req = some (res, n')) (hres : res.success = true) :
    req.prevLogIndex ≤ toInt64 n.lastLogIndex
      ∧ n'.lastLogIndex = (req.entries.getLast?.map Entry.index).getD n.lastLogIndex := by
  rcases appendEntries_cases h with ⟨hno, -⟩ | ⟨-, hprev, r, hw, hr⟩
  · rw [hres] at hno
    cases hno
  · obtain rfl := hr.mp hres
    obtain ⟨t, st, v, hheed, -⟩ := n.heed_eq req
    unfold writeEntriesFromLeader at hw
    split_ifs at hw
    · rw [writeEntries_last _ hw, hheed]
      exact ⟨hprev, rfl⟩
    · cases hw

theorem appendEntries_empty (env : Env σ) {req : AppendEntriesRequest ι}
    (hterm : req.term = n.currentTerm) (hprev : req.prevLogIndex ≤ toInt64 n.lastLogIndex)
    (hes : req.entries = []) :
    ∃ res n', appendEntries env n req = some (res, n') ∧ res.success = true
      ∧ n'.lastLogIndex = n.lastLogIndex := by
  have hheed : n.heed req = n := by
    simp [Node.heed, hterm, hes, PastEnd]
  refine ⟨⟨n.id, n.currentTerm, true, 0, n.lastLogIndex⟩,
    { n with storage := env.entriesHandler [] n.storage }, ?_, rfl, rfl⟩
  unfold appendEntries
  dsimp only
  rw [if_neg (by omega), if_neg (by omega), hheed, hes]
  rfl

theorem writeBatch_single {b : List Entry} {e : Entry}
    (h : ∀ last ∈ b.getLast?, last.index < e.index ∧ last.term ≤ e.term) :
    writeBatch b [e] = (.ok (), b ++ [e]) := by
  rw [writeBatch]
  rcases hb : b.getLast? with _ | last
  · rfl
  · obtain ⟨hi, ht⟩ := h last hb
    dsimp only
    rw [if_neg (by omega), if_neg (by omega)]
    rfl

/-- What a write that is handed over in time does, where there is one peer: nothing to the index and
the buffer, or it puts an entry with the next index into the buffer. -/
theorem writeEntry_handed [DecidableEq ι] {j : ι} {typ : EntryType} {data : Bytes} {now : Int64}
    {r : Except Err Unit} (hp : n.pipeline = true) (hi : n.lastLogIndex + 1 < 2 ^ 64)
    (hb : ∀ e ∈ (n.peers j).buffer.getLast?, e.index = n.lastLogIndex ∧ e.term ≤ n.currentTerm)
    (h : writeEntry env typ data now true [j] n = some (r, n')) :
    n'.pipeline = true ∧ n'.currentTerm = n.currentTerm
      ∧ (n'.lastLogIndex = n.lastLogIndex ∧ n'.peers = n.peers
        ∨ n'.lastLogIndex = n.lastLogIndex + 1 ∧ ∃ e, e.index = n.lastLogIndex + 1
          ∧ e.term = n.currentTerm ∧ (n'.peers j).buffer = (n.peers j).buffer ++ [e]) := by
  unfold writeEntry at h
  split_ifs at h
  · obtain ⟨-, rfl⟩ := Prod.mk.inj (Option.some.inj h)
    exact ⟨hp, rfl, .inl ⟨rfl, rfl⟩⟩
  · have hindex : (n.nextEntry typ data now).index = n.lastLogIndex + 1 := Nat.mod_eq_of_lt hi
    dsimp only at h
    split at h
    · cases h
    · rename_i hw
      obtain ⟨-, rfl⟩ := Prod.mk.inj (Option.some.inj h)
      obtain ⟨wal, rfl⟩ := Node.onWal_eq hw
      exact ⟨hp, rfl, .inl ⟨rfl, rfl⟩⟩
    · rename_i hw
      obtain ⟨wal, rfl⟩ := Node.onWal_eq hw
      have hbatch : writeBatch (n.peers j).buffer [n.nextEntry typ data now]
          = (.ok (), (n.peers j).buffer ++ [n.nextEntry typ data now]) :=
        writeBatch_single fun last hlast => by
          obtain ⟨hi', ht⟩ := hb last hlast
          exact ⟨by omega, ht⟩
      have hover := Option.some.inj h
      rw [handOver, if_pos ⟨hp, rfl⟩, writeToPeers] at hover
      simp only [Node.endWith, hbatch, writeToPeers] at hover
      obtain ⟨-, rfl⟩ := Prod.mk.inj hover
      refine ⟨hp, rfl, .inr ⟨hindex, n.nextEntry typ data now, hindex, rfl, ?_⟩⟩
      simp only [Node.setPeer, Function.update_self]

end Handlers

section Watch

variable {σ : Type} {env : Env σ} {s s' : Sys 2 σ} {T : ℕ}

/-- The cluster, with the calls that `dispatchEntries` has made: the number of each, and the
`lastLogIndex` that the leader had when it was read for it. -/
structure Watched (σ : Type) where
  sys : Sys 2 σ
  made : List (ℕ × ℕ)

/-- The call that `dispatchEntries` makes in this step. -/
def Sys.dispatches (s : Sys 2 σ) : Label 2 → List (ℕ × ℕ)
  | .advance p =>
    match s.procs[p]? with
    | some ⟨_, _, .readIndex _ lastLogIndex⟩ => [(s.appendCalls.length, lastLogIndex)]
    | _ => []
  | _ => []

def Watched.step (env : Env σ) (l : Label 2) (w : Watched σ) : Option (Watched σ) :=
  (Cluster.step env l w.sys).map fun s => ⟨s, w.made ++ w.sys.dispatches l⟩

def Label.delivers : Label 2 → Option ℕ
  | .deliverAppend k => some k
  | _ => none

/-- If this step delivers a call of `dispatchEntries` and the follower answers with success, then
its log reaches the index that was read for the call. -/
def CaughtUp (env : Env σ) (l : Label 2) (w : Watched σ) : Prop :=
  ∀ d ∈ w.made, l.delivers = some d.1 → ∀ s' ∈ Cluster.step env l w.sys,
    ∀ res ∈ s'.answerTo d.1, res.success = true → d.2 ≤ (s'.nodes 1).lastLogIndex

instance (env : Env σ) (l : Label 2) (w : Watched σ) : Decidable (CaughtUp env l w) :=
  inferInstanceAs (Decidable (∀ d ∈ w.made, _ → ∀ s' ∈ Cluster.step env l w.sys,
    ∀ res ∈ s'.answerTo d.1, res.success = true → d.2 ≤ (s'.nodes 1).lastLogIndex))

/-- If this step delivers a call of `dispatchEntries` without entries, then the follower does not
lack exactly the last entry. -/
def NotOneBehind (l : Label 2) (w : Watched σ) : Prop :=
  ∀ d ∈ w.made, l.delivers = some d.1 → ∀ c ∈ w.sys.appendCalls[d.1]?, c.res = none →
    c.req.entries = [] → (w.sys.nodes 1).lastLogIndex + 1 ≠ d.2

instance (l : Label 2) (w : Watched σ) : Decidable (NotOneBehind l w) :=
  inferInstanceAs (Decidable (∀ d ∈ w.made, _ → ∀ c ∈ w.sys.appendCalls[d.1]?, c.res = none →
    c.req.entries = [] → (w.sys.nodes 1).lastLogIndex + 1 ≠ d.2))

/-- The leader writes, dispatches and recovers. Its entries are handed over in time, and their
indexes are no larger than an `int64` can tell. -/
def Dispatching (l : Label 2) (w : Watched σ) : Prop :=
  l.led = true ∧ match l with
    | .write _ _ _ _ timely _ => timely = true ∧ (w.sys.nodes 0).lastLogIndex < 2 ^ 63
    | _ => True

instance (l : Label 2) (w : Watched σ) : Decidable (Dispatching l w) := by
  unfold Dispatching
  split <;> infer_instance

/-- The first registry leads the second in the term `T`, whatever the logs, and has not dispatched
anything yet. -/
structure Leads (T : ℕ) (s : Sys 2 σ) : Prop where
  term : ∀ i, (s.nodes i).currentTerm = T
  state : (s.nodes 1).state ≠ .leader
  pipeline : (s.nodes 0).pipeline = true
  buffer : ((s.nodes 0).peers 1).buffer = []
  last : (s.nodes 0).lastLogIndex ≤ 2 ^ 63
  calls : s.appendCalls = []
  procs : s.procs = []

/-- A goroutine works in the term `T`, and has read no index past `last`. -/
def Stage.Within (T last : ℕ) : Stage → Prop
  | .readTerm currentTerm | .next _ currentTerm _ | .resent _ currentTerm _ _ => currentTerm = T
  | .readIndex currentTerm lastLogIndex => currentTerm = T ∧ lastLogIndex ≤ last
  | .ticked | .started | .sent _ | .behind _ | .marked _ | .readLast _ _ | .done => True

theorem Stage.Within.mono {last last' : ℕ} (h : last ≤ last') :
    ∀ {stage : Stage}, stage.Within T last → stage.Within T last'
  | .readIndex _ _, hw => ⟨hw.1, hw.2.trans h⟩
  | .readTerm _, hw | .next .., hw | .resent .., hw => hw
  | .ticked, _ | .started, _ | .sent _, _ | .behind _, _ | .marked _, _ | .readLast .., _
  | .done, _ => trivial

/-- A call that was made for this index: it tells the index before it, and its entries reach it. -/
def AppendCall.For (c : AppendCall (Fin 2)) (index : ℕ) : Prop :=
  index ≤ 2 ^ 63 ∧ c.req.prevLogIndex = index - 1 ∧ ∀ e ∈ c.req.entries.getLast?, index ≤ e.index

/-- What holds at every moment. -/
structure Watch (T : ℕ) (s : Sys 2 σ) (made : List (ℕ × ℕ)) : Prop where
  term : ∀ i, (s.nodes i).currentTerm = T
  pipeline : (s.nodes 0).pipeline = true
  last : (s.nodes 0).lastLogIndex ≤ 2 ^ 63
  buffer : ∀ e ∈ ((s.nodes 0).peers 1).buffer.getLast?,
    e.index = (s.nodes 0).lastLogIndex ∧ e.term ≤ T
  stage : ∀ p ∈ s.procs, p.stage.Within T (s.nodes 0).lastLogIndex
  call : ∀ c ∈ s.appendCalls, c.req.term = T
  made : ∀ d ∈ made, ∃ c, s.appendCalls[d.1]? = some c ∧ c.For d.2

theorem Leads.watch (h : Leads T s) : Watch T s [] where
  term := h.term
  pipeline := h.pipeline
  last := h.last
  buffer := by simp [h.buffer]
  stage := by simp [h.procs]
  call := by simp [h.calls]
  made := by simp

theorem Leads.led (h : Leads T s) : Led s :=
  ⟨h.state, by simp [h.procs], by simp [h.calls]⟩

theorem bmod_two_pow {x : ℤ} (h : -2 ^ 63 ≤ x) (h' : x < 2 ^ 63) : x.bmod (2 ^ 64) = x :=
  Int.bmod_eq_of_le (by norm_num; omega) (by norm_num; omega)

theorem toInt64_eq {x : ℕ} (h : x < 2 ^ 63) : toInt64 x = x :=
  bmod_two_pow (by omega) (by exact_mod_cast h)

theorem prevLogIndex_eq {x : ℕ} (h : x ≤ 2 ^ 63) :
    Int.bmod (toInt64 x - 1) (2 ^ 64) = (x : ℤ) - 1 := by
  have hx : (x : ℤ) ≤ 2 ^ 63 := by exact_mod_cast h
  exact Int.bmod_sub_bmod.trans (bmod_two_pow (by omega) (by omega))

section Step

variable {made : List (ℕ × ℕ)} {p : ℕ} {stage stage' : Stage}

theorem Watch.setProc (h : Watch T s made) (stage : Stage)
    (hw : stage.Within T (s.nodes 0).lastLogIndex) {i j : Fin 2} :
    Watch T (s.setProc p ⟨i, j, stage⟩) made := by
  refine ⟨h.term, h.pipeline, h.last, h.buffer, fun q hq => ?_, h.call, h.made⟩
  rcases List.mem_or_eq_of_mem_set hq with hq | rfl
  · exact h.stage q hq
  · exact hw

theorem Watch.term_setNode (h : Watch T s made) {i : Fin 2} {n : Node (Fin 2) σ}
    (hn : n.currentTerm = T) : ∀ v, ((s.setNode i n).nodes v).currentTerm = T :=
  Sys.forall_setNode (P := fun _ n => n.currentTerm = T) hn h.term

/-- The leader's log is read, or what it keeps for the follower changes, not with more in its
buffer. -/
theorem Watch.setNode (h : Watch T s made) {n : Node (Fin 2) σ} {peers : Fin 2 → Peer}
    {wal : World Wal.Name Wal.WAL} (hn : n = { s.nodes 0 with peers, wal })
    (hb : (peers 1).buffer = ((s.nodes 0).peers 1).buffer ∨ (peers 1).buffer = []) :
    Watch T (s.setNode 0 n) made := by
  have hzero : (s.setNode 0 n).nodes 0 = n := by simp [Sys.setNode]
  refine ⟨h.term_setNode (by rw [hn]; exact h.term 0), ?_, ?_, ?_, ?_, h.call, h.made⟩
  all_goals rw [hzero, hn]
  · exact h.pipeline
  · exact h.last
  · rcases hb with hb | hb <;> dsimp only <;> rw [hb]
    · exact h.buffer
    · intro e he
      cases he
  · exact h.stage

theorem Watch.setPeer (h : Watch T s made) {q : Peer}
    (hb : q.buffer = ((s.nodes 0).peers 1).buffer ∨ q.buffer = []) :
    Watch T (s.setPeer 0 1 q) made :=
  h.setNode rfl (by rwa [Function.update_self])

theorem Watch.recovered (h : Watch T s made) : Watch T (s.recovered p 0 1) made :=
  (h.setPeer (q := { (s.nodes 0).peers 1 with recovering := false }) (.inl rfl)).setProc
    .done trivial

theorem Watch.addCall (h : Watch T s made) (req : AppendEntriesRequest (Fin 2))
    (stage : ℕ → Stage) (hreq : req.term = T)
    (hw : (stage s.appendCalls.length).Within T (s.nodes 0).lastLogIndex) :
    Watch T (s.call p 0 1 req stage) made := by
  have hproc : Watch T (s.setProc p ⟨0, 1, stage s.appendCalls.length⟩) made := h.setProc _ hw
  refine ⟨hproc.term, hproc.pipeline, hproc.last, hproc.buffer, hproc.stage, fun c hc => ?_,
    fun d hd => ?_⟩
  · rcases List.mem_append.mp hc with hc | hc
    · exact h.call c hc
    · rw [List.mem_singleton.mp hc]
      exact hreq
  · obtain ⟨c, hc, hfor⟩ := h.made d hd
    exact ⟨c, (List.getElem?_append_left (List.getElem?_eq_some_iff.mp hc).1).trans hc, hfor⟩

theorem Watch.dispatch (h : Watch T s made) {lastLogIndex : ℕ}
    (hw : (Stage.readIndex T lastLogIndex).Within T (s.nodes 0).lastLogIndex) :
    Watch T ((s.setPeer 0 1 { (s.nodes 0).peers 1 with buffer := [] }).call p 0 1
      ⟨T, 0, Int.bmod (toInt64 lastLogIndex - 1) (2 ^ 64), ((s.nodes 0).peers 1).buffer⟩ .sent)
      (made ++ [(s.appendCalls.length, lastLogIndex)]) := by
  have hcall := (h.setPeer (q := { (s.nodes 0).peers 1 with buffer := [] }) (.inr rfl)).addCall
    (p := p) ⟨T, 0, Int.bmod (toInt64 lastLogIndex - 1) (2 ^ 64), ((s.nodes 0).peers 1).buffer⟩
      .sent rfl trivial
  refine { hcall with made := fun d hd => ?_ }
  rcases List.mem_append.mp hd with hd | hd
  · exact hcall.made d hd
  · obtain rfl := List.mem_singleton.mp hd
    have hle := hw.2.trans h.last
    refine ⟨_, List.getElem?_concat_length, hle, ?_, fun e he => ?_⟩
    · simp only [prevLogIndex_eq hle]
    · rw [(h.buffer e he).1]
      exact hw.2

theorem Watch.advance (h : Watch T s made) (hled : Led s) (hs : s.advance env p = some s') :
    Watch T s' (made ++ s.dispatches (.advance p)) := by
  unfold Sys.advance at hs
  rcases hp : s.procs[p]? with _ | ⟨i, j, stage⟩ <;> rw [hp] at hs
  · cases hs
  · have hmem := List.mem_of_getElem? hp
    obtain ⟨rfl, rfl⟩ : i = 0 ∧ j = 1 := hled.proc _ hmem
    have hw := h.stage _ hmem
    rw [Sys.dispatches, hp]
    cases stage with
    | readIndex currentTerm lastLogIndex =>
      obtain rfl := Option.some.inj hs
      obtain rfl : currentTerm = T := hw.1
      exact h.dispatch hw
    | ticked =>
      obtain rfl := Option.some.inj hs
      rw [List.append_nil]
      exact h.setProc _ (by split_ifs <;> trivial)
    | started =>
      obtain rfl := Option.some.inj hs
      rw [List.append_nil]
      exact h.setProc (.readTerm _) (h.term 0)
    | readTerm currentTerm =>
      obtain rfl := Option.some.inj hs
      rw [List.append_nil]
      exact h.setProc (.readIndex _ _) ⟨hw, le_rfl⟩
    | behind start =>
      obtain rfl := Option.some.inj hs
      rw [List.append_nil]
      have hpeer := h.setPeer (q := { (s.nodes 0).peers 1 with recovering := true }) (.inl rfl)
      exact hpeer.setProc (.marked start) trivial
    | marked start =>
      obtain rfl := Option.some.inj hs
      rw [List.append_nil]
      exact h.setProc (.readLast _ _) trivial
    | readLast start lastIndex =>
      obtain rfl := Option.some.inj hs
      rw [List.append_nil]
      exact h.setProc (.next _ _ _) (h.term 0)
    | next lastIndex currentTerm index =>
      rw [List.append_nil]
      dsimp only at hs
      unfold Sys.sendNext at hs
      split_ifs at hs
      · rcases hr : (s.nodes 0).onWal (Wal.read env.lru index) with _ | ⟨_ | bytes, n⟩ <;>
          rw [hr] at hs
        · cases hs
        · obtain rfl := Option.some.inj hs
          obtain ⟨wal, hn⟩ := Node.onWal_eq hr
          exact (h.setNode hn (.inl rfl)).recovered
        · obtain rfl := Option.some.inj hs
          obtain ⟨wal, hn⟩ := Node.onWal_eq hr
          exact (h.setNode hn (.inl rfl)).addCall _ (.resent _ _ _) hw hw
      · obtain rfl := Option.some.inj hs
        exact h.recovered
    | sent | resent | done => cases hs

theorem Watch.answer (h : Watch T s made) (hled : Led s) (hs : s.answer p = some s') :
    Watch T s' made := by
  unfold Sys.answer at hs
  split at hs
  · rename_i i j call hp
    obtain ⟨res, -, rfl⟩ := Option.map_eq_some_iff.mp hs
    exact h.setProc _ (by split_ifs <;> trivial)
  · rename_i i j lastIndex currentTerm index call hp
    obtain ⟨res, -, rfl⟩ := Option.map_eq_some_iff.mp hs
    have hmem := List.mem_of_getElem? hp
    obtain ⟨rfl, rfl⟩ : i = 0 ∧ j = 1 := hled.proc _ hmem
    split_ifs
    · have hpeer := h.setPeer (q := { (s.nodes 0).peers 1 with lastCommittedIndex := index })
        (.inl rfl)
      exact hpeer.setProc (.next _ _ _) (h.stage _ hmem)
    · exact h.recovered
  · cases hs

theorem Watch.error (h : Watch T s made) (hled : Led s) (hs : s.error p = some s') :
    Watch T s' made := by
  unfold Sys.error at hs
  split at hs
  · obtain rfl := Option.some.inj hs
    exact h.setProc .done trivial
  · rename_i i j lastIndex currentTerm index call hp
    obtain rfl := Option.some.inj hs
    obtain ⟨rfl, rfl⟩ : i = 0 ∧ j = 1 := hled.proc _ (List.mem_of_getElem? hp)
    exact h.recovered
  · cases hs

theorem Watch.write (h : Watch T s made) {typ : EntryType} {data : Payload} {now : Int64}
    {order : List (Fin 2)} (hi : (s.nodes 0).lastLogIndex < 2 ^ 63)
    (hs : s.write env 0 typ data now true order = some s') : Watch T s' made := by
  unfold Sys.write at hs
  split_ifs at hs with horder
  obtain rfl : order = [1] := List.perm_singleton.mp horder
  split at hs
  · rename_i r n hw
    obtain rfl := Option.some.inj hs
    obtain ⟨hp, ht, hn⟩ := writeEntry_handed h.pipeline (by omega)
      (fun e he => by rw [h.term]; exact h.buffer e he) hw
    have hzero : (s.setNode 0 n).nodes 0 = n := by simp [Sys.setNode]
    refine ⟨h.term_setNode (ht.trans (h.term 0)), ?_, ?_, ?_, ?_, h.call, h.made⟩
    all_goals rw [hzero]
    · exact hp
    · rcases hn with ⟨hlast, -⟩ | ⟨hlast, -⟩ <;> omega
    · rcases hn with ⟨hlast, hpeers⟩ | ⟨hlast, e, hindex, hterm, hbuf⟩
      · rw [hpeers, hlast]
        exact h.buffer
      · rw [hbuf, hlast, List.getLast?_concat]
        rintro e' he'
        obtain rfl := Option.some.inj he'
        exact ⟨hindex, (hterm.trans (h.term 0)).le⟩
    · intro q hq
      refine (h.stage q hq).mono ?_
      rcases hn with ⟨hlast, -⟩ | ⟨hlast, -⟩ <;> omega
  · cases hs

theorem deliverAppend_eq {k : ℕ} {c : AppendCall (Fin 2)} (hc : s.appendCalls[k]? = some c) :
    s.deliverAppend env k = if c.res = none then
      (appendEntries env (s.nodes c.dst) c.req).map fun r =>
        { s.setNode c.dst r.2 with appendCalls := s.appendCalls.set k { c with res := some r.1 } }
    else none := by
  obtain ⟨src, dst, req, _ | res⟩ := c <;> simp only [Sys.deliverAppend, hc]
  · rcases appendEntries env (s.nodes dst) req with _ | ⟨res, n⟩ <;> rfl
  · rfl

theorem Watch.deliver (h : Watch T s made) (hled : Led s) {k : ℕ}
    (hs : s.deliverAppend env k = some s') : Watch T s' made := by
  rcases hc : s.appendCalls[k]? with _ | c
  · simp only [Sys.deliverAppend, hc, reduceCtorEq] at hs
  · rw [deliverAppend_eq hc] at hs
    split_ifs at hs
    obtain ⟨⟨res, n⟩, ha, rfl⟩ := Option.map_eq_some_iff.mp hs
    have hmem := List.mem_of_getElem? hc
    have hdst : c.dst = 1 := (hled.call c hmem).2
    have hterm : n.currentTerm = T := by
      have hheed : ((s.nodes c.dst).heed c.req).currentTerm = T := by
        obtain ⟨t, st, v, heq, rfl | rfl⟩ := (s.nodes c.dst).heed_eq c.req <;> rw [heq]
        · exact h.term _
        · exact h.call c hmem
      rcases appendEntries_cases ha with ⟨-, rfl, -⟩ | ⟨-, -, r, hw, -⟩
      · exact hheed
      · obtain ⟨wal, storage, li, lt, rfl⟩ := writeEntriesFromLeader_eq hw
        exact hheed
    have hzero : Function.update s.nodes c.dst n 0 = s.nodes 0 :=
      Function.update_of_ne (by rw [hdst]; decide) ..
    refine ⟨h.term_setNode hterm, ?_, ?_, ?_, ?_, fun c' hc' => ?_, fun d hd => ?_⟩
    · change (Function.update s.nodes c.dst n 0).pipeline = true
      rw [hzero]
      exact h.pipeline
    · change (Function.update s.nodes c.dst n 0).lastLogIndex ≤ 2 ^ 63
      rw [hzero]
      exact h.last
    · change ∀ e ∈ ((Function.update s.nodes c.dst n 0).peers 1).buffer.getLast?,
        e.index = (Function.update s.nodes c.dst n 0).lastLogIndex ∧ e.term ≤ T
      rw [hzero]
      exact h.buffer
    · change ∀ p ∈ s.procs, p.stage.Within T (Function.update s.nodes c.dst n 0).lastLogIndex
      rw [hzero]
      exact h.stage
    · rcases List.mem_or_eq_of_mem_set hc' with hc' | rfl
      · exact h.call c' hc'
      · exact h.call c hmem
    · obtain ⟨c', hc', hfor⟩ := h.made d hd
      by_cases hk : k = d.1
      · subst hk
        obtain rfl := Option.some.inj (hc.symm.trans hc')
        exact ⟨_, List.getElem?_set_self (List.getElem?_eq_some_iff.mp hc).1, hfor⟩
      · exact ⟨c', (List.getElem?_set_ne hk).trans hc', hfor⟩

theorem Watch.step (h : Watch T s made) (hled : Led s) {l : Label 2}
    (hl : Dispatching l ⟨s, made⟩) (hs : step env l s = some s') :
    Watch T s' (made ++ s.dispatches l) := by
  have hsame : Watch T s' made → Watch T s' (made ++ []) := fun h => by rwa [List.append_nil]
  cases l with
  | startElection | voteAnswer | voteError | tally | deliverVote => cases hl.1
  | deliverAppend k => exact hsame (h.deliver hled hs)
  | write i typ data now timely order =>
    obtain rfl : i = 0 := of_decide_eq_true hl.1
    obtain ⟨rfl, hi⟩ := hl.2
    exact hsame (h.write hi hs)
  | tick i j =>
    change s.tick i j = some s' at hs
    unfold Sys.tick at hs
    split_ifs at hs
    obtain rfl := Option.some.inj hs
    refine hsame { h with stage := fun q hq => ?_ }
    rcases List.mem_append.mp hq with hq | hq
    · exact h.stage q hq
    · rw [List.mem_singleton.mp hq]
      trivial
  | advance p => exact h.advance hled hs
  | answer p => exact hsame (h.answer hled hs)
  | error p => exact hsame (h.error hled hs)

theorem Label.delivers_eq {l : Label 2} {k : ℕ} (h : l.delivers = some k) :
    l = .deliverAppend k := by
  cases l with
  | deliverAppend k' => rw [Option.some.inj h]
  | _ => cases h

theorem Led.deliverAppend_iff (hled : Led s) {k : ℕ} {c : AppendCall (Fin 2)}
    (hc : s.appendCalls[k]? = some c) :
    s.deliverAppend env k = some s' ↔ c.res = none ∧ ∃ res n,
      appendEntries env (s.nodes 1) c.req = some (res, n) ∧
        { s.setNode 1 n with appendCalls :=
            s.appendCalls.set k { c with res := some res } } = s' := by
  have hdst : c.dst = 1 := (hled.call c (List.mem_of_getElem? hc)).2
  rw [deliverAppend_eq hc, hdst]
  split_ifs with hnew <;> simp [hnew]

theorem answerTo_set {k : ℕ} {c c' : AppendCall (Fin 2)} {n : Node (Fin 2) σ}
    (hc : s.appendCalls[k]? = some c) :
    { s.setNode 1 n with appendCalls := s.appendCalls.set k c' }.answerTo k = c'.res := by
  simp only [Sys.answerTo, List.getElem?_set_self (List.getElem?_eq_some_iff.mp hc).1,
    Option.bind_some]

theorem Watch.delivered_iff (h : Watch T s made) (hled : Led s) (l : Label 2) :
    CaughtUp env l ⟨s, made⟩ ↔ NotOneBehind l ⟨s, made⟩ := by
  constructor
  · intro hup d hd hl c hc hnew hes heq
    obtain rfl := Label.delivers_eq hl
    obtain ⟨c', hc', hle, hprev, -⟩ := h.made d hd
    obtain rfl := Option.some.inj (hc.symm.trans hc')
    change (s.nodes 1).lastLogIndex + 1 = d.2 at heq
    have hterm : c.req.term = (s.nodes 1).currentTerm := by
      rw [h.term 1, h.call c (List.mem_of_getElem? hc)]
    have hlast : toInt64 (s.nodes 1).lastLogIndex = (s.nodes 1).lastLogIndex :=
      toInt64_eq (by omega)
    obtain ⟨res, n, ha, hres, hn⟩ := appendEntries_empty env hterm (by omega) hes
    have hle := hup d hd rfl _ ((hled.deliverAppend_iff hc).mpr ⟨hnew, res, n, ha, rfl⟩) res
      (answerTo_set hc) hres
    simp only [Sys.setNode, Function.update_self] at hle
    omega
  · intro hnot d hd hl s' hs res hans hres
    obtain rfl := Label.delivers_eq hl
    obtain ⟨c, hc, hle, hprev, hreach⟩ := h.made d hd
    obtain ⟨hnew, res', n, ha, rfl⟩ := (hled.deliverAppend_iff hc).mp hs
    obtain rfl := Option.some.inj ((answerTo_set hc).symm.trans hans)
    obtain ⟨hcheck, hlast⟩ := appendEntries_last ha hres
    simp only [Sys.setNode, Function.update_self]
    rw [hlast]
    rcases hes : c.req.entries.getLast? with _ | e
    · have hne := hnot d hd rfl c hc hnew (List.getLast?_eq_none_iff.mp hes)
      change (s.nodes 1).lastLogIndex + 1 ≠ d.2 at hne
      change d.2 ≤ (s.nodes 1).lastLogIndex
      by_cases hbig : (s.nodes 1).lastLogIndex < 2 ^ 63
      · rw [toInt64_eq hbig, hprev] at hcheck
        omega
      · omega
    · exact hreach e hes

end Step

/-- The request with the entry is lost, and so is the entry, which has left the buffer. -/
def lostThenBeat : List (Label 2) :=
  [writeOne, .tick 0 1, .advance 0, .advance 0, .advance 0, .advance 0, .error 0,
    .tick 0 1, .advance 1, .advance 1, .advance 1, .advance 1, .deliverAppend 1]

theorem stable_leads : Leads 1 (Sys.stable 1) :=
  ⟨fun _ => rfl, by decide, rfl, rfl, by decide, rfl, rfl⟩

end Watch

end Rhosus.Cluster

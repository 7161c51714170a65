import Rhosus.Cluster.Replication

/-!
# Recovering a follower

`startLogRecovering` reads the leader's log from an index on and sends each entry in a request of
its own. A follower that has the entries up to there writes each of them and hands it to storage,
so that in the end it has the leader's log (`recovery_copies`). The cluster's model takes the same
way step by step (`Sys.exists_recovery_run`).
-/

namespace Rhosus.Cluster

inductive RecoverErr
  | wal (e : Wal.Err)
  | unexpected
  deriving DecidableEq

section Loop

variable {ι σ : Type} [DecidableEq ι] (env : Env σ) (uid : ι)

/-- The request of `startLogRecovering` for the entry at `index`. -/
def Node.recoverRequest (leader : Node ι σ) (currentTerm index : ℕ) (bytes : Bytes) :
    AppendEntriesRequest ι :=
  ⟨currentTerm, leader.id, toInt64 ((index + (2 ^ 64 - 1)) % 2 ^ 64), [(Entry.unmarshal bytes).1]⟩

/-- The loop of `startLogRecovering` from `index` on, with calls that the follower's handler
answers; `fuel` bounds the rounds. Nothing comes out of a panic. -/
def recoverEntries (lastIndex currentTerm : ℕ) : ℕ → ℕ → Node ι σ → Node ι σ →
    Option (Except RecoverErr Unit × Node ι σ × Node ι σ)
  | 0, _, _, _ => none
  | fuel + 1, index, leader, follower =>
    if index ≤ lastIndex then
      match leader.onWal (Wal.read env.lru index) with
      | none => none
      | some (.error e, leader) => some (.error (.wal e), leader, follower)
      | some (.ok bytes, leader) =>
        match appendEntries env follower (leader.recoverRequest currentTerm index bytes) with
        | none => none
        | some (res, follower) =>
          if res.success then
            recoverEntries lastIndex currentTerm fuel ((index + 1) % 2 ^ 64)
              (leader.setPeer uid { leader.peers uid with lastCommittedIndex := index }) follower
          else some (.error .unexpected, leader, follower)
    else some (.ok (), leader, follower)

/-- What it returns, and the two registries after it. -/
def startLogRecovering (start fuel : ℕ) (leader follower : Node ι σ) :
    Option (Except RecoverErr Unit × Node ι σ × Node ι σ) :=
  let leader := leader.setPeer uid { leader.peers uid with recovering := true }
  (recoverEntries env uid leader.lastLogIndex leader.currentTerm fuel ((start + 1) % 2 ^ 64)
    leader follower).map fun (r, leader, follower) =>
      (r, leader.setPeer uid { leader.peers uid with recovering := false }, follower)

end Loop

section Copies

variable {ι σ : Type} {env : Env σ} {es : List Entry} {leader follower : Node ι σ}

/-- The registry's write-ahead log has these entries, no operation on its files fails, and its last
index is that of the last entry. -/
structure Node.HasLog (n : Node ι σ) (es : List Entry) : Prop where
  rep : Wal.Rep n.wal (logOf es)
  plan : n.wal.plan = []
  lastLogIndex : n.lastLogIndex = es.length

/-- The entries have the indexes from 1 on, and can be read back from their bytes. -/
structure Numbered (es : List Entry) : Prop where
  index : Consecutive 0 es
  wf : ∀ e ∈ es, e.Wf

theorem appendEntries_of_written {n n' : Node ι σ} {req : AppendEntriesRequest ι}
    (hterm : n.currentTerm ≤ req.term) (hprev : req.prevLogIndex ≤ toInt64 n.lastLogIndex)
    (hw : writeEntriesFromLeader env req.entries (n.heed req) = some (.ok (), n')) :
    appendEntries env n req = some (⟨n'.id, n'.currentTerm, true, 0, n'.lastLogIndex⟩, n') := by
  unfold appendEntries
  dsimp only
  rw [if_neg (not_lt.mpr hterm), if_neg (not_lt.mpr hprev), hw]

theorem writeEntries_one {n : Node ι σ} {e : Entry} {wal : World Wal.Name Wal.WAL}
    (hw : Wal.write env.lru e.index e.marshal n.wal = (.ok (), wal)) :
    writeEntries env [e] n = some (.ok (), { n.endWith e with wal }) := by
  rw [writeEntries, Node.onWal_ok hw]
  rfl

theorem Node.HasLog.appendEntry (hlru : env.lru.Lawful) {k : ℕ} {e : Entry} {term : ℕ}
    (h : follower.HasLog (es.take k)) (id : ι) (hes : Numbered es) (hk : es[k]? = some e)
    (hterm : follower.currentTerm ≤ term) :
    ∃ res n, appendEntries env follower ⟨term, id, toInt64 k, [e]⟩ = some (res, n)
      ∧ res.success = true ∧ n.HasLog (es.take (k + 1)) ∧ n.lastLogTerm = e.term
      ∧ n.currentTerm = term ∧ n.storage = env.entriesHandler [e] follower.storage := by
  have hlen : (es.take k).length = k := by
    have := (List.getElem?_eq_some_iff.mp hk).1
    rw [List.length_take]
    omega
  have hlast : follower.lastLogIndex = k := h.lastLogIndex.trans hlen
  have hindex : e.index = k + 1 := by simpa using hes.index.index hk
  have htake : es.take (k + 1) = es.take k ++ [e] := by
    rw [List.take_add_one, hk, Option.toList_some]
  obtain ⟨wal, hw, hrep, hp⟩ := write_logOf hlru h.rep h.plan (hlen.symm ▸ hindex)
    (hes.wf e (List.mem_of_getElem? hk))
  have hpast : PastEnd [e] follower.lastLogIndex := ⟨e, rfl, by omega⟩
  have hheed : follower.heed ⟨term, id, toInt64 k, [e]⟩ = follower.stepDown term :=
    if_pos (.inr hpast)
  have hwritten : writeEntriesFromLeader env [e] (follower.stepDown term) = some (.ok (),
      { (follower.stepDown term).endWith e with
        wal := wal, storage := env.entriesHandler [e] follower.storage }) :=
    (if_pos rfl).trans (writeEntries_one (n := { follower.stepDown term with
      storage := env.entriesHandler [e] follower.storage }) hw)
  refine ⟨_, _, appendEntries_of_written hterm (by rw [hlast]) (by rw [hheed]; exact hwritten),
    rfl, ⟨by rwa [htake], hp, ?_⟩, rfl, rfl, rfl⟩
  change e.index = _
  rw [hindex, htake, List.length_append, hlen, List.length_singleton]

theorem Node.HasLog.readEntry (hlru : env.lru.Lawful) (h : leader.HasLog es) (hes : Numbered es)
    {k : ℕ} {e : Entry} (hk : es[k]? = some e) :
    ∃ wal bytes, leader.onWal (Wal.read env.lru (k + 1)) = some (.ok bytes, { leader with wal })
      ∧ (Entry.unmarshal bytes).1 = e ∧ Node.HasLog { leader with wal } es := by
  obtain ⟨wal, hw, hrep, hp⟩ := read_logOf hlru h.rep h.plan (k + 1)
  rw [Wal.Log.read, logOf_get?, hk] at hw
  refine ⟨wal, e.marshal, Node.onWal_ok hw, ?_, hrep, hp, h.lastLogIndex⟩
  rw [Entry.unmarshal_marshal (hes.wf e (List.mem_of_getElem? hk))]

variable [DecidableEq ι]

/-- The loop from the entry after the follower's `k` on: it sends the rest of the log. -/
theorem recoverEntries_spec (uid : ι) (hlru : env.lru.Lawful) (hes : Numbered es)
    (hmax : es.length + 1 < 2 ^ 64) {term : ℕ} (m : ℕ) :
    ∀ (fuel k : ℕ) (leader follower : Node ι σ), k + m = es.length → m < fuel →
      leader.HasLog es → follower.HasLog (es.take k) → follower.currentTerm ≤ term →
      ∃ wal peers n, recoverEntries env uid es.length term fuel (k + 1) leader follower
          = some (.ok (), { leader with wal, peers }, n)
        ∧ Node.HasLog { leader with wal, peers } es ∧ n.HasLog es
        ∧ n.storage = (es.drop k).foldl (fun s e => env.entriesHandler [e] s) follower.storage
        ∧ (if m = 0 then n = follower ∧ peers = leader.peers
          else (∀ e ∈ es.getLast?, n.lastLogTerm = e.term)
            ∧ peers = Function.update leader.peers uid
              { leader.peers uid with lastCommittedIndex := es.length }) := by
  induction m with
  | zero =>
    intro fuel k leader follower hkm hfuel hleader hfollower _
    obtain ⟨fuel, rfl⟩ := Nat.exists_eq_add_of_lt hfuel
    obtain rfl : k = es.length := hkm
    rw [List.take_length] at hfollower
    rw [recoverEntries, if_neg (by omega)]
    exact ⟨_, _, _, rfl, hleader, hfollower, by simp, by simp⟩
  | succ m ih =>
    intro fuel k leader follower hkm hfuel hleader hfollower hterm
    obtain ⟨fuel, rfl⟩ := Nat.exists_eq_add_of_lt hfuel
    obtain ⟨e, hk⟩ : ∃ e, es[k]? = some e := ⟨_, List.getElem?_eq_getElem (by omega)⟩
    obtain ⟨wal, bytes, hread, hbytes, hleader'⟩ := hleader.readEntry hlru hes hk
    obtain ⟨res, n, happend, hres, hkeeps, hlastTerm, hcurrent, hstorage⟩ :=
      hfollower.appendEntry hlru leader.id hes hk hterm
    have hreq : Node.recoverRequest { leader with wal } term (k + 1) bytes
        = ⟨term, leader.id, toInt64 k, [e]⟩ := by
      unfold Node.recoverRequest
      rw [hbytes, show (k + 1 + (2 ^ 64 - 1)) % 2 ^ 64 = k by omega]
    rw [recoverEntries, if_pos (by omega), hread]
    dsimp only
    rw [hreq, happend]
    dsimp only
    rw [if_pos hres, Nat.mod_eq_of_lt (by omega)]
    set told := Node.setPeer { leader with wal } uid
      { leader.peers uid with lastCommittedIndex := k + 1 } with htold
    have htoldHas : told.HasLog es := ⟨hleader'.rep, hleader'.plan, hleader'.lastLogIndex⟩
    obtain ⟨wal', peers, n', hrun, hl, hn, hst, hif⟩ :=
      ih (m + 1 + fuel) (k + 1) told n (by omega) (by omega) htoldHas hkeeps hcurrent.le
    refine ⟨wal', peers, n', hrun, hl, hn, ?_, ?_⟩
    · rw [hst, hstorage, List.drop_eq_getElem_cons (by omega : k < es.length), List.foldl_cons,
        (List.getElem?_eq_some_iff.mp hk).2]
    · rw [if_neg (Nat.succ_ne_zero m)]
      split_ifs at hif with hm
      · obtain ⟨rfl, rfl⟩ := hif
        have hlen : k + 1 = es.length := by omega
        refine ⟨fun e' he' => ?_, by rw [← hlen]; rfl⟩
        rw [List.getLast?_eq_getElem?, ← hlen, Nat.add_sub_cancel, hk] at he'
        rw [hlastTerm, Option.some.inj he']
      · refine ⟨hif.1, hif.2.trans ?_⟩
        change Function.update (Function.update leader.peers uid _) uid _ = _
        rw [Function.update_idem]
        congr 1
        change { Function.update leader.peers uid _ uid with lastCommittedIndex := es.length } = _
        rw [Function.update_self]

/-- A follower that has the first `f` entries of the leader's log has all of them after
`startLogRecovering`, and has handed each of the others to storage in turn. -/
theorem recovery_copies (env : Env σ) (hlru : env.lru.Lawful) (uid : ι) (es : List Entry)
    (hes : Numbered es) (hmax : es.length + 1 < 2 ^ 64) (f fuel : ℕ) (hf : f ≤ es.length)
    (hfuel : es.length - f < fuel) (leader follower : Node ι σ) (hleader : leader.HasLog es)
    (hfollower : follower.HasLog (es.take f)) (hterm : follower.currentTerm ≤ leader.currentTerm) :
    ∃ leader' follower',
      startLogRecovering env uid f fuel leader follower = some (.ok (), leader', follower')
        ∧ follower'.HasLog es
        ∧ (f < es.length → ∀ e ∈ es.getLast?, follower'.lastLogTerm = e.term)
        ∧ (f = es.length → follower' = follower)
        ∧ follower'.storage
          = (es.drop f).foldl (fun s e => env.entriesHandler [e] s) follower.storage
        ∧ (f < es.length → (leader'.peers uid).lastCommittedIndex = es.length)
        ∧ leader'.HasLog es := by
  set marked := leader.setPeer uid { leader.peers uid with recovering := true }
  have hmarked : marked.HasLog es := ⟨hleader.rep, hleader.plan, hleader.lastLogIndex⟩
  obtain ⟨wal, peers, n, hrun, hl, hn, hst, hif⟩ := recoverEntries_spec uid hlru hes hmax
    (es.length - f) fuel f marked follower (by omega) hfuel hmarked hfollower hterm
  refine ⟨Node.setPeer { marked with wal, peers } uid { peers uid with recovering := false }, n, ?_,
    hn, fun hlt => ?_, fun heq => ?_, hst, fun hlt => ?_, ⟨hl.rep, hl.plan, hl.lastLogIndex⟩⟩
  · unfold startLogRecovering
    rw [Nat.mod_eq_of_lt (by omega)]
    change Option.map _ (recoverEntries env uid leader.lastLogIndex leader.currentTerm fuel (f + 1)
      marked follower) = _
    rw [hleader.lastLogIndex, hrun]
    rfl
  · rw [if_neg (by omega)] at hif
    exact hif.1
  · rw [if_pos (by omega)] at hif
    exact hif.1
  · rw [if_neg (by omega)] at hif
    change (Function.update peers uid _ uid).lastCommittedIndex = es.length
    rw [Function.update_self, hif.2]
    dsimp only
    rw [Function.update_self]

section Witness

def someEntries : List Entry := [⟨1, 1, 0, [7], 0⟩, ⟨2, 1, 0, [8], 0⟩]

theorem someEntries_numbered : Numbered someEntries := by
  refine ⟨by decide, fun e he => ?_⟩
  rcases List.mem_pair.mp he with rfl | rfl <;>
    exact ⟨by norm_num, by norm_num, by norm_num, by norm_num, by norm_num⟩

/-- A follower with an empty log gets both. -/
theorem recovery_copies_someEntries : ∃ leader : Node ℕ (List Entry), leader.HasLog someEntries
    ∧ ∃ leader' follower', startLogRecovering (recording lruSet) 1 0 3 leader
        (Node.new 1 freshWal []) = some (.ok (), leader', follower')
      ∧ follower'.HasLog someEntries ∧ follower'.storage = someEntries
      ∧ (leader'.peers 1).lastCommittedIndex = 2 := by
  have hes := someEntries_numbered
  have hlawful : (recording lruSet).lru.Lawful := lruSet_lawful
  have hnew : (Node.new 0 freshWal ([] : List Entry)).Logs [] := logs_new (0 : ℕ) []
  obtain ⟨leader, -, hlogs⟩ := hnew.writeEntries hlawful someEntries hes.index hes.wf
  have hleader : leader.HasLog someEntries := ⟨hlogs.rep, hlogs.plan, hlogs.lastLogIndex⟩
  have hfollower : (Node.new 1 freshWal ([] : List Entry)).HasLog (someEntries.take 0) :=
    ⟨freshWal_rep.1, freshWal_rep.2, rfl⟩
  obtain ⟨leader', follower', hrun, hkeeps, -, -, hst, hlast, -⟩ := recovery_copies
    (recording lruSet) lruSet_lawful 1 someEntries hes (by decide) 0 3 (by decide) (by decide)
    leader _ hleader hfollower (Nat.zero_le _)
  exact ⟨leader, hleader, leader', follower', hrun, hkeeps, hst, hlast (by decide)⟩

end Witness

end Copies

section Cluster

variable {N : ℕ} {σ : Type} {env : Env σ} {s : Sys N σ} {p : ℕ} {i j : Fin N}

/-- One round of the loop: the call is made, delivered and answered. -/
theorem Sys.exists_round (hij : i ≠ j) {lastIndex term index : ℕ} {bytes : Bytes}
    {n m : Node (Fin N) σ} {res : AppendEntriesResponse (Fin N)}
    (hproc : s.procs[p]? = some ⟨i, j, .next lastIndex term index⟩) (hle : index ≤ lastIndex)
    (hread : (s.nodes i).onWal (Wal.read env.lru index) = some (.ok bytes, n)) (hid : n.id = i)
    (happend : appendEntries env (s.nodes j) (n.recoverRequest term index bytes) = some (res, m)) :
    ∃ s', runSteps (step env) [.advance p, .deliverAppend s.appendCalls.length, .answer p] s
        = some s'
      ∧ s'.nodes = Function.update (Function.update s.nodes i (if res.success
        then n.setPeer j { n.peers j with lastCommittedIndex := index }
        else n.setPeer j { n.peers j with recovering := false })) j m
      ∧ s'.procs[p]? = some ⟨i, j, if res.success
        then .next lastIndex term ((index + 1) % 2 ^ 64) else .done⟩ := by
  have hp : p < s.procs.length := (List.getElem?_eq_some_iff.mp hproc).1
  set req := n.recoverRequest term index bytes
  have hreq : (⟨term, i, toInt64 ((index + (2 ^ 64 - 1)) % 2 ^ 64), [(Entry.unmarshal bytes).1]⟩ :
      AppendEntriesRequest (Fin N)) = req := by
    simp only [req, Node.recoverRequest, hid]
  set s₁ := (s.setNode i n).call p i j req (.resent lastIndex term index) with hs₁
  set s₂ := { s₁.setNode j m with
    appendCalls := s₁.appendCalls.set s.appendCalls.length ⟨i, j, req, some res⟩ } with hs₂
  have hcall : step env (.advance p) s = some s₁ := by
    simp only [step, Sys.advance, hproc, Sys.sendNext, if_pos hle, hread, hreq, hs₁]
  have hcalls : s₁.appendCalls[s.appendCalls.length]? = some ⟨i, j, req, none⟩ := by
    simp [hs₁, Sys.call, Sys.setNode, Sys.setProc]
  have hdeliver : step env (.deliverAppend s.appendCalls.length) s₁ = some s₂ := by
    have hj : s₁.nodes j = s.nodes j := Function.update_of_ne hij.symm _ _
    simp only [step, Sys.deliverAppend, hcalls, hj, happend, hs₂]
  have hproc₂ : s₂.procs[p]? = some
      ⟨i, j, .resent lastIndex term index s.appendCalls.length⟩ := by
    simp [hs₂, hs₁, Sys.call, Sys.setNode, Sys.setProc, hp]
  have hanswer : s₂.answerTo s.appendCalls.length = some res := by
    simp [Sys.answerTo, hs₂, hs₁, Sys.call, Sys.setNode, Sys.setProc]
  have hi : s₂.nodes i = n := by
    simp [hs₂, hs₁, Sys.call, Sys.setNode, Sys.setProc, Function.update_of_ne hij]
  have hnodes : s₂.nodes = Function.update (Function.update s.nodes i n) j m := by
    simp [hs₂, hs₁, Sys.call, Sys.setNode, Sys.setProc]
  have hp₂ : p < s₂.procs.length := (List.getElem?_eq_some_iff.mp hproc₂).1
  have hset : ∀ x, Function.update s₂.nodes i x
      = Function.update (Function.update s.nodes i x) j m := fun x => by
    rw [hnodes, Function.update_comm hij.symm, Function.update_idem]
  have hback : step env (.answer p) s₂ = some (if res.success
      then (s₂.setPeer i j { (s₂.nodes i).peers j with lastCommittedIndex := index }).setProc p
        ⟨i, j, .next lastIndex term ((index + 1) % 2 ^ 64)⟩
      else s₂.recovered p i j) := by
    simp only [step, Sys.answer, hproc₂, hanswer, Option.map_some]
  have hrun : ∀ {s₃ : Sys N σ}, step env (.answer p) s₂ = some s₃ →
      runSteps (step env) [.advance p, .deliverAppend s.appendCalls.length, .answer p] s
        = some s₃ := fun h => by
    simp only [runSteps, hcall, hdeliver, h]
  refine ⟨_, hrun hback, ?_⟩
  split_ifs
  · refine ⟨?_, List.getElem?_set_self hp₂⟩
    change Function.update s₂.nodes i _ = _
    rw [hset, hi]
  · refine ⟨?_, List.getElem?_set_self hp₂⟩
    change Function.update s₂.nodes i _ = _
    rw [hset, hi]

/-- The goroutine goes through the loop by steps of the cluster. -/
theorem Sys.exists_loop_run (hij : i ≠ j) {lastIndex term : ℕ} {r : Except RecoverErr Unit}
    {leader follower : Node (Fin N) σ} : ∀ (fuel : ℕ) {index : ℕ} {s : Sys N σ},
    s.procs[p]? = some ⟨i, j, .next lastIndex term index⟩ → (s.nodes i).id = i →
    recoverEntries env j lastIndex term fuel index (s.nodes i) (s.nodes j)
      = some (r, leader, follower) →
    ∃ ls s', runSteps (step env) ls s = some s' ∧ s'.procs[p]? = some ⟨i, j, .done⟩
      ∧ s'.nodes = Function.update (Function.update s.nodes i
        (leader.setPeer j { leader.peers j with recovering := false })) j follower
  | 0, _, _, _, _, h => by cases h
  | fuel + 1, index, s, hproc, hid, h => by
    have hp : p < s.procs.length := (List.getElem?_eq_some_iff.mp hproc).1
    have hsame : ∀ n, Function.update (Function.update s.nodes i n) j (s.nodes j)
        = Function.update s.nodes i n := fun n =>
      Function.update_eq_self_iff.mpr (Function.update_of_ne hij.symm _ _).symm
    rw [recoverEntries] at h
    split_ifs at h with hle
    · rcases hread : (s.nodes i).onWal (Wal.read env.lru index) with _ | ⟨_ | bytes, n⟩ <;>
        rw [hread] at h
      · cases h
      · -- the read fails, and so does the recovery
        obtain ⟨-, rfl, rfl⟩ : _ ∧ _ ∧ _ := by simpa using h
        refine ⟨[.advance p], (s.setNode i n).recovered p i j, ?_, ?_, ?_⟩
        · simp only [runSteps, step, Sys.advance, hproc, Sys.sendNext, if_pos hle, hread]
        · simp [Sys.recovered, Sys.setProc, Sys.setPeer, Sys.setNode, hp]
        · rw [hsame]
          simp [Sys.recovered, Sys.setProc, Sys.setPeer, Sys.setNode]
      · rcases happend : appendEntries env (s.nodes j) (n.recoverRequest term index bytes) with
          _ | ⟨res, m⟩ <;> dsimp only at h <;> rw [happend] at h
        · cases h
        have hid' : n.id = i := by
          obtain ⟨wal, rfl⟩ := Node.onWal_eq hread
          exact hid
        obtain ⟨s₁, hrun, hnodes, hproc₁⟩ := Sys.exists_round hij hproc hle hread hid' happend
        dsimp only at h
        split_ifs at h with hres
        · rw [if_pos hres] at hnodes hproc₁
          have hi : s₁.nodes i = n.setPeer j { n.peers j with lastCommittedIndex := index } := by
            rw [hnodes, Function.update_of_ne hij, Function.update_self]
          have hj : s₁.nodes j = m := by rw [hnodes, Function.update_self]
          obtain ⟨ls, s', hrun', hdone, hnodes'⟩ := Sys.exists_loop_run hij fuel hproc₁
            (by rw [hi]; exact hid') (by rw [hi, hj]; exact h)
          refine ⟨_, s', runSteps_trans hrun hrun', hdone, ?_⟩
          rw [hnodes', hnodes, Function.update_comm hij.symm, Function.update_idem,
            Function.update_idem]
        · obtain ⟨-, rfl, rfl⟩ : _ ∧ _ ∧ _ := by simpa using h
          rw [if_neg hres] at hnodes hproc₁
          exact ⟨_, s₁, hrun, hproc₁, hnodes⟩
    · obtain ⟨-, rfl, rfl⟩ : _ ∧ _ ∧ _ := by simpa using h
      refine ⟨[.advance p], s.recovered p i j, ?_, ?_, ?_⟩
      · simp only [runSteps, step, Sys.advance, hproc, Sys.sendNext, if_neg hle]
      · simp [Sys.recovered, Sys.setProc, Sys.setPeer, Sys.setNode, hp]
      · rw [hsame]
        rfl

/-- The goroutine that has called `startLogRecovering` goes through it by steps of the cluster, in
which no other request comes to the peer. -/
theorem Sys.exists_recovery_run (hij : i ≠ j) {start fuel : ℕ} {r : Except RecoverErr Unit}
    {leader follower : Node (Fin N) σ} (hproc : s.procs[p]? = some ⟨i, j, .behind start⟩)
    (hid : (s.nodes i).id = i)
    (h : startLogRecovering env j start fuel (s.nodes i) (s.nodes j)
      = some (r, leader, follower)) :
    ∃ ls s', runSteps (step env) ls s = some s' ∧ s'.procs[p]? = some ⟨i, j, .done⟩
      ∧ s'.nodes = Function.update (Function.update s.nodes i leader) j follower := by
  have hp : p < s.procs.length := (List.getElem?_eq_some_iff.mp hproc).1
  set marked := (s.nodes i).setPeer j { (s.nodes i).peers j with recovering := true }
  obtain ⟨⟨r', n, m⟩, hloop, heq⟩ := Option.map_eq_some_iff.mp h
  obtain ⟨rfl, rfl, rfl⟩ : r' = r ∧ _ = leader ∧ m = follower := by simpa using heq
  -- it reads the leader's last index and term in stages of their own
  set reached : Stage → Sys N σ := fun stage => (s.setNode i marked).setProc p ⟨i, j, stage⟩
  have hreached : ∀ stage, (reached stage).procs[p]? = some ⟨i, j, stage⟩ := fun stage =>
    List.getElem?_set_self hp
  have hset : ∀ stage stage', (reached stage).setProc p ⟨i, j, stage'⟩ = reached stage' :=
    fun stage stage' => by simp [reached, Sys.setProc]
  have hi : ∀ stage, (reached stage).nodes i = marked := fun stage => Function.update_self ..
  have hj : ∀ stage, (reached stage).nodes j = s.nodes j := fun stage =>
    Function.update_of_ne hij.symm _ _
  have hrun : runSteps (step env) [.advance p, .advance p, .advance p] s = some
      (reached (.next marked.lastLogIndex marked.currentTerm ((start + 1) % 2 ^ 64))) := by
    have h₁ : step env (.advance p) s = some (reached (.marked start)) := by
      simp only [step, Sys.advance, hproc]
      rfl
    have h₂ : step env (.advance p) (reached (.marked start))
        = some (reached (.readLast start marked.lastLogIndex)) := by
      simp only [step, Sys.advance, hreached, hset, hi]
    have h₃ : step env (.advance p) (reached (.readLast start marked.lastLogIndex)) = some
        (reached (.next marked.lastLogIndex marked.currentTerm ((start + 1) % 2 ^ 64))) := by
      simp only [step, Sys.advance, hreached, hset, hi]
    simp only [runSteps, h₁, h₂, h₃]
  obtain ⟨ls, s', hrun', hdone, hnodes⟩ := Sys.exists_loop_run hij fuel (hreached _)
    (by rw [hi]; exact hid) (by rw [hi, hj]; exact hloop)
  refine ⟨_, s', runSteps_trans hrun hrun', hdone, ?_⟩
  rw [hnodes]
  change Function.update (Function.update (Function.update s.nodes i marked) i _) j _ = _
  rw [Function.update_idem]

end Cluster

end Rhosus.Cluster

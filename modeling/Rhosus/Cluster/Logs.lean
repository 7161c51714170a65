import Rhosus.Cluster.Steps
import Rhosus.Wal.Refine

/-!
# The logs of the registries

Where entries are written only at the index after the last one, a registry's log is a list of
entries (`Node.Logs`), kept in its write-ahead log as the bytes of each. A cluster in which that is
so of every registry keeps to it: what waits in a buffer or is on its way to a peer is in the
sender's log, and a step leaves the logs alone or adds to one of them, an entry that its registry
writes or the entries of a request it accepts (`Replicas.step`).
-/

namespace Rhosus.Cluster

section Consecutive

/-- The entries have the indexes after `i`, in turn. -/
def Consecutive : ℕ → List Entry → Prop
  | _, [] => True
  | i, e :: es => e.index = i + 1 ∧ Consecutive (i + 1) es

instance Consecutive.decidable : ∀ (i : ℕ) (es : List Entry), Decidable (Consecutive i es)
  | _, [] => isTrue trivial
  | i, e :: es =>
    have := Consecutive.decidable (i + 1) es
    inferInstanceAs (Decidable (e.index = i + 1 ∧ Consecutive (i + 1) es))

theorem consecutive_append : ∀ {i : ℕ} {es fs : List Entry},
    Consecutive i (es ++ fs) ↔ Consecutive i es ∧ Consecutive (i + es.length) fs
  | _, [], _ => by simp [Consecutive]
  | i, e :: es, fs => by
    simp only [List.cons_append, Consecutive, consecutive_append, List.length_cons, and_assoc]
    rw [Nat.add_right_comm, ← Nat.add_assoc]

theorem Consecutive.index : ∀ {i k : ℕ} {es : List Entry} {e : Entry}, Consecutive i es →
    es[k]? = some e → e.index = i + k + 1
  | _, 0, e' :: _, e, h, hk => by
    obtain rfl := Option.some.inj hk
    exact h.1
  | i, k + 1, _ :: es, e, h, hk => by
    have := Consecutive.index h.2 (by simpa using hk)
    omega

theorem Consecutive.validate : ∀ {i : ℕ} {es : List Entry}, Consecutive i es →
    validateEntriesSequence es = true
  | _, [], _ => rfl
  | _, [_], _ => rfl
  | i, e :: e' :: es, h => by
    have hrest := Consecutive.validate h.2
    have := h.1
    have := h.2.1
    rw [validateEntriesSequence, hrest, Bool.and_true, decide_eq_true_eq]
    omega

end Consecutive

section Wal

variable {lru : SetEvicted ℕ Wal.Ptr} {w : World Wal.Name Wal.WAL} {es : List Entry} {e : Entry}

/-- The entries as the write-ahead log has them. -/
def logOf (es : List Entry) : Wal.Log := ⟨1, es.map Entry.marshal⟩

theorem logOf_wf (es : List Entry) : (logOf es).Wf := ⟨le_rfl, fun _ => rfl⟩

theorem logOf_append (es : List Entry) (e : Entry) :
    (logOf es).write e.marshal = logOf (es ++ [e]) := by
  simp [logOf, Wal.Log.write]

theorem logOf_get? (es : List Entry) (i : ℕ) :
    (logOf es).get? (i + 1) = es[i]?.map Entry.marshal := by
  simp [logOf, Wal.Log.get?]

theorem write_logOf (hlru : lru.Lawful) (h : Wal.Rep w (logOf es)) (hp : w.plan = [])
    (hi : e.index = es.length + 1) (he : e.Wf) :
    ∃ w', Wal.write lru e.index e.marshal w = (.ok (), w')
      ∧ Wal.Rep w' (logOf (es ++ [e])) ∧ w'.plan = [] := by
  have hlast : e.index = (logOf es).lastIndex + 1 := by
    rw [hi]
    simp [logOf, Wal.Log.lastIndex]
  obtain ⟨r, w', hw, hp', rfl, hrep⟩ :=
    (h.write hlru (logOf_wf es) (d := e.marshal) (Entry.length_marshal_lt he)).returns hp
  rw [← hlast] at hw
  exact ⟨w', hw, by rwa [← logOf_append], hp'⟩

theorem read_logOf (hlru : lru.Lawful) (h : Wal.Rep w (logOf es)) (hp : w.plan = []) (i : ℕ) :
    ∃ w', Wal.read lru i w = (Outcome.ofExcept ((logOf es).read i), w')
      ∧ Wal.Rep w' (logOf es) ∧ w'.plan = [] := by
  obtain ⟨r, w', hw, hp', rfl, hrep⟩ := (h.read hlru i).returns hp
  exact ⟨w', hw, hrep, hp'⟩

end Wal

section Node

variable {ι σ : Type} {env : Env σ} {n n' : Node ι σ} {es new : List Entry} {e : Entry}

/-- The registry's log is `es`, and no operation on its files fails. -/
structure Node.Logs (n : Node ι σ) (es : List Entry) : Prop where
  rep : Wal.Rep n.wal (logOf es)
  plan : n.wal.plan = []
  index : Consecutive 0 es
  wf : ∀ e ∈ es, e.Wf
  lastLogIndex : n.lastLogIndex = es.length
  lastLogTerm : ∀ e ∈ es.getLast?, n.lastLogTerm = e.term

namespace Node.Logs

theorem write (hlru : env.lru.Lawful) (h : n.Logs es) (hi : e.index = es.length + 1) (he : e.Wf) :
    ∃ wal, Wal.write env.lru e.index e.marshal n.wal = (.ok (), wal)
      ∧ Node.Logs { n.endWith e with wal } (es ++ [e]) := by
  obtain ⟨wal, hw, hrep, hp⟩ := write_logOf hlru h.rep h.plan hi he
  refine ⟨wal, hw, hrep, hp, consecutive_append.mpr ⟨h.index, by simp [Consecutive, hi]⟩,
    ?_, ?_, ?_⟩
  · intro e' he'
    rcases List.mem_append.mp he' with he' | he'
    · exact h.wf e' he'
    · exact List.mem_singleton.mp he' ▸ he
  · simp [Node.endWith, hi]
  · simp [Node.endWith]

theorem writeEntries (hlru : env.lru.Lawful) : ∀ (new : List Entry) {n : Node ι σ}
    {es : List Entry}, n.Logs es → Consecutive es.length new → (∀ e ∈ new, e.Wf) →
    ∃ n', writeEntries env new n = some (.ok (), n') ∧ n'.Logs (es ++ new)
  | [], n, es, h, _, _ => ⟨n, rfl, by rwa [List.append_nil]⟩
  | e :: new, n, es, h, hc, hwf => by
    obtain ⟨wal, hw, hlogs⟩ := h.write hlru hc.1 (hwf e List.mem_cons_self)
    have hc' : Consecutive (es ++ [e]).length new := by simpa using hc.2
    obtain ⟨n', hn', hlogs'⟩ := writeEntries hlru new hlogs hc'
      fun e' he' => hwf e' (List.mem_cons_of_mem _ he')
    refine ⟨n', ?_, by simpa using hlogs'⟩
    rw [Cluster.writeEntries, Node.onWal_ok hw]
    exact hn'

theorem writeEntriesFromLeader (hlru : env.lru.Lawful) (h : n.Logs es)
    (hc : Consecutive es.length new) (hwf : ∀ e ∈ new, e.Wf) :
    ∃ n', writeEntriesFromLeader env new n = some (.ok (), n') ∧ n'.Logs (es ++ new)
      ∧ n'.storage = env.entriesHandler new n.storage ∧ n'.peers = n.peers := by
  have h' : Node.Logs { n with storage := env.entriesHandler new n.storage } es :=
    ⟨h.rep, h.plan, h.index, h.wf, h.lastLogIndex, h.lastLogTerm⟩
  obtain ⟨n', hn', hlogs⟩ := h'.writeEntries hlru new hc hwf
  obtain ⟨wal, li, lt, rfl⟩ := writeEntries_eq new hn'
  refine ⟨_, ?_, hlogs, rfl, rfl⟩
  rw [Cluster.writeEntriesFromLeader, if_pos hc.validate, hn']

theorem read (hlru : env.lru.Lawful) (h : n.Logs es) {i : ℕ} {r : Except Wal.Err Bytes}
    (hr : n.onWal (Wal.read env.lru i) = some (r, n')) :
    n'.Logs es ∧ ∀ bytes, r = .ok bytes → (Entry.unmarshal bytes).1 ∈ es := by
  obtain ⟨wal, hw, hrep, hp⟩ := read_logOf hlru h.rep h.plan i
  rw [Node.onWal, hw] at hr
  rcases hl : (logOf es).read i with err | d <;> rw [hl] at hr
  · obtain ⟨rfl, rfl⟩ := Prod.mk.inj (Option.some.inj hr)
    exact ⟨⟨hrep, hp, h.index, h.wf, h.lastLogIndex, h.lastLogTerm⟩, fun _ hb => by cases hb⟩
  · obtain ⟨rfl, rfl⟩ := Prod.mk.inj (Option.some.inj hr)
    refine ⟨⟨hrep, hp, h.index, h.wf, h.lastLogIndex, h.lastLogTerm⟩, fun bytes hb => ?_⟩
    obtain rfl := Except.ok.inj hb
    rcases i with _ | k
    · simp [Wal.Log.read, Wal.Log.get?, logOf] at hl
    · rw [Wal.Log.read, logOf_get?] at hl
      rcases hk : es[k]? with _ | e <;> rw [hk] at hl
      · cases hl
      · obtain rfl := Except.ok.inj hl
        have he := List.mem_of_getElem? hk
        rw [Entry.unmarshal_marshal (h.wf e he)]
        exact he

end Node.Logs

theorem mem_writeBatch : ∀ {es b : List Entry}, e ∈ (writeBatch b es).2 → e ∈ b ∨ e ∈ es
  | [], b, h => .inl h
  | e' :: es, b, h => by
    have hstep : ∀ {b' : List Entry}, e ∈ (writeBatch b' es).2 → (e ∈ b' → e ∈ b ∨ e = e') →
        e ∈ b ∨ e ∈ e' :: es := by
      intro b' hb' hmem
      rcases mem_writeBatch hb' with hb' | hb'
      · exact (hmem hb').imp_right fun he => List.mem_cons.mpr (.inl he)
      · exact .inr (List.mem_cons_of_mem _ hb')
    rw [writeBatch] at h
    split at h
    · exact hstep h (by simp)
    · split_ifs at h
      · exact .inl h
      · exact hstep h .inl
      · exact hstep h (by simp)

theorem mem_writeToPeers [DecidableEq ι] {v : ι} : ∀ {js : List ι} {n : Node ι σ},
    e ∈ ((writeToPeers es js n).2.peers v).buffer → e ∈ (n.peers v).buffer ∨ e ∈ es
  | [], _, h => .inl h
  | j :: js, n, h => by
    have hset : ∀ {b : List Entry}, b = (writeBatch (n.peers j).buffer es).2 →
        e ∈ ((n.setPeer j { n.peers j with buffer := b }).peers v).buffer →
          e ∈ (n.peers v).buffer ∨ e ∈ es := by
      rintro b rfl hb
      change e ∈ (Function.update n.peers j _ v).buffer at hb
      by_cases hv : v = j
      · subst hv
        rw [Function.update_self] at hb
        exact mem_writeBatch hb
      · rw [Function.update_of_ne hv] at hb
        exact .inl hb
    rw [writeToPeers] at h
    rcases hb : writeBatch (n.peers j).buffer es with ⟨_ | _, b⟩ <;> rw [hb] at h
    · exact hset (by rw [hb]) h
    · rcases mem_writeToPeers h with h | h
      · exact hset (by rw [hb]) h
      · exact .inr h

theorem Node.Logs.writeEntry [DecidableEq ι] (hlru : env.lru.Lawful) (h : n.Logs es)
    (hi : n.lastLogIndex + 1 < 2 ^ 64) (ht : n.currentTerm < 2 ^ 32) {typ : EntryType}
    {data : Payload} {now : Int64} {timely : Bool} {order : List ι} {r : Except Err Unit}
    (hw : writeEntry env typ data now timely order n = some (r, n')) :
    n' = n ∨ ∃ e, e.term = n.currentTerm ∧ n'.Logs (es ++ [e])
      ∧ ∀ v, ∀ e' ∈ (n'.peers v).buffer, e' ∈ (n.peers v).buffer ∨ e' = e := by
  unfold Cluster.writeEntry at hw
  split_ifs at hw
  · obtain ⟨-, rfl⟩ := Prod.mk.inj (Option.some.inj hw)
    exact .inl rfl
  · have hindex : (n.nextEntry typ data now).index = es.length + 1 := by
      rw [← h.lastLogIndex]
      exact Nat.mod_eq_of_lt hi
    have hwf : (n.nextEntry typ data now).Wf := by
      refine ⟨Nat.mod_lt _ (by norm_num), ht, ?_, data.2, Int64.le_toInt now, Int64.toInt_lt now⟩
      cases typ <;> norm_num [Node.nextEntry, EntryType.code]
    obtain ⟨wal, hwrite, hlogs⟩ := h.write hlru hindex hwf
    dsimp only at hw
    rw [Node.onWal_ok (n := n.endWith _) hwrite] at hw
    have hn := Option.some.inj hw
    refine .inr ⟨n.nextEntry typ data now, rfl, ?_, fun v e' he' => ?_⟩
    · obtain ⟨peers, pipeline, hp⟩ := handOver_eq (n.nextEntry typ data now) timely order _
      rw [hn] at hp
      dsimp only at hp
      subst hp
      exact ⟨hlogs.rep, hlogs.plan, hlogs.index, hlogs.wf, hlogs.lastLogIndex, hlogs.lastLogTerm⟩
    · unfold handOver at hn
      split_ifs at hn
      · have hn' : n' = _ := (congrArg Prod.snd hn).symm
        rw [hn'] at he'
        exact (mem_writeToPeers he').imp_right List.mem_singleton.mp
      · obtain ⟨-, rfl⟩ := Prod.mk.inj hn
        exact .inl he'

end Node

section Cluster

variable {N : ℕ} {σ : Type} {env : Env σ} {s s' : Sys N σ} {logs : Fin N → List Entry}
variable {i : Fin N} {n : Node (Fin N) σ}

/-- The registries have these logs, and what they are to send is in the sender's. -/
structure Replicas (s : Sys N σ) (logs : Fin N → List Entry) : Prop where
  node : ∀ i, (s.nodes i).Logs (logs i)
  buffer : ∀ i j, ∀ e ∈ ((s.nodes i).peers j).buffer, e ∈ logs i
  call : ∀ c ∈ s.appendCalls, ∀ e ∈ c.req.entries, e ∈ logs c.src

/-- The terms are `uint32`s. -/
structure Bounded (s : Sys N σ) : Prop where
  node : ∀ i, (s.nodes i).currentTerm < 2 ^ 32
  vote : ∀ c ∈ s.voteCalls, c.req.term < 2 ^ 32
  append : ∀ c ∈ s.appendCalls, c.req.term < 2 ^ 32
  proc : ∀ p ∈ s.procs, p.stage.term < 2 ^ 32

theorem Bounded.step (h : Bounded s) {l : Label N} (hs : step env l s = some s') : Bounded s' := by
  have hset : ∀ {i : Fin N} {n : Node (Fin N) σ}, n.currentTerm < 2 ^ 32 →
      ∀ v, (Function.update s.nodes i n v).currentTerm < 2 ^ 32 :=
    fun hn => Sys.forall_setNode (P := fun _ n => n.currentTerm < 2 ^ 32) hn h.node
  cases stepped hs with
  | @startElection i el calls hcalls =>
    have hterm : (s.nodes i).campaign.currentTerm < 2 ^ 32 := Nat.mod_lt _ (by norm_num)
    refine ⟨hset hterm, fun c hc => ?_, h.append, h.proc⟩
    rcases List.mem_append.mp hc with hc | hc
    · exact h.vote c hc
    · rw [(hcalls c hc).1]
      exact hterm
  | election => exact ⟨h.node, h.vote, h.append, h.proc⟩
  | @promote i =>
    exact ⟨hset (n := { s.nodes i with state := .leader }) (h.node i), h.vote, h.append, h.proc⟩
  | deliverVote c hc =>
    have hreq := h.vote c (List.mem_of_getElem? hc)
    obtain ⟨state, voted, votedFor, hn⟩ := requestVote_eq (s.nodes c.dst) c.req
    refine ⟨hset (by rw [hn]; exact max_lt (h.node c.dst) hreq), fun c' hc' => ?_, h.append,
      h.proc⟩
    rcases List.mem_or_eq_of_mem_set hc' with hc' | rfl
    · exact h.vote c' hc'
    · exact hreq
  | deliverAppend c hc res n ha =>
    have hreq := h.append c (List.mem_of_getElem? hc)
    have hterm : n.currentTerm < 2 ^ 32 := by
      obtain ⟨term, state, votedFor, hheed, ht⟩ := (s.nodes c.dst).heed_eq c.req
      rw [appendEntries_currentTerm ha, hheed]
      rcases ht with rfl | rfl
      · exact h.node c.dst
      · exact hreq
    refine ⟨hset hterm, h.vote, fun c' hc' => ?_, h.proc⟩
    rcases List.mem_or_eq_of_mem_set hc' with hc' | rfl
    · exact h.append c' hc'
    · exact hreq
  | @write i _ _ _ _ _ r n hw =>
    obtain ⟨wal, li, lt, peers, pipeline, rfl⟩ := writeEntry_eq hw
    exact ⟨hset (h.node i), h.vote, h.append, h.proc⟩
  | tick =>
    refine ⟨h.node, h.vote, h.append, fun q hq => ?_⟩
    rcases List.mem_append.mp hq with hq | hq
    · exact h.proc q hq
    · rw [List.mem_singleton.mp hq]
      norm_num [Stage.term]
  | @proc _ _ p i j stage stage' n new _ hw =>
    obtain ⟨peers, wal, hn⟩ := hw.node
    have hstage := h.proc _ (List.mem_of_getElem? hw.proc)
    rw [hw.eq]
    refine ⟨hset (by rw [hn]; exact h.node i), h.vote, fun c hc => ?_, fun q hq => ?_⟩
    · rcases List.mem_append.mp hc with hc | hc
      · exact h.append c hc
      · rw [(hw.calls c hc).2.2.1]
        exact hstage
    · rcases List.mem_or_eq_of_mem_set hq with hq | rfl
      · exact h.proc q hq
      · have := h.node i
        rcases hw.term with ht | ht | ht <;> dsimp only at hstage ⊢ <;> omega

/-- The request is neither of an old term nor past the end of the log. -/
def Accepts (n : Node (Fin N) σ) (req : AppendEntriesRequest (Fin N)) : Prop :=
  n.currentTerm ≤ req.term ∧ req.prevLogIndex ≤ toInt64 n.lastLogIndex

instance (n : Node (Fin N) σ) (req : AppendEntriesRequest (Fin N)) : Decidable (Accepts n req) :=
  inferInstanceAs (Decidable (_ ∧ _))

/-- The entries of a request that is accepted go on where the log ends; indexes do not wrap. -/
def InOrder (l : Label N) (s : Sys N σ) : Prop :=
  match l with
  | .write i .. => (s.nodes i).lastLogIndex + 1 < 2 ^ 64
  | .deliverAppend k => ∀ c ∈ s.appendCalls[k]?, Accepts (s.nodes c.dst) c.req →
    Consecutive (s.nodes c.dst).lastLogIndex c.req.entries
  | _ => True

instance : ∀ (l : Label N) (s : Sys N σ), Decidable (InOrder l s)
  | .write i .., s => inferInstanceAs (Decidable ((s.nodes i).lastLogIndex + 1 < 2 ^ 64))
  | .deliverAppend k, s => inferInstanceAs (Decidable (∀ c ∈ s.appendCalls[k]?, _ → _))
  | .startElection _, _ | .voteAnswer .., _ | .voteError .., _ | .tally _, _ | .deliverVote _, _
  | .tick .., _ | .advance _, _ | .answer _, _ | .error _, _ => inferInstanceAs (Decidable True)

/-- How a step can change the logs, and what the registries have handed to storage. -/
inductive Grows (env : Env σ) (s s' : Sys N σ) (logs : Fin N → List Entry) :
    Label N → (Fin N → List Entry) → Prop
  | same {l : Label N} (hst : ∀ v, (s'.nodes v).storage = (s.nodes v).storage) :
    Grows env s s' logs l logs
  | write {i : Fin N} {typ data now timely order} (e : Entry)
    (hterm : e.term = (s.nodes i).currentTerm)
    (hst : ∀ v, (s'.nodes v).storage = (s.nodes v).storage) :
    Grows env s s' logs (.write i typ data now timely order)
      (Function.update logs i (logs i ++ [e]))
  | deliver {k : ℕ} (c : AppendCall (Fin N)) (hc : s.appendCalls[k]? = some c)
    (hacc : Accepts (s.nodes c.dst) c.req)
    (hst : ∀ v, (s'.nodes v).storage
      = if v = c.dst then env.entriesHandler c.req.entries (s.nodes v).storage
        else (s.nodes v).storage) :
    Grows env s s' logs (.deliverAppend k)
      (Function.update logs c.dst (logs c.dst ++ c.req.entries))

theorem setNode_storage (h : n.storage = (s.nodes i).storage) (v : Fin N) :
    ((s.setNode i n).nodes v).storage = (s.nodes v).storage :=
  Sys.forall_setNode (P := fun v n => n.storage = (s.nodes v).storage) h (fun _ => rfl) v

/-- A registry's log grows by some entries, and only by entries of its log its buffers. -/
theorem Replicas.grow (h : Replicas s logs) (new : List Entry) (hn : n.Logs (logs i ++ new))
    (hb : ∀ j, ∀ e ∈ (n.peers j).buffer, e ∈ ((s.nodes i).peers j).buffer ∨ e ∈ new) :
    Replicas (s.setNode i n) (Function.update logs i (logs i ++ new)) := by
  have hmem : ∀ v e, e ∈ logs v → e ∈ Function.update logs i (logs i ++ new) v := by
    intro v e he
    by_cases hv : v = i
    · subst hv
      rw [Function.update_self]
      exact List.mem_append_left _ he
    · rwa [Function.update_of_ne hv]
  refine ⟨fun v => ?_, fun v j e he => ?_, fun c hc e he => hmem _ e (h.call c hc e he)⟩
  · change (Function.update s.nodes i n v).Logs _
    by_cases hv : v = i
    · subst hv
      rwa [Function.update_self, Function.update_self]
    · rw [Function.update_of_ne hv, Function.update_of_ne hv]
      exact h.node v
  · change e ∈ ((Function.update s.nodes i n v).peers j).buffer at he
    by_cases hv : v = i
    · subst hv
      rw [Function.update_self] at he ⊢
      rcases hb j e he with he | he
      · exact List.mem_append_left _ (h.buffer v j e he)
      · exact List.mem_append_right _ he
    · rw [Function.update_of_ne hv] at he
      exact hmem v e (h.buffer v j e he)

theorem Replicas.setNode (h : Replicas s logs) (hn : n.Logs (logs i))
    (hb : ∀ j, (n.peers j).buffer ⊆ ((s.nodes i).peers j).buffer) :
    Replicas (s.setNode i n) logs := by
  have hgrow := h.grow (i := i) (n := n) [] (by rwa [List.append_nil])
    fun j e he => .inl (hb j he)
  rwa [List.append_nil, Function.update_eq_self] at hgrow

theorem Replicas.setCall (h : Replicas s logs) {k : ℕ} {c : AppendCall (Fin N)}
    (hc : s.appendCalls[k]? = some c) (res : AppendEntriesResponse (Fin N)) :
    Replicas { s with appendCalls := s.appendCalls.set k { c with res := some res } } logs := by
  refine ⟨h.node, h.buffer, fun c' hc' => ?_⟩
  rcases List.mem_or_eq_of_mem_set hc' with hc' | rfl
  · exact h.call c' hc'
  · exact h.call c (List.mem_of_getElem? hc)

theorem Replicas.deliverAppend (hlru : env.lru.Lawful) (h : Replicas s logs) {k : ℕ}
    (hin : InOrder (.deliverAppend k) s) {c : AppendCall (Fin N)} (hc : s.appendCalls[k]? = some c)
    {res : AppendEntriesResponse (Fin N)}
    (ha : appendEntries env (s.nodes c.dst) c.req = some (res, n)) :
    ∃ logs', Replicas (s.setNode c.dst n) logs'
      ∧ Grows env s (s.setNode c.dst n) logs (.deliverAppend k) logs' := by
  have hnode := h.node c.dst
  obtain ⟨term, state, votedFor, hheed, -⟩ := (s.nodes c.dst).heed_eq c.req
  have hlogs : ((s.nodes c.dst).heed c.req).Logs (logs c.dst) := by
    rw [hheed]
    exact ⟨hnode.rep, hnode.plan, hnode.index, hnode.wf, hnode.lastLogIndex, hnode.lastLogTerm⟩
  rcases appendEntries_cases ha with ⟨-, rfl, -⟩ | ⟨hterm, hprev, r, hw, -⟩
  · refine ⟨logs, h.setNode hlogs fun j => ?_, .same (setNode_storage ?_)⟩
    · rw [hheed]
      exact List.Subset.refl _
    · rw [hheed]
  · have hcons : Consecutive (logs c.dst).length c.req.entries := by
      rw [← hnode.lastLogIndex]
      exact hin c hc ⟨hterm, hprev⟩
    obtain ⟨n', hn', hlogs', hst, hpeers⟩ := hlogs.writeEntriesFromLeader hlru hcons
      fun e he => (h.node c.src).wf e (h.call c (List.mem_of_getElem? hc) e he)
    obtain rfl : n = n' := (Prod.mk.inj (Option.some.inj (hw.symm.trans hn'))).2
    refine ⟨_, h.grow _ hlogs' fun j e he => .inl ?_, .deliver c hc ⟨hterm, hprev⟩ fun v => ?_⟩
    · rwa [hpeers, hheed] at he
    · change (Function.update s.nodes c.dst n v).storage = _
      by_cases hv : v = c.dst
      · rw [hv, Function.update_self, if_pos rfl, hst, hheed]
      · rw [Function.update_of_ne hv, if_neg hv]

theorem Replicas.went (hlru : env.lru.Lawful) (h : Replicas s logs) {p : ℕ} {j : Fin N}
    {stage stage' : Stage} {new : List (AppendCall (Fin N))}
    (hw : Went env s s' p i j stage stage' n new) :
    Replicas s' logs ∧ ∀ v, (s'.nodes v).storage = (s.nodes v).storage := by
  have hnode := h.node i
  obtain ⟨peers, wal, hn⟩ := hw.node
  have hlogs : n.Logs (logs i) := by
    have hwal : Node.Logs { s.nodes i with wal := n.wal } (logs i) := by
      rcases hw.wal with hsame | ⟨index, r, hr⟩
      · rw [hsame]
        exact hnode
      · exact (hnode.read hlru hr).1
    rw [hn] at hwal ⊢
    exact ⟨hwal.rep, hwal.plan, hwal.index, hwal.wf, hwal.lastLogIndex, hwal.lastLogTerm⟩
  have hset := h.setNode hlogs hw.buffers
  have hst : ∀ v, ((s.setNode i n).nodes v).storage = (s.nodes v).storage :=
    setNode_storage (by rw [hn])
  rw [hw.eq]
  refine ⟨⟨hset.node, hset.buffer, fun c hc e he => ?_⟩, hst⟩
  rcases List.mem_append.mp hc with hc | hc
  · exact h.call c hc e he
  · obtain ⟨rfl, -, -, hentries⟩ := hw.calls c hc
    rcases hentries e he with he | ⟨index, bytes, n', hr, rfl⟩
    · exact h.buffer _ _ e he
    · exact (hnode.read hlru hr).2 bytes rfl

/-- A step in order keeps the registries' logs, or adds to one of them. -/
theorem Replicas.step (hlru : env.lru.Lawful) (h : Replicas s logs) (hb : Bounded s) {l : Label N}
    (hin : InOrder l s) (hs : step env l s = some s') :
    ∃ logs', Replicas s' logs' ∧ Grows env s s' logs l logs' := by
  cases stepped hs with
  | @startElection i el calls hcalls =>
    have hn := h.node i
    have hset := h.setNode (i := i) (n := (s.nodes i).campaign)
      ⟨hn.rep, hn.plan, hn.index, hn.wf, hn.lastLogIndex, hn.lastLogTerm⟩
      fun j => List.Subset.refl _
    exact ⟨logs, ⟨hset.node, hset.buffer, hset.call⟩, .same (setNode_storage rfl)⟩
  | election => exact ⟨logs, ⟨h.node, h.buffer, h.call⟩, .same fun _ => rfl⟩
  | @promote i =>
    have hn := h.node i
    have hset := h.setNode (i := i) (n := { s.nodes i with state := .leader })
      ⟨hn.rep, hn.plan, hn.index, hn.wf, hn.lastLogIndex, hn.lastLogTerm⟩
      fun j => List.Subset.refl _
    exact ⟨logs, ⟨hset.node, hset.buffer, hset.call⟩,
      .same (setNode_storage (n := { s.nodes i with state := .leader }) rfl)⟩
  | deliverVote c hc =>
    have hn := h.node c.dst
    obtain ⟨state, voted, votedFor, hn'⟩ := requestVote_eq (s.nodes c.dst) c.req
    have hset := h.setNode (i := c.dst) (n := (requestVote (s.nodes c.dst) c.req).2)
      (by rw [hn']; exact ⟨hn.rep, hn.plan, hn.index, hn.wf, hn.lastLogIndex, hn.lastLogTerm⟩)
      fun j => by rw [hn']; exact List.Subset.refl _
    exact ⟨logs, ⟨hset.node, hset.buffer, hset.call⟩, .same (setNode_storage (by rw [hn']))⟩
  | deliverAppend c hc res n ha =>
    obtain ⟨logs', hrep, hgrows⟩ := h.deliverAppend hlru hin hc ha
    refine ⟨logs', hrep.setCall hc res, ?_⟩
    cases hgrows with
    | same hst => exact .same hst
    | deliver c' hc' hacc hst => exact .deliver c' hc' hacc hst
  | @write i _ _ _ _ _ r n hw =>
    have hst : n.storage = (s.nodes i).storage := by
      obtain ⟨wal, li, lt, peers, pipeline, rfl⟩ := writeEntry_eq hw
      rfl
    rcases (h.node i).writeEntry hlru hin (hb.node i) hw with rfl | ⟨e, hterm, hlogs, hbuf⟩
    · exact ⟨logs, h.setNode (h.node i) fun j => List.Subset.refl _, .same (setNode_storage hst)⟩
    · refine ⟨_, h.grow _ hlogs fun j e' he' => ?_, .write e hterm (setNode_storage hst)⟩
      exact (hbuf j e' he').imp_right List.mem_singleton.mpr
  | tick => exact ⟨logs, ⟨h.node, h.buffer, h.call⟩, .same fun _ => rfl⟩
  | proc _ hw =>
    obtain ⟨h', hst⟩ := h.went hlru hw
    exact ⟨logs, h', .same hst⟩

end Cluster

end Rhosus.Cluster

import Rhosus.Cluster.Replication

/-!
# Registries that stop and start again

A registry may stop at any moment, within a write to its log or while it applies a leader's entries
as well, and be started anew on what it left: `NewCluster` opens the log, and takes the index and
the term of its last entry for its own. The term it was in and the vote it gave are not kept. Of
its peers it has those that answer then, and those that are discovered later; without any it is the
leader at once.

The log on disk outlives all that: in every run in which entries go on where a log ends, what a
registry has once written stays where it is (`records_survive`). Its votes do not
(`vote_after_restart`).
-/

namespace Rhosus.Cluster

section Source

variable {ι σ : Type} (lru : SetEvicted ℕ Wal.Ptr)

/-- Nothing where it ends the process. -/
def Node.setInitialTermAndIndex (n : Node ι σ) : Option (Node ι σ) :=
  match n.onWal Wal.lastIndex with
  | some (.ok lastIndex, n) =>
    if lastIndex = 0 then some { n with lastLogIndex := 0, currentTerm := 0 }
    else
      match n.onWal (Wal.read lru lastIndex) with
      | some (.ok data, n) =>
        -- an error of `Unmarshal` is not looked at
        let entry := (Entry.unmarshal data).1
        some { n.endWith entry with currentTerm := entry.term }
      | _ => none
  | _ => none

/-- `NewCluster` in the directory of a log, where `sanePeers` have answered. -/
def newCluster (id : ι) (dir : Dir Wal.Name) (storage : σ) (sanePeers : List ι) :
    Option (Node ι σ) :=
  match Wal.create Wal.defaultOptions ⟨Wal.WAL.new Wal.defaultOptions, dir, []⟩ with
  | (.ok _, wal) =>
    ((Node.new id wal storage).setInitialTermAndIndex lru).map fun n =>
      { n with state := if sanePeers.isEmpty then .leader else .follower }
  | _ => none

/-- The directory after some writes to a log, as far as they get. -/
def writeUntil : List Entry → World Wal.Name Wal.WAL → Dir Wal.Name
  | [], w => w.dir
  | e :: es, w =>
    match Wal.write lru e.index e.marshal w with
    | (.ok _, w) => writeUntil es w
    | (_, w) => w.dir

end Source

section Life

variable {N : ℕ} {σ : Type} (env : Env σ)

/-- Registries with the peers that each of them has. -/
structure Live (N : ℕ) (σ : Type) where
  sys : Sys N σ
  peers : Fin N → List (Fin N)

/-- What a registry is at when it stops. -/
inductive Stop
  | idle
  /-- Within `writeEntry`, before the file operation `k`. -/
  | writing (typ : EntryType) (data : Payload) (now : Int64) (k : ℕ)
  /-- Within `WriteEntriesFromLeader` for a call, with some entries handed to storage. -/
  | handing (call handed : ℕ)
  /-- Within it, before the file operation `k`. -/
  | appending (call k : ℕ)

inductive Event (N : ℕ)
  | step (l : Label N)
  /-- `DiscoverOrUpdate`, where the peer can be reached. -/
  | discover (i j : Fin N)
  | restart (i : Fin N) (stop : Stop) (sanePeers : List (Fin N))

/-- `StartElection` up to its vote requests, with some peers. -/
def Sys.startElectionAmong (js : List (Fin N)) (i : Fin N) (s : Sys N σ) : Option (Sys N σ) :=
  if (s.nodes i).state = .leader ∨ s.elections i ≠ none then none
  else
    let n := (s.nodes i).campaign
    let calls := js.map fun j => ⟨i, j, n.voteRequest, (n.lastLogTerm, n.lastLogIndex), none⟩
    let el : Election := ⟨n.currentTerm, List.range' s.voteCalls.length calls.length, 0, 0⟩
    some { (s.setNode i n).setElection i (some el) with voteCalls := s.voteCalls ++ calls }

/-- A step of the cluster, by the peers that each registry has. -/
def stepAmong (peers : Fin N → List (Fin N)) : Label N → Sys N σ → Option (Sys N σ)
  | .startElection i, s => s.startElectionAmong (peers i) i
  | .write i typ data now timely order, s =>
    if order.Perm (peers i) then
      match writeEntry env typ data now timely order (s.nodes i) with
      | some (_, n) => some (s.setNode i n)
      | none => none
    else none
  | .tick i j, s => if j ∈ peers i then s.tick i j else none
  | l, s => step env l s

/-- The entries that a call has for the registry, if it accepts them. -/
def Sys.accepted (s : Sys N σ) (i : Fin N) (call : ℕ) : Option (List Entry) :=
  match s.appendCalls[call]? with
  | some ⟨_, j, req, none⟩ =>
    if j = i ∧ Accepts (s.nodes i) req ∧ validateEntriesSequence req.entries then some req.entries
    else none
  | _ => none

/-- The directory of the log and the storage that a registry leaves, where it can stop like this. -/
def Sys.left (s : Sys N σ) (i : Fin N) : Stop → Option (Dir Wal.Name × σ)
  | .idle => some ((s.nodes i).wal.dir, (s.nodes i).storage)
  | .writing typ data now k =>
    if (s.nodes i).shutdown then none
    else some (writeUntil env.lru [(s.nodes i).nextEntry typ data now]
      { (s.nodes i).wal with plan := Wal.cut k }, (s.nodes i).storage)
  | .handing call handed => (s.accepted i call).map fun es =>
    ((s.nodes i).wal.dir, env.entriesHandler (es.take handed) (s.nodes i).storage)
  | .appending call k => (s.accepted i call).map fun es =>
    (writeUntil env.lru es { (s.nodes i).wal with plan := Wal.cut k },
      env.entriesHandler es (s.nodes i).storage)

/-- The goroutines of a registry go with it. -/
def Proc.stop (i : Fin N) (p : Proc (Fin N)) : Proc (Fin N) :=
  if p.leader = i then { p with stage := .done } else p

namespace Live

/-- `reload` is what a new process makes of the storage of the one before. -/
def step (reload : σ → σ) : Event N → Live N σ → Option (Live N σ)
  | .step l, s => (stepAmong env s.peers l s.sys).map fun sys => { s with sys }
  | .discover i j, s =>
    if i = j then none
    else if (s.sys.nodes i).shutdown ∨ j ∈ s.peers i then some s
    else some ⟨s.sys.setPeer i j ⟨[], false, 0⟩, Function.update s.peers i (s.peers i ++ [j])⟩
  | .restart i stop sanePeers, s =>
    if sanePeers.Nodup ∧ i ∉ sanePeers then
      match s.sys.left env i stop with
      | none => none
      | some (dir, storage) =>
        match newCluster env.lru i dir (reload storage) sanePeers with
        | none => none
        | some n => some
          ⟨{ (s.sys.setNode i n).setElection i none with procs := s.sys.procs.map (Proc.stop i) },
            Function.update s.peers i sanePeers⟩
    else none

/-- Registries that have just been created, with these peers. -/
def init (storage : σ) (peers : Fin N → List (Fin N)) : Live N σ where
  sys :=
    { (Sys.init storage : Sys N σ) with
      nodes := fun i =>
        { Node.new i freshWal storage with
          state := if (peers i).isEmpty then .leader else .follower } }
  peers := peers

end Live

end Life

section Boot

variable {ι σ : Type} {lru : SetEvicted ℕ Wal.Ptr} {w : World Wal.Name Wal.WAL}
variable {es : List Entry}

def lastTerm (es : List Entry) : ℕ := (es.getLast?.map Entry.term).getD 0

theorem lastTerm_of_getLast {e : Entry} (h : es.getLast? = some e) : lastTerm es = e.term := by
  rw [lastTerm, h]
  rfl

theorem lastIndex_logOf (h : Wal.Rep w (logOf es)) (hp : w.plan = []) :
    Wal.lastIndex w = (.ok es.length, w) := by
  have hlast : w.mem.lastIndex = es.length := by
    rw [h.lastIndex_eq]
    simp [logOf, Wal.Log.lastIndex]
  have hends : Ends Wal.lastIndex w (fun r w' => r = .ok es.length ∧ w' = w) (fun _ => True) :=
    h.beside.guarded (.bind (.getMem (.pure ⟨by rw [hlast], rfl⟩)))
  obtain ⟨r, w', hrun, -, rfl, rfl⟩ := hends.returns hp
  exact hrun

theorem setInitialTermAndIndex_new (hlru : lru.Lawful) (id : ι) (storage : σ)
    (h : Wal.Rep w (logOf es)) (hp : w.plan = []) (hindex : Consecutive 0 es)
    (hwf : ∀ e ∈ es, e.Wf) :
    ∃ w', (Node.new id w storage).setInitialTermAndIndex lru = some
        { Node.new id w' storage with
          lastLogIndex := es.length, lastLogTerm := lastTerm es, currentTerm := lastTerm es }
      ∧ Wal.Rep w' (logOf es) ∧ w'.plan = [] := by
  have hlast : (Node.new id w storage).onWal Wal.lastIndex
      = some (.ok es.length, Node.new id w storage) :=
    Node.onWal_ok (lastIndex_logOf h hp)
  rw [Node.setInitialTermAndIndex, hlast]
  dsimp only
  rcases es.eq_nil_or_concat with rfl | ⟨init, e, rfl⟩
  · exact ⟨w, rfl, h, hp⟩
  · rw [if_neg (by simp)]
    obtain ⟨w', hw, hrep, hp'⟩ := read_logOf hlru h hp (init.length + 1)
    have hread : (logOf (init.concat e)).read (init.length + 1) = .ok e.marshal := by
      rw [Wal.Log.read, logOf_get?]
      simp
    have he : e ∈ init.concat e := by simp
    have hat : e.index = (init.concat e).length := by
      have := hindex.index (k := init.length) (e := e) (by simp)
      simpa using this
    have hterm : lastTerm (init.concat e) = e.term := lastTerm_of_getLast (by simp)
    refine ⟨w', ?_, hrep, hp'⟩
    rw [hread] at hw
    simp only [Node.onWal, Node.new, List.length_concat, hw, Outcome.ofExcept,
      Entry.unmarshal_marshal (hwf e he), Node.endWith, hat, hterm]

/-- A registry that has come up on the log `es`. -/
def Node.booted (id : ι) (wal : World Wal.Name Wal.WAL) (storage : σ) (es : List Entry)
    (sanePeers : List ι) : Node ι σ :=
  { Node.new id wal storage with
    lastLogIndex := es.length, lastLogTerm := lastTerm es, currentTerm := lastTerm es
    state := if sanePeers.isEmpty then .leader else .follower }

theorem newCluster_eq (hlru : lru.Lawful) (id : ι) {dir : Dir Wal.Name} (storage : σ)
    (sanePeers : List ι) (h : Wal.Recovers dir (logOf es)) (hindex : Consecutive 0 es)
    (hwf : ∀ e ∈ es, e.Wf) :
    ∃ w, newCluster lru id dir storage sanePeers = some (.booted id w storage es sanePeers)
      ∧ (Node.booted id w storage es sanePeers).Logs es := by
  obtain ⟨r, w, hrun, hp, rfl, hrep, -⟩ := (Wal.create_rep Wal.defaultOptions h NoFail.nil
    (Wal.WAL.new Wal.defaultOptions)).returns rfl
  obtain ⟨w', hset, hrep', hp'⟩ := setInitialTermAndIndex_new hlru id storage hrep hp hindex hwf
  refine ⟨w', ?_, hrep', hp', hindex, hwf, rfl, fun e he => lastTerm_of_getLast he⟩
  rw [newCluster, hrun]
  simp only [Outcome.ofExcept, hset, Option.map_some, Node.booted]

theorem newCluster_empty {N : ℕ} (lru : SetEvicted ℕ Wal.Ptr) (i : Fin N) (storage : σ)
    (peers : Fin N → List (Fin N)) :
    newCluster lru i ∅ storage (peers i) = some ((Live.init storage peers).sys.nodes i) := by
  obtain ⟨r, w, hrun, hp, rfl, hrep, -⟩ := (Wal.create_rep Wal.defaultOptions Wal.recovers_empty
    NoFail.nil (Wal.WAL.new Wal.defaultOptions)).returns rfl
  have hindex : Wal.lastIndex w = (.ok ([] : List Entry).length, w) := lastIndex_logOf hrep hp
  have hlast : (Node.new i w storage).onWal Wal.lastIndex
      = some (.ok 0, Node.new i w storage) := Node.onWal_ok hindex
  have hfresh : freshWal = w := by rw [freshWal, hrun]
  rw [newCluster, hrun]
  simp only [Outcome.ofExcept, Node.setInitialTermAndIndex, hlast, if_pos, Option.map_some]
  simp only [Live.init, hfresh, Node.new]

end Boot

section Stopped

variable {lru : SetEvicted ℕ Wal.Ptr}

/-- Wherever the writes are cut short, the log is there to recover with some of the entries. -/
theorem writeUntil_recovers (hlru : lru.Lawful) : ∀ (new : List Entry)
    {w : World Wal.Name Wal.WAL} {es : List Entry}, Wal.Rep w (logOf es) → NoFail w.plan →
      Consecutive es.length new → (∀ e ∈ new, e.Wf) → es.length + new.length + 1 < 2 ^ 64 →
        ∃ m, Wal.Recovers (writeUntil lru new w) (logOf (es ++ new.take m))
  | [], w, es, h, _, _, _, hb => by
    refine ⟨0, ?_⟩
    rw [List.take_nil, List.append_nil]
    exact h.recovers (by simpa [logOf, Nat.add_comm] using hb)
  | e :: new, w, es, h, hp, hc, hwf, hb => by
    have hlast : e.index = (logOf es).lastIndex + 1 := by
      rw [hc.1]
      simp [logOf, Wal.Log.lastIndex]
    have hbound : (logOf es).first + (logOf es).entries.length < 2 ^ 64
        ∧ (logOf (es ++ [e])).first + (logOf (es ++ [e])).entries.length < 2 ^ 64 := by
      simp only [logOf, List.length_map, List.length_append, List.length_cons,
        List.length_nil] at hb ⊢
      omega
    have hends := h.write hlru (logOf_wf es)
      (Entry.length_marshal_lt (hwf e List.mem_cons_self))
    rw [← hlast, logOf_append] at hends
    unfold Ends at hends
    rcases hw : Wal.write lru e.index e.marshal w with ⟨o, w'⟩
    rw [hw] at hends
    rw [writeUntil, hw]
    cases o with
    | ok =>
      obtain ⟨hplan, -, hrep⟩ := hends
      obtain ⟨m, hm⟩ := writeUntil_recovers hlru new hrep
        (fun n hn => hp n (hplan.mem hn)) (by simpa using hc.2)
        (fun e' he' => hwf e' (List.mem_cons_of_mem _ he'))
        (by simp only [List.length_append, List.length_cons, List.length_nil] at hb ⊢; omega)
      exact ⟨m + 1, by simpa using hm⟩
    | err => exact absurd hends.2.1 (by simp)
    | panic => exact hends.elim
    | crash =>
      rcases hends.2 with hclean | hclean
      · exact ⟨0, by simpa using hclean.recovers hbound.1⟩
      · exact ⟨1, by simpa using hclean.recovers hbound.2⟩

end Stopped

theorem wf_nextEntry {ι σ : Type} {n : Node ι σ} (ht : n.currentTerm < 2 ^ 32) (typ : EntryType)
    (data : Payload) (now : Int64) : (n.nextEntry typ data now).Wf := by
  refine ⟨Nat.mod_lt _ (by norm_num), ht, ?_, data.2, Int64.le_toInt now, Int64.toInt_lt now⟩
  cases typ <;> norm_num [Node.nextEntry, EntryType.code]

section Replicas

variable {N : ℕ} {σ : Type} {env : Env σ} {s : Sys N σ} {logs : Fin N → List Entry}
variable {i : Fin N}

/-- Entries that a registry is at when it stops go on where its log ends; indexes do not wrap. -/
def Stop.InOrder (i : Fin N) (s : Sys N σ) : Stop → Prop
  | .idle => (s.nodes i).lastLogIndex + 1 < 2 ^ 64
  | .writing .. => (s.nodes i).lastLogIndex + 2 < 2 ^ 64
  | .handing call _ | .appending call _ => ∀ es ∈ s.accepted i call,
    Consecutive (s.nodes i).lastLogIndex es
      ∧ (s.nodes i).lastLogIndex + es.length + 1 < 2 ^ 64

instance Stop.decidableInOrder (i : Fin N) (s : Sys N σ) : ∀ stop : Stop,
    Decidable (stop.InOrder i s)
  | .idle => inferInstanceAs (Decidable ((s.nodes i).lastLogIndex + 1 < 2 ^ 64))
  | .writing .. => inferInstanceAs (Decidable ((s.nodes i).lastLogIndex + 2 < 2 ^ 64))
  | .handing call _ | .appending call _ =>
    inferInstanceAs (Decidable (∀ es ∈ s.accepted i call, _ ∧ _))

theorem mem_of_accepted (h : Replicas s logs) {call : ℕ} {es : List Entry}
    (hes : s.accepted i call = some es) : ∀ e ∈ es, e.Wf := by
  unfold Sys.accepted at hes
  split at hes
  · rename_i src j req hc
    split_ifs at hes
    obtain rfl := Option.some.inj hes
    exact fun e he => (h.node src).wf e (h.call _ (List.mem_of_getElem? hc) e he)
  · cases hes

/-- What a registry leaves is its log, with some entries more. -/
theorem Replicas.left (hlru : env.lru.Lawful) (h : Replicas s logs) (hb : Bounded s) {stop : Stop}
    (hin : stop.InOrder i s) {dir : Dir Wal.Name} {storage : σ}
    (hleft : s.left env i stop = some (dir, storage)) :
    ∃ new, Wal.Recovers dir (logOf (logs i ++ new)) ∧ Consecutive 0 (logs i ++ new)
      ∧ ∀ e ∈ logs i ++ new, e.Wf := by
  have hnode := h.node i
  have hlen := hnode.lastLogIndex
  have hwrite : ∀ (es : List Entry) (k : ℕ), Consecutive (s.nodes i).lastLogIndex es →
      (∀ e ∈ es, e.Wf) → (s.nodes i).lastLogIndex + es.length + 1 < 2 ^ 64 →
        ∃ new, Wal.Recovers (writeUntil env.lru es { (s.nodes i).wal with plan := Wal.cut k })
            (logOf (logs i ++ new)) ∧ Consecutive 0 (logs i ++ new)
          ∧ ∀ e ∈ logs i ++ new, e.Wf := by
    intro es k hc hwf hbound
    rw [hlen] at hc hbound
    obtain ⟨cs, hg, hrecs⟩ := hnode.rep
    obtain ⟨m, hm⟩ := writeUntil_recovers (w := { (s.nodes i).wal with plan := Wal.cut k }) hlru es
      ⟨cs, hg.withPlan (Wal.noFail_cut k), hrecs⟩ (Wal.noFail_cut k) hc hwf hbound
    have hsplit : Consecutive (logs i).length (es.take m) := by
      rw [← List.take_append_drop m es] at hc
      exact (consecutive_append.mp hc).1
    refine ⟨es.take m, hm, consecutive_append.mpr ⟨hnode.index, by simpa using hsplit⟩,
      fun e he => ?_⟩
    rcases List.mem_append.mp he with he | he
    · exact hnode.wf e he
    · exact hwf e (List.mem_of_mem_take he)
  have hstay : (s.nodes i).lastLogIndex + 1 < 2 ^ 64 →
      ∃ new, Wal.Recovers (s.nodes i).wal.dir (logOf (logs i ++ new))
        ∧ Consecutive 0 (logs i ++ new) ∧ ∀ e ∈ logs i ++ new, e.Wf := by
    intro hbound
    refine ⟨[], ?_⟩
    rw [List.append_nil]
    rw [hlen] at hbound
    exact ⟨hnode.rep.recovers (by simpa [logOf, Nat.add_comm] using hbound), hnode.index,
      hnode.wf⟩
  cases stop with
  | idle =>
    obtain ⟨rfl, -⟩ := Prod.mk.inj (Option.some.inj hleft)
    exact hstay hin
  | writing typ data now k =>
    rw [Sys.left] at hleft
    split_ifs at hleft
    obtain ⟨rfl, -⟩ := Prod.mk.inj (Option.some.inj hleft)
    have hbound : (s.nodes i).lastLogIndex + 2 < 2 ^ 64 := hin
    refine hwrite _ k ⟨Nat.mod_eq_of_lt (by omega), trivial⟩ ?_ hbound
    simp only [List.mem_singleton, forall_eq]
    exact wf_nextEntry (hb.node i) typ data now
  | handing call handed =>
    rw [Sys.left] at hleft
    obtain ⟨es, hes, hpair⟩ := Option.map_eq_some_iff.mp hleft
    obtain ⟨rfl, -⟩ := Prod.mk.inj hpair
    have hbound := (hin es hes).2
    exact hstay (by omega)
  | appending call k =>
    rw [Sys.left] at hleft
    obtain ⟨es, hes, hpair⟩ := Option.map_eq_some_iff.mp hleft
    obtain ⟨rfl, -⟩ := Prod.mk.inj hpair
    exact hwrite es k (hin es hes).1 (mem_of_accepted h hes) (hin es hes).2

/-- Registries that all know each other take the steps of the cluster. -/
theorem stepAmong_others (l : Label N) (s : Sys N σ) : stepAmong env others l s = step env l s := by
  cases l with
  | tick i j =>
    have hmem : j ∈ others i ↔ j ≠ i := by simp [others]
    rw [stepAmong, step]
    by_cases hij : j = i
    · rw [if_neg (by rw [hmem]; exact not_not.mpr hij), Sys.tick, if_neg fun h => h.2 hij.symm]
    · rw [if_pos (hmem.mpr hij)]
  | _ => rfl

theorem longer_update (logs : Fin N → List Entry) (i : Fin N) (new : List Entry) (v : Fin N) :
    logs v <+: Function.update logs i (logs i ++ new) v := by
  by_cases hv : v = i
  · subst hv
    rw [Function.update_self]
    exact List.prefix_append _ _
  · rw [Function.update_of_ne hv]

theorem Grows.longer {s' : Sys N σ} {l : Label N} {logs' : Fin N → List Entry}
    (h : Grows env s s' logs l logs') (v : Fin N) : logs v <+: logs' v := by
  cases h with
  | same => exact List.prefix_rfl
  | write e => exact longer_update _ _ _ v
  | deliver c => exact longer_update _ _ _ v

/-- A step of registries with any peers keeps the logs, or adds to one. -/
theorem Replicas.stepAmong (hlru : env.lru.Lawful) {peers : Fin N → List (Fin N)}
    (h : Replicas s logs) (hb : Bounded s) {l : Label N} (hin : InOrder l s) {s' : Sys N σ}
    (hs : stepAmong env peers l s = some s') :
    (∃ logs', Replicas s' logs' ∧ ∀ v, logs v <+: logs' v) ∧ Bounded s' := by
  have hother : ∀ {l : Label N}, InOrder l s → Cluster.step env l s = some s' →
      (∃ logs', Replicas s' logs' ∧ ∀ v, logs v <+: logs' v) ∧ Bounded s' := by
    intro l hin hs
    obtain ⟨logs', h', hgrows⟩ := h.step hlru hb hin hs
    exact ⟨⟨logs', h', hgrows.longer⟩, hb.step hs⟩
  have hset : ∀ {i : Fin N} {n : Node (Fin N) σ}, n.currentTerm < 2 ^ 32 →
      ∀ v, (Function.update s.nodes i n v).currentTerm < 2 ^ 32 :=
    fun hn => Sys.forall_setNode (P := fun _ n => n.currentTerm < 2 ^ 32) hn hb.node
  unfold Cluster.stepAmong at hs
  split at hs
  · rename_i i
    unfold Sys.startElectionAmong at hs
    split_ifs at hs
    obtain rfl := Option.some.inj hs
    have hn := h.node i
    have hterm : (s.nodes i).campaign.currentTerm < 2 ^ 32 := Nat.mod_lt _ (by norm_num)
    have hkeep := h.setNode (i := i) (n := (s.nodes i).campaign)
      ⟨hn.rep, hn.plan, hn.index, hn.wf, hn.lastLogIndex, hn.lastLogTerm⟩
      fun j => List.Subset.refl _
    refine ⟨⟨logs, ⟨hkeep.node, hkeep.buffer, hkeep.call⟩, fun _ => List.prefix_rfl⟩,
      hset hterm, fun c hc => ?_, hb.append, hb.proc⟩
    rcases List.mem_append.mp hc with hc | hc
    · exact hb.vote c hc
    · obtain ⟨j, -, rfl⟩ := List.mem_map.mp hc
      exact hterm
  · rename_i i typ data now timely order
    split_ifs at hs
    split at hs
    · rename_i r n hw
      obtain rfl := Option.some.inj hs
      have hbounded : Bounded (s.setNode i n) := by
        obtain ⟨wal, li, lt, peers, pipeline, rfl⟩ := writeEntry_eq hw
        exact ⟨hset (hb.node i), hb.vote, hb.append, hb.proc⟩
      refine ⟨?_, hbounded⟩
      rcases (h.node i).writeEntry hlru hin (hb.node i) hw with rfl | ⟨e, -, hlogs, hbuf⟩
      · exact ⟨logs, h.setNode (h.node i) fun j => List.Subset.refl _, fun _ => List.prefix_rfl⟩
      · exact ⟨_, h.grow _ hlogs fun j e' he' => (hbuf j e' he').imp_right List.mem_singleton.mpr,
          longer_update _ _ _⟩
    · cases hs
  · split_ifs at hs
    exact hother (l := .tick _ _) trivial hs
  · exact hother hin hs

end Replicas

namespace Live

variable {N : ℕ} {σ : Type} {env : Env σ} {reload : σ → σ} {s s' : Live N σ}
variable {logs : Fin N → List Entry} {i : Fin N}

/-- Entries go on where the log ends that they are written to; indexes do not wrap. -/
def InOrder : Event N → Live N σ → Prop
  | .step l, s => Cluster.InOrder l s.sys
  | .discover .., _ => True
  | .restart i stop _, s => stop.InOrder i s.sys

instance : ∀ (l : Event N) (s : Live N σ), Decidable (InOrder l s)
  | .step l, s => inferInstanceAs (Decidable (Cluster.InOrder l s.sys))
  | .discover .., _ => inferInstanceAs (Decidable True)
  | .restart i stop _, s => inferInstanceAs (Decidable (stop.InOrder i s.sys))

structure Holds (s : Live N σ) (logs : Fin N → List Entry) : Prop where
  replicas : Replicas s.sys logs
  bounded : Bounded s.sys

theorem holds_init (storage : σ) (peers : Fin N → List (Fin N)) :
    (init storage peers).Holds fun _ => [] := by
  refine ⟨⟨fun i => ?_, by simp [init, Sys.init, Node.new], by simp [init, Sys.init]⟩,
    ⟨by simp [init, Node.new], by simp [init, Sys.init], by simp [init, Sys.init],
      by simp [init, Sys.init]⟩⟩
  have h := logs_new i storage
  exact ⟨h.rep, h.plan, h.index, h.wf, h.lastLogIndex, h.lastLogTerm⟩

/-- What a registry leaves, it comes up on, with a log that begins with the one it had. -/
theorem Holds.reboot (hlru : env.lru.Lawful) (h : s.Holds logs) {new : List Entry}
    {dir : Dir Wal.Name} (hdir : Wal.Recovers dir (logOf (logs i ++ new)))
    (hindex : Consecutive 0 (logs i ++ new)) (hwf : ∀ e ∈ logs i ++ new, e.Wf) (storage : σ)
    (sanePeers : List (Fin N)) :
    ∃ w, newCluster env.lru i dir storage sanePeers
        = some (.booted i w storage (logs i ++ new) sanePeers)
      ∧ (Live.mk { (s.sys.setNode i (.booted i w storage (logs i ++ new) sanePeers)).setElection i
          none with procs := s.sys.procs.map (Proc.stop i) }
        (Function.update s.peers i sanePeers)).Holds
          (Function.update logs i (logs i ++ new)) := by
  obtain ⟨w, hw, hlogs⟩ := newCluster_eq hlru i storage sanePeers hdir hindex hwf
  have hgrow := h.replicas.grow new hlogs fun j e he => by simp [Node.booted, Node.new] at he
  refine ⟨w, hw, ⟨hgrow.node, hgrow.buffer, hgrow.call⟩, ⟨?_, h.bounded.vote, h.bounded.append, ?_⟩⟩
  · refine Sys.forall_setNode (P := fun _ n => n.currentTerm < 2 ^ 32) ?_ h.bounded.node
    rcases hlast : (logs i ++ new).getLast? with _ | e
    · simp [Node.booted, lastTerm, hlast]
    · simp only [Node.booted, lastTerm_of_getLast hlast]
      exact (hwf e (List.mem_of_getLast? hlast)).term
  · intro p hp
    obtain ⟨q, hq, rfl⟩ := List.mem_map.mp hp
    unfold Proc.stop
    split_ifs
    · norm_num [Stage.term]
    · exact h.bounded.proc q hq

theorem Holds.step (hlru : env.lru.Lawful) (h : s.Holds logs) {l : Event N} (hin : InOrder l s)
    (hs : step env reload l s = some s') : ∃ logs', s'.Holds logs' ∧ ∀ v, logs v <+: logs' v := by
  cases l with
  | step l =>
    obtain ⟨sys, hsys, rfl⟩ := Option.map_eq_some_iff.mp hs
    obtain ⟨⟨logs', h', hlonger⟩, hb⟩ := h.replicas.stepAmong hlru h.bounded hin hsys
    exact ⟨logs', ⟨h', hb⟩, hlonger⟩
  | discover i j =>
    rw [Live.step] at hs
    split_ifs at hs
    · obtain rfl := Option.some.inj hs
      exact ⟨logs, h, fun _ => List.prefix_rfl⟩
    · obtain rfl := Option.some.inj hs
      have hn := h.replicas.node i
      refine ⟨logs, ⟨h.replicas.setNode
        ⟨hn.rep, hn.plan, hn.index, hn.wf, hn.lastLogIndex, hn.lastLogTerm⟩
        (setPeer_buffer_subset (by simp)), ?_⟩, fun _ => List.prefix_rfl⟩
      exact ⟨Sys.forall_setNode (P := fun _ n => n.currentTerm < 2 ^ 32) (h.bounded.node i)
        h.bounded.node, h.bounded.vote, h.bounded.append, h.bounded.proc⟩
  | restart i stop sanePeers =>
    rw [Live.step] at hs
    split_ifs at hs
    rcases hleft : s.sys.left env i stop with _ | ⟨dir, storage⟩ <;> rw [hleft] at hs
    · cases hs
    obtain ⟨new, hdir, hindex, hwf⟩ := h.replicas.left hlru h.bounded hin hleft
    obtain ⟨w, hw, hholds⟩ := h.reboot hlru hdir hindex hwf (reload storage) sanePeers
    dsimp only at hs
    rw [hw] at hs
    obtain rfl := Option.some.inj hs
    exact ⟨_, hholds, longer_update _ _ _⟩

theorem Holds.run (hlru : env.lru.Lawful) (h : s.Holds logs) {ls : List (Event N)}
    (hin : Along (Live.step env reload) InOrder ls s)
    (hrun : runSteps (Live.step env reload) ls s = some s') :
    ∃ logs', s'.Holds logs' ∧ ∀ v, logs v <+: logs' v := by
  refine Along.invariant (I := fun s' => ∃ logs', s'.Holds logs' ∧ ∀ v, logs v <+: logs' v) ?_ ls
    ⟨logs, h, fun _ => List.prefix_rfl⟩ hin hrun
  rintro l s₁ s₂ ⟨logs₁, h₁, hlonger⟩ hl hs
  obtain ⟨logs₂, h₂, hlonger'⟩ := h₁.step hlru hl hs
  exact ⟨logs₂, h₂, fun v => (hlonger v).trans (hlonger' v)⟩

end Live

section Main

variable {N : ℕ} {σ : Type} {env : Env σ} {s s' : Live N σ}

/-- Whatever steps the registries take, whichever peers they have, and whenever one of them stops
and starts again, in the midst of a write to its log or of a leader's entries too: where entries go
on where the log ends, what a registry has in its log at any time it has there ever after, in the
same place, and the index it takes for its last is the last of its log. It can always come up. -/
theorem records_survive (hlru : env.lru.Lawful) (reload : σ → σ) (storage : σ)
    (peers : Fin N → List (Fin N)) (ls ls' : List (Event N))
    (hin : Along (Live.step env reload) Live.InOrder (ls ++ ls') (.init storage peers))
    (hrun : runSteps (Live.step env reload) ls (.init storage peers) = some s)
    (hrun' : runSteps (Live.step env reload) ls' s = some s') (i : Fin N) :
    ∃ rs rs', (s.sys.nodes i).records = some rs ∧ (s'.sys.nodes i).records = some rs'
      ∧ rs <+: rs' ∧ (s'.sys.nodes i).lastLogIndex = rs'.length
      ∧ ∀ stop sanePeers, sanePeers.Nodup → i ∉ sanePeers → stop.InOrder i s'.sys →
        (s'.sys.left env i stop).isSome →
          (Live.step env reload (.restart i stop sanePeers) s').isSome := by
  obtain ⟨logs, h, -⟩ := (Live.holds_init storage peers).run hlru hin.append_left hrun
  obtain ⟨logs', h', hlonger⟩ := h.run hlru (hin.append_right hrun) hrun'
  have hnode := h'.replicas.node i
  refine ⟨_, _, (h.replicas.node i).records, hnode.records, (hlonger i).map Entry.marshal, ?_,
    fun stop sanePeers hnodup hi hstop hleft => ?_⟩
  · rw [List.length_map, hnode.lastLogIndex]
  · obtain ⟨⟨dir, kept⟩, hleft⟩ := Option.isSome_iff_exists.mp hleft
    obtain ⟨new, hdir, hindex, hwf⟩ := h'.replicas.left hlru h'.bounded hstop hleft
    obtain ⟨w, hw, -⟩ := h'.reboot hlru hdir hindex hwf (reload kept) sanePeers
    rw [Live.step, if_pos ⟨hnodup, hi⟩, hleft]
    dsimp only
    rw [hw]
    rfl

/-- An entry; a second one, in the writing of which the registry stops; and a third, which it
writes as the leader it is without peers. -/
def writesAmidStops : List (Event 2) × List (Event 2) :=
  ([.step (.write 0 .assignFile .empty 0 true [1])],
    [.restart 0 (.writing .assignFile .empty 0 1) [],
      .step (.write 0 .assignFile .empty 0 true []), .discover 0 1])

theorem records_survive_writesAmidStops : ∃ s s' rs rs',
    runSteps (Live.step (recording lruSet) id) writesAmidStops.1 (.init [] others) = some s
      ∧ runSteps (Live.step (recording lruSet) id) writesAmidStops.2 s = some s'
      ∧ (s.sys.nodes 0).records = some rs ∧ (s'.sys.nodes 0).records = some rs' ∧ rs <+: rs'
      ∧ (s'.sys.nodes 0).lastLogIndex = rs'.length := by
  have hin : Along (Live.step (recording lruSet) id) Live.InOrder
      (writesAmidStops.1 ++ writesAmidStops.2) (.init [] others) := by
    decide +kernel
  obtain ⟨s, hs⟩ := Option.isSome_iff_exists.mp (show (runSteps (Live.step (recording lruSet) id)
    writesAmidStops.1 (.init [] others)).isSome by decide +kernel)
  have hboth : (runSteps (Live.step (recording lruSet) id)
      (writesAmidStops.1 ++ writesAmidStops.2) (.init [] others)).isSome := by
    decide +kernel
  rw [runSteps_append, hs, Option.bind_some] at hboth
  obtain ⟨s', hs'⟩ := Option.isSome_iff_exists.mp hboth
  obtain ⟨rs, rs', hrs, hrs', hlonger, hlast, -⟩ :=
    records_survive lruSet_lawful id [] others _ _ hin hs hs' 0
  exact ⟨s, s', rs, rs', hs, hs', hrs, hrs', hlonger, hlast⟩

/-- A registry that has just come up votes by the end of its log alone. -/
theorem requestVote_booted {ι : Type} {id : ι} {wal : World Wal.Name Wal.WAL} {storage : σ}
    {es : List Entry} {sanePeers : List ι} (req : RequestVoteRequest ι) :
    (requestVote (.booted id wal storage es sanePeers) req).1.voteGranted = true
      ↔ req.term ≠ 0 ∧ lastTerm es ≤ req.term ∧ es.length ≤ req.lastLogIndex
        ∧ lastTerm es ≤ req.lastLogTerm := by
  rw [requestVote_granted, Passes]
  simp only [Node.booted, Node.new]
  omega

/-- Let a registry stop, in any state that it can get into, and come up again. It is in the term of
its last entry, whichever it was in before; it leads if no peer has answered, and only then; and it
grants its vote in any term but 0 from that one on to a candidate that is not behind its log,
whether it had voted in that term before or not. -/
theorem vote_after_restart (hlru : env.lru.Lawful) (reload : σ → σ) (storage : σ)
    (peers : Fin N → List (Fin N)) (ls : List (Event N))
    (hin : Along (Live.step env reload) Live.InOrder ls (.init storage peers))
    (hrun : runSteps (Live.step env reload) ls (.init storage peers) = some s) (i : Fin N)
    (hbound : (s.sys.nodes i).lastLogIndex + 1 < 2 ^ 64) (sanePeers : List (Fin N))
    (hsane : sanePeers.Nodup ∧ i ∉ sanePeers) :
    ∃ s', Live.step env reload (.restart i .idle sanePeers) s = some s'
      ∧ (s'.sys.nodes i).records = (s.sys.nodes i).records
      ∧ (s'.sys.nodes i).lastLogIndex = (s.sys.nodes i).lastLogIndex
      ∧ (s'.sys.nodes i).lastLogTerm
        = (if (s.sys.nodes i).lastLogIndex = 0 then 0 else (s.sys.nodes i).lastLogTerm)
      ∧ (s'.sys.nodes i).currentTerm = (s'.sys.nodes i).lastLogTerm
      ∧ ((s'.sys.nodes i).state = .leader ↔ sanePeers = [])
      ∧ ∀ req, (requestVote (s'.sys.nodes i) req).1.voteGranted = true
        ↔ req.term ≠ 0 ∧ (s'.sys.nodes i).lastLogTerm ≤ req.term
          ∧ (s'.sys.nodes i).lastLogIndex ≤ req.lastLogIndex
          ∧ (s'.sys.nodes i).lastLogTerm ≤ req.lastLogTerm := by
  obtain ⟨logs, h, -⟩ := (Live.holds_init storage peers).run hlru hin hrun
  have hnode := h.replicas.node i
  have hdir : Wal.Recovers (s.sys.nodes i).wal.dir (logOf (logs i)) := by
    refine hnode.rep.recovers ?_
    rw [hnode.lastLogIndex] at hbound
    simpa [logOf, Nat.add_comm] using hbound
  obtain ⟨w, hw, hlogs⟩ := newCluster_eq hlru i (reload (s.sys.nodes i).storage) sanePeers hdir
    hnode.index hnode.wf
  have hstep : Live.step env reload (.restart i .idle sanePeers) s = some
      ⟨{ (s.sys.setNode i (.booted i w (reload (s.sys.nodes i).storage) (logs i)
          sanePeers)).setElection i none with procs := s.sys.procs.map (Proc.stop i) },
        Function.update s.peers i sanePeers⟩ := by
    rw [Live.step, if_pos hsane, Sys.left]
    dsimp only
    rw [hw]
  refine ⟨_, hstep, ?_⟩
  simp only [Sys.setElection, Sys.setNode, Function.update_self]
  refine ⟨hlogs.records.trans hnode.records.symm, hnode.lastLogIndex.symm, ?_, rfl, ?_,
    requestVote_booted⟩
  · rw [hnode.lastLogIndex]
    rcases hlast : (logs i).getLast? with _ | e
    · rw [if_pos (by rw [List.getLast?_eq_none_iff.mp hlast]; rfl)]
      simp [Node.booted, lastTerm, hlast]
    · have hne : (logs i).length ≠ 0 := by
        rw [Ne, List.length_eq_zero_iff]
        rintro hnil
        rw [hnil] at hlast
        cases hlast
      rw [if_neg hne, hnode.lastLogTerm e hlast]
      exact lastTerm_of_getLast hlast
  · simp [Node.booted]

/-- Two votes in the term 1, with a restart between them. -/
theorem vote_after_restart_twice : ∃ s s',
    runSteps (Live.step (recording lruSet) id)
        [.step (.startElection 1), .step (.deliverVote 0)] (.init [] others) = some s
      ∧ (s.sys.nodes (0 : Fin 3)).lastVotedTerm = 1
      ∧ Live.step (recording lruSet) id (.restart 0 .idle [1]) s = some s'
      ∧ (requestVote (s'.sys.nodes 0) ⟨1, 2, 0, 1⟩).1.voteGranted = true := by
  have hin : Along (Live.step (recording lruSet) id) Live.InOrder
      [.step (.startElection 1), .step (.deliverVote 0)]
        (.init [] others : Live 3 (List Entry)) := by
    decide +kernel
  have hend : ((runSteps (Live.step (recording lruSet) id)
      [.step (.startElection 1), .step (.deliverVote 0)]
        (.init [] others : Live 3 (List Entry))).map fun s =>
          ((s.sys.nodes 0).lastVotedTerm, (s.sys.nodes 0).lastLogIndex)) = some (1, 0) := by
    decide +kernel
  obtain ⟨s, hs, hvoted⟩ := Option.map_eq_some_iff.mp hend
  obtain ⟨hvoted, hlast⟩ := Prod.mk.inj hvoted
  obtain ⟨s', hs', -, hindex, hterm, -, -, hgrants⟩ := vote_after_restart lruSet_lawful id [] others
    _ hin hs 0 (by rw [hlast]; norm_num) [1] (by decide)
  rw [hlast, if_pos rfl] at hterm
  refine ⟨s, s', hs, hvoted, hs', (hgrants _).mpr ?_⟩
  rw [hterm, hindex, hlast]
  decide

end Main

end Rhosus.Cluster

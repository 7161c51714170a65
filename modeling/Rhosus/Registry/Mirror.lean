import Rhosus.Cluster.Reboot
import Rhosus.Pb.Codecs
import Rhosus.Registry.Follower

/-!
# Storages across the cluster

One registry of a cluster serves requests: it changes its storage and writes what it did to its log.
The others get its entries from the cluster, and hand them to `handleEntriesFromLeader` before they
write them to their own logs. Whatever the registries do in between, a storage is what the entries
in its registry's log make of an empty one, and the log the first entries of the one that serves. So
a follower never has anything that the other had not, and has the same storage when its log is as
long (`storage_of_follower`).
-/

namespace Rhosus.Registry

open Cluster (Sys Label Consecutive)

variable {N : ℕ}

section Source

/-- The cluster of registries: `SetEntriesHandler(r.handleEntriesFromLeader)`. -/
def clusterEnv (env : Env) (lru : SetEvicted ℕ Wal.Ptr) : Cluster.Env Storage :=
  ⟨lru, handleEntriesFromLeader env.pb⟩

/-- The entries of a request are written in turn, at the times of a clock; nothing where one of them
is refused. -/
def writeAll {ι : Type} [DecidableEq ι] (env : Cluster.Env Storage) (clock : ℕ → Int64)
    (order : List ι) : List (Cluster.EntryType × Bytes) → Cluster.Node ι Storage →
      Option (Cluster.Node ι Storage)
  | [], n => some n
  | e :: es, n =>
    match Cluster.writeEntry env e.1 e.2 (clock n.lastLogIndex) true order n with
    | some (.ok _, n) => writeAll env clock order es n
    | _ => none

inductive MirrorLabel (N : ℕ)
  /-- A request is served, from its start to its end. -/
  | request (req : Request) (clock : ℕ → Int64) (order : List (Fin N))
  /-- Anything else, on any registry. -/
  | step (l : Label N)

/-- A step of the cluster in which requests are served by the registry `i`. -/
def mirrorStep (env : Env) (lru : SetEvicted ℕ Wal.Ptr) (i : Fin N) :
    MirrorLabel N → Sys N Storage → Option (Sys N Storage)
  | .request req clock order, s =>
    if order.Perm (Cluster.others i) then
      match req.step env .fine ⟨(s.nodes i).storage, []⟩ with
      | none => none
      | some r =>
        (writeAll (clusterEnv env lru) clock order r.log
          { s.nodes i with storage := r.storage }).map (s.setNode i)
    else none
  | .step (.write ..), _ => none
  | .step l, s => Cluster.step (clusterEnv env lru) l s

end Source

/-- Requests remove no directories; what they write fits an entry, and indexes do not wrap; and
entries from others go on where the log ends. -/
def MirrorLabel.InOrder (env : Env) (i : Fin N) (l : MirrorLabel N) (s : Sys N Storage) : Prop :=
  match l with
  | .request req _ _ => req.RemovesLeaf ⟨(s.nodes i).storage, []⟩
      ∧ ∀ r ∈ req.step env .fine ⟨(s.nodes i).storage, []⟩,
        (∀ e ∈ r.log, e.2.length + 128 < 2 ^ 63)
          ∧ (s.nodes i).lastLogIndex + r.log.length < 2 ^ 64
  | .step l => Cluster.InOrder l s

instance (env : Env) (i : Fin N) : ∀ (l : MirrorLabel N) (s : Sys N Storage),
    Decidable (l.InOrder env i s)
  | .request .., _ => inferInstanceAs (Decidable (_ ∧ ∀ r ∈ Request.step _ _ _ _, _ ∧ _))
  | .step l, s => inferInstanceAs (Decidable (Cluster.InOrder l s))

section Log

variable (env : Env) (fate : Fate)

/-- With some entries in the log before the others. -/
def Leader.after (log : List (Cluster.EntryType × Bytes)) (r : Leader) : Leader :=
  ⟨r.storage, log ++ r.log⟩

variable (log : List (Cluster.EntryType × Bytes)) (r : Leader)

theorem storeAndWrite_after (file : FileInfo) : storeAndWrite env fate file (r.after log)
    = Prod.map id (Leader.after log) (storeAndWrite env fate file r) := by
  rcases hs : r.storage.storeFile env.pb.toCodecs file fate.put with ⟨_ | _, storage⟩ <;>
    cases hw : fate.write <;>
      simp [storeAndWrite, hs, hw, Leader.after, Leader.writeEntry]

theorem handleMakeDir_after (path uid : Bytes) :
    (handleMakeDir env fate path uid (r.after log)).2
      = (handleMakeDir env fate path uid r).2.after log := by
  simp only [handleMakeDir, Leader.after]
  rcases r.storage.getFileByPath (trim path) with _ | _
  · rcases r.storage.parentID (trim path) with _ | parentID
    · rfl
    · have h := storeAndWrite_after env fate log r (newDir (trim path) uid parentID)
      rw [Leader.after] at h
      dsimp only
      rw [h]
      rcases storeAndWrite env fate (newDir (trim path) uid parentID) r with ⟨_ | _, r'⟩ <;> rfl
  · rfl

theorem registerFile_after (file : FileInfo) : (registerFile env fate file (r.after log)).2
    = (registerFile env fate file r).2.after log := by
  simp only [registerFile, Leader.after]
  rcases r.storage.getFileByPath file.path with _ | _
  · rcases r.storage.parentID file.path with _ | parentID
    · rfl
    · have h := storeAndWrite_after env fate log r { file with parentID }
      rw [Leader.after] at h
      exact congrArg Prod.snd h
  · rfl

theorem handleRemoveFileOrPath_after (path : Bytes) (fuel : ℕ) :
    (handleRemoveFileOrPath env fate path fuel (r.after log)).map Prod.snd
      = ((handleRemoveFileOrPath env fate path fuel r).map Prod.snd).map (Leader.after log) := by
  simp only [handleRemoveFileOrPath, Leader.after]
  rcases r.storage.getFileByPath (trim path) with _ | rootFile
  · rfl
  dsimp only
  rcases killChildren fate fuel rootFile r.storage with _ | ⟨_ | _, storage⟩
  · rfl
  · rfl
  dsimp only
  rcases (if rootFile.type = .file then removeFileBlocks fate rootFile storage
    else (.ok (), storage)) with ⟨_ | _, storage'⟩
  · rfl
  cases fate.write <;> cases fate.write' <;> simp [Leader.writeEntry, Leader.after]

theorem Request.step_after (req : Request) : req.step env fate (r.after log)
    = (req.step env fate r).map (Leader.after log) := by
  cases req with
  | makeDir path uid => exact congrArg some (handleMakeDir_after env fate log r path uid)
  | registerFile file => exact congrArg some (registerFile_after env fate log r file)
  | removeFileOrPath path fuel => exact handleRemoveFileOrPath_after env fate log r path fuel
  | transportAndRegisterBlocks fileID blocks answers order =>
    cases hw : fate.write <;>
      simp [Request.step, registerBlocks, Leader.after, Leader.writeEntry, hw]
  | createPolicy name paths uid =>
    simp only [Request.step, handleCreatePolicy, Leader.after]
    generalize r.storage.storePolicy _ _ _ = res
    rcases res with ⟨_ | _, storage⟩ <;> cases fate.write <;> simp [Leader.writeEntry, Leader.after]
  | deletePolicy name =>
    simp only [Request.step, handleDeletePolicy, Leader.after]
    rcases r.storage.getPolicy name with _ | policy
    · rfl
    dsimp only
    rcases r.storage.deletePolicy policy fate.put with ⟨_ | _, storage⟩ <;> cases fate.write <;>
      simp [Leader.writeEntry, Leader.after]
  | createToken policies tokenStr now =>
    simp only [Request.step, handleCreateToken, Leader.after]
    generalize r.storage.storeToken _ _ _ = res
    rcases res with ⟨_ | _, storage⟩ <;> cases fate.write <;> simp [Leader.writeEntry, Leader.after]
  | revokeToken accessor =>
    simp only [Request.step, handleRevokeToken, Leader.after]
    rcases r.storage.getToken accessor with _ | token
    · rfl
    dsimp only
    rcases r.storage.revokeToken token fate.put with ⟨_ | _, storage⟩ <;> cases fate.write <;>
      simp [Leader.writeEntry, Leader.after]

end Log

section Writes

variable {ι : Type} [DecidableEq ι] {env : Cluster.Env Storage} {n n' : Cluster.Node ι Storage}
variable {es : List Cluster.Entry}

theorem logs_writeEntry (hlru : env.lru.Lawful) (h : n.Logs es) (hi : n.lastLogIndex + 1 < 2 ^ 64)
    (ht : n.currentTerm < 2 ^ 32) {typ : Cluster.EntryType} {data : Bytes}
    (hdata : data.length + 128 < 2 ^ 63) {now : Int64} {timely : Bool} {order : List ι}
    (hw : Cluster.writeEntry env typ data now timely order n = some (.ok (), n')) :
    n'.Logs (es ++ [n.nextEntry typ data now]) ∧ n'.storage = n.storage
      ∧ n'.currentTerm = n.currentTerm ∧ ∀ v, ∀ e ∈ (n'.peers v).buffer,
        e ∈ (n.peers v).buffer ∨ e = n.nextEntry typ data now := by
  have hindex : (n.nextEntry typ data now).index = es.length + 1 := by
    rw [← h.lastLogIndex]
    exact Nat.mod_eq_of_lt hi
  obtain ⟨wal, hwrite, hlogs⟩ := h.write hlru hindex (Cluster.wf_nextEntry ht typ ⟨data, hdata⟩ now)
  unfold Cluster.writeEntry at hw
  split_ifs at hw
  · cases hw
  dsimp only at hw
  rw [Cluster.Node.onWal_ok (n := n.endWith _) hwrite] at hw
  have hn := Option.some.inj hw
  have hbuf : ∀ v, ∀ e ∈ (n'.peers v).buffer,
      e ∈ (n.peers v).buffer ∨ e = n.nextEntry typ data now := by
    intro v e he
    have hover := congrArg Prod.snd hn
    unfold Cluster.handOver at hover
    split_ifs at hover
    · rw [show n' = _ from hover.symm] at he
      exact (Cluster.mem_writeToPeers he).imp_right List.mem_singleton.mp
    · rw [show n' = _ from hover.symm] at he
      exact .inl he
  obtain ⟨peers, pipeline, hp⟩ := Cluster.handOver_eq (n.nextEntry typ data now) timely order
    { n.endWith (n.nextEntry typ data now) with wal }
  rw [hn] at hp
  dsimp only at hp
  subst hp
  exact ⟨⟨hlogs.rep, hlogs.plan, hlogs.index, hlogs.wf, hlogs.lastLogIndex, hlogs.lastLogTerm⟩,
    rfl, rfl, hbuf⟩

def content (e : Cluster.Entry) : ℤ × Bytes := (e.type, e.data)

theorem logs_writeAll (hlru : env.lru.Lawful) {clock : ℕ → Int64} {order : List ι} :
    ∀ (log : List (Cluster.EntryType × Bytes)) {n : Cluster.Node ι Storage}
      {es : List Cluster.Entry}, n.Logs es → n.lastLogIndex + log.length < 2 ^ 64 →
      n.currentTerm < 2 ^ 32 → (∀ e ∈ log, e.2.length + 128 < 2 ^ 63) →
      writeAll env clock order log n = some n' →
        ∃ new, n'.Logs (es ++ new) ∧ new.map content = log.map (fun e => (e.1.code, e.2))
          ∧ n'.storage = n.storage ∧ n'.currentTerm = n.currentTerm
          ∧ ∀ v, ∀ e ∈ (n'.peers v).buffer, e ∈ (n.peers v).buffer ∨ e ∈ new
  | [], n, es, h, _, _, _, hw => by
    obtain rfl := Option.some.inj hw
    exact ⟨[], by rwa [List.append_nil], rfl, rfl, rfl, fun v e he => .inl he⟩
  | e :: log, n, es, h, hi, ht, hdata, hw => by
    rw [writeAll] at hw
    split at hw
    · rename_i n₁ hn₁
      rw [List.length_cons] at hi
      obtain ⟨h₁, hst₁, hterm₁, hbuf₁⟩ := logs_writeEntry hlru h (by omega) ht
        (hdata e List.mem_cons_self) hn₁
      have hlast₁ : n₁.lastLogIndex = n.lastLogIndex + 1 := by
        rw [h₁.lastLogIndex, h.lastLogIndex, List.length_append, List.length_singleton]
      obtain ⟨new, h', hmap, hst, hterm, hbuf⟩ := logs_writeAll hlru log h₁ (by omega)
        (by rw [hterm₁]; exact ht) (fun e' he' => hdata e' (List.mem_cons_of_mem _ he')) hw
      refine ⟨n.nextEntry e.1 e.2 (clock n.lastLogIndex) :: new, by simpa using h', ?_,
        hst.trans hst₁, hterm.trans hterm₁, fun v e' he' => ?_⟩
      · rw [List.map_cons, List.map_cons, hmap]
        rfl
      · rcases hbuf v e' he' with he' | he'
        · exact (hbuf₁ v e' he').imp_right fun heq => List.mem_cons.mpr (.inl heq)
        · exact .inr (List.mem_cons_of_mem _ he')
    · cases hw

end Writes

section Mirrors

variable {env : Env} {lru : SetEvicted ℕ Wal.Ptr} {i : Fin N} {s s' : Sys N Storage}
variable {logs : Fin N → List Cluster.Entry}

theorem handleEntries_eq_replay {pb : Messages} {es : List Cluster.Entry}
    {log : List (Cluster.EntryType × Bytes)}
    (h : es.map content = log.map fun e => (e.1.code, e.2)) :
    handleEntriesFromLeader pb es .empty = replay pb log := by
  exact replay_batches log [es] (by rw [List.flatten_singleton]; exact h)

/-- The registries have these logs, each the beginning of the log of `i`, and each storage is what
its log makes of an empty one. -/
structure Mirrors (env : Env) (i : Fin N) (s : Sys N Storage) (logs : Fin N → List Cluster.Entry) :
    Prop where
  replicas : Cluster.Replicas s logs
  bounded : Cluster.Bounded s
  upTo : ∀ v, logs v <+: logs i
  storage : ∀ v, (s.nodes v).storage = handleEntriesFromLeader env.pb (logs v) .empty
  typed : ∃ log : List (Cluster.EntryType × Bytes),
    (logs i).map content = log.map fun e => (e.1.code, e.2)
  tidy : Tidy (s.nodes i).storage

theorem mirrors_init (env : Env) (i : Fin N) : Mirrors env i (.init Storage.empty) fun _ => [] where
  replicas := Cluster.replicas_init Storage.empty
  bounded := ⟨by simp [Sys.init, Cluster.Node.new], by simp [Sys.init], by simp [Sys.init],
    by simp [Sys.init]⟩
  upTo := fun _ => List.prefix_rfl
  storage := fun _ => rfl
  typed := ⟨[], rfl⟩
  tidy := tidy_empty

theorem Mirrors.step (hlru : lru.Lawful) (h : Mirrors env i s logs) {l : Label N}
    (hwrite : ∀ j typ data now timely order, l ≠ .write j typ data now timely order)
    (hin : Cluster.InOrder l s) (hs : Cluster.step (clusterEnv env lru) l s = some s') :
    ∃ logs', Mirrors env i s' logs' := by
  have hlawful : (clusterEnv env lru).lru.Lawful := hlru
  obtain ⟨logs', hrep, hgrows⟩ := h.replicas.step hlawful h.bounded hin hs
  have hb := h.bounded.step hs
  cases hgrows with
  | same hst =>
    exact ⟨logs, hrep, hb, h.upTo, fun v => (hst v).trans (h.storage v), h.typed, by
      rw [hst]
      exact h.tidy⟩
  | write => exact absurd rfl (hwrite _ _ _ _ _ _)
  | deliver c hc hacc hst =>
    have hcons : Consecutive (logs c.dst).length c.req.entries := by
      rw [← (h.replicas.node c.dst).lastLogIndex]
      exact hin c hc hacc
    have hmem : ∀ e ∈ c.req.entries, e ∈ logs i := fun e he =>
      (h.upTo c.src).subset (h.replicas.call c (List.mem_of_getElem? hc) e he)
    have hupTo : logs c.dst ++ c.req.entries <+: logs i :=
      Cluster.prefix_append_of_consecutive (h.replicas.node i).index _ (h.upTo c.dst) hcons hmem
    -- a request to `i` has nothing that goes on where its log ends
    have hi : Function.update logs c.dst (logs c.dst ++ c.req.entries) i = logs i := by
      by_cases hdst : i = c.dst
      · subst hdst
        rw [Function.update_self]
        exact hupTo.eq_of_length_le (by simp)
      · rw [Function.update_of_ne hdst]
    have hstorage : ∀ v, (s'.nodes v).storage = handleEntriesFromLeader env.pb
        (Function.update logs c.dst (logs c.dst ++ c.req.entries) v) .empty := by
      intro v
      rw [hst]
      by_cases hv : v = c.dst
      · rw [hv, if_pos rfl, Function.update_self, h.storage]
        exact (List.foldl_append ..).symm
      · rw [if_neg hv, Function.update_of_ne hv, h.storage]
    refine ⟨_, hrep, hb, fun v => ?_, hstorage, by rw [hi]; exact h.typed, ?_⟩
    · rw [hi]
      by_cases hv : v = c.dst
      · rwa [hv, Function.update_self]
      · rw [Function.update_of_ne hv]
        exact h.upTo v
    · rw [hstorage i, hi, ← h.storage i]
      exact h.tidy

theorem Mirrors.request (hlru : lru.Lawful) (h : Mirrors env i s logs) {req : Request}
    {clock : ℕ → Int64} {order : List (Fin N)}
    (hin : (MirrorLabel.request req clock order).InOrder env i s)
    (hs : mirrorStep env lru i (.request req clock order) s = some s') :
    ∃ logs', Mirrors env i s' logs' := by
  obtain ⟨hleaf, hfits⟩ := hin
  rw [mirrorStep] at hs
  split_ifs at hs
  rcases hr : req.step env .fine ⟨(s.nodes i).storage, []⟩ with _ | r <;> rw [hr] at hs
  · cases hs
  obtain ⟨hdata, hindex⟩ := hfits r hr
  obtain ⟨n, hn, rfl⟩ := Option.map_eq_some_iff.mp hs
  have hnode := h.replicas.node i
  have hlawful : (clusterEnv env lru).lru.Lawful := hlru
  obtain ⟨new, hlogs, hnew, hst, hterm, hbuf⟩ := logs_writeAll hlawful r.log
    (n := { s.nodes i with storage := r.storage })
    ⟨hnode.rep, hnode.plan, hnode.index, hnode.wf, hnode.lastLogIndex, hnode.lastLogTerm⟩ hindex
    (h.bounded.node i) hdata hn
  obtain ⟨log, hlog⟩ := h.typed
  -- the request leaves what the whole log says
  have hfollowed : Followed env.pb ⟨(s.nodes i).storage, log⟩ :=
    ⟨((h.storage i).trans (handleEntries_eq_replay hlog)).symm, h.tidy⟩
  have hstep : req.step env .fine ⟨(s.nodes i).storage, log⟩ = some (r.after log) := by
    have hafter := req.step_after env .fine log ⟨(s.nodes i).storage, []⟩
    rw [hr] at hafter
    simpa [Leader.after] using hafter
  have hdone := hfollowed.step hleaf hstep
  have htyped : (logs i ++ new).map content
      = (log ++ r.log).map fun e => (e.1.code, e.2) := by
    rw [List.map_append, List.map_append, hlog, hnew]
  have hstorage : n.storage = handleEntriesFromLeader env.pb (logs i ++ new) .empty := by
    rw [hst, handleEntries_eq_replay htyped]
    exact hdone.replay.symm
  refine ⟨_, h.replicas.grow new hlogs hbuf, ?_, fun v => ?_, fun v => ?_, ⟨log ++ r.log, ?_⟩, ?_⟩
  · exact ⟨Cluster.Sys.forall_setNode (P := fun _ n => n.currentTerm < 2 ^ 32)
      (by rw [hterm]; exact h.bounded.node i) h.bounded.node, h.bounded.vote, h.bounded.append,
      h.bounded.proc⟩
  · rw [Function.update_self]
    by_cases hv : v = i
    · rw [hv, Function.update_self]
    · rw [Function.update_of_ne hv]
      exact (h.upTo v).trans (List.prefix_append _ _)
  · change (Function.update s.nodes i n v).storage = _
    by_cases hv : v = i
    · rw [hv, Function.update_self, Function.update_self, hstorage]
    · rw [Function.update_of_ne hv, Function.update_of_ne hv, h.storage]
  · rw [Function.update_self, htyped]
  · change Tidy (Function.update s.nodes i n i).storage
    rw [Function.update_self, hst]
    exact hdone.tidy

theorem Mirrors.mirrorStep (hlru : lru.Lawful) (h : Mirrors env i s logs) {l : MirrorLabel N}
    (hin : l.InOrder env i s) (hs : mirrorStep env lru i l s = some s') :
    ∃ logs', Mirrors env i s' logs' := by
  cases l with
  | request req clock order => exact h.request hlru hin hs
  | step l =>
    have hin : Cluster.InOrder l s := hin
    unfold Registry.mirrorStep at hs
    cases l with
    | write => cases hs
    | _ => exact h.step hlru (fun _ _ _ _ _ _ => by simp) hin hs

/-- One registry serves requests, which change its storage and are written to its log; the others
get its entries in any way in which they go on where a log ends. Then at any time the log of a
registry is the first entries of the log of that one, its storage is what these do to an empty
storage, and the two storages are the same when the logs are as long as each other. -/
theorem storage_of_follower (env : Env) (hlru : lru.Lawful) (i : Fin N) (ls : List (MirrorLabel N))
    (hin : Along (Registry.mirrorStep env lru i) (MirrorLabel.InOrder env i) ls (.init .empty))
    (hrun : runSteps (Registry.mirrorStep env lru i) ls (.init .empty) = some s) (v : Fin N) :
    ∃ es, (s.nodes i).records = some (es.map Cluster.Entry.marshal)
      ∧ (s.nodes v).records
        = some ((es.take (s.nodes v).lastLogIndex).map Cluster.Entry.marshal)
      ∧ (s.nodes i).storage = handleEntriesFromLeader env.pb es .empty
      ∧ (s.nodes v).storage
        = handleEntriesFromLeader env.pb (es.take (s.nodes v).lastLogIndex) .empty
      ∧ ((s.nodes v).lastLogIndex = (s.nodes i).lastLogIndex →
        (s.nodes v).storage = (s.nodes i).storage) := by
  obtain ⟨logs, h⟩ : ∃ logs, Mirrors env i s logs := by
    refine Along.invariant (I := fun s => ∃ logs, Mirrors env i s logs) ?_ ls
      ⟨_, mirrors_init env i⟩ hin hrun
    rintro l s₁ s₂ ⟨logs, h⟩ hl hs
    exact h.mirrorStep hlru hl hs
  have htake : logs v = (logs i).take (s.nodes v).lastLogIndex := by
    rw [(h.replicas.node v).lastLogIndex]
    exact List.prefix_iff_eq_take.mp (h.upTo v)
  refine ⟨logs i, (h.replicas.node i).records, ?_, h.storage i, ?_, fun hlast => ?_⟩
  · rw [← htake]
    exact (h.replicas.node v).records
  · rw [← htake]
    exact h.storage v
  · rw [h.storage, h.storage, htake, hlast, (h.replicas.node i).lastLogIndex, List.take_length]

/-- The messages as the generated code writes them. -/
noncomputable def wireEnv : Env := ⟨Pb.wire, someEnv.sorter, []⟩

/-- The first of two registries is elected, makes a directory, and tells the other. -/
def mirrored : List (MirrorLabel 2) :=
  [.step (.startElection 0), .step (.deliverVote 0), .step (.voteAnswer 0 0), .step (.tally 0),
    .request (.makeDir [47, 97] [1]) (fun _ => 0) [1], .step (.tick 0 1), .step (.advance 0),
    .step (.advance 0), .step (.advance 0), .step (.advance 0), .step (.deliverAppend 0)]

theorem storage_of_follower_mirrored : ∃ s,
    runSteps (mirrorStep wireEnv lruSet 0) mirrored (.init .empty) = some s
      ∧ (s.nodes 1).lastLogIndex = 1 ∧ (s.nodes 1).storage = (s.nodes 0).storage := by
  have hin : Along (mirrorStep wireEnv lruSet 0) (MirrorLabel.InOrder wireEnv 0) mirrored
      (.init .empty) := by
    decide +kernel
  have hend : (runSteps (mirrorStep wireEnv lruSet 0) mirrored (.init .empty)).map
      (fun s => ((s.nodes 1).lastLogIndex, (s.nodes 0).lastLogIndex)) = some (1, 1) := by
    decide +kernel
  obtain ⟨s, hs, hlast⟩ := Option.map_eq_some_iff.mp hend
  obtain ⟨hfollower, hleader⟩ := Prod.mk.inj hlast
  obtain ⟨es, -, -, -, -, hsame⟩ := storage_of_follower wireEnv lruSet_lawful 0 mirrored hin hs 1
  exact ⟨s, hs, hfollower, hsame (hfollower.trans hleader.symm)⟩

end Mirrors

end Rhosus.Registry

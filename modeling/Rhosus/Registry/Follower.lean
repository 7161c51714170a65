import Rhosus.Lib.Runs
import Rhosus.Registry.Handlers

/-!
# A follower that replays the log

An entry of the log does to the storage of a follower what the leader did to its own before it
wrote the entry. For the removal of a file the leader deletes the file and its blocks at once, and
the follower first the one and then the others: in the end the same rows are gone, from the tables
and from the backend (`deleteFileWithBlocks_eq`). So a follower that has seen the whole log, in
whatever batches, has the leader's storage (`follower_eq_leader`).
-/

namespace Rhosus.Registry

section Replay

variable {pb : Messages}

/-- An entry with this type and data. -/
def logged (e : Cluster.EntryType × Bytes) : Cluster.Entry := ⟨0, 0, e.1.code, e.2, 0⟩

theorem handleEntry_congr {e e' : Cluster.Entry} (htype : e.type = e'.type)
    (hdata : e.data = e'.data) (s : Storage) : handleEntry pb e s = handleEntry pb e' s := by
  rw [handleEntry, handleEntry, htype, hdata]

def replay (pb : Messages) (log : List (Cluster.EntryType × Bytes)) : Storage :=
  handleEntriesFromLeader pb (log.map logged) .empty

theorem replay_append (log : List (Cluster.EntryType × Bytes)) (typ : Cluster.EntryType)
    (data : Bytes) :
    replay pb (log ++ [(typ, data)]) = handleEntry pb (logged (typ, data)) (replay pb log) := by
  simp [replay, handleEntriesFromLeader]

theorem replay_batches (log : List (Cluster.EntryType × Bytes))
    (batches : List (List Cluster.Entry))
    (h : batches.flatten.map (fun e => (e.type, e.data)) = log.map fun e => (e.1.code, e.2)) :
    batches.foldl (fun s entries => handleEntriesFromLeader pb entries s) .empty
      = replay pb log := by
  have hcongr : ∀ (es : List Cluster.Entry) (log : List (Cluster.EntryType × Bytes)) (s : Storage),
      es.map (fun e => (e.type, e.data)) = log.map (fun e => (e.1.code, e.2)) →
        handleEntriesFromLeader pb es s = handleEntriesFromLeader pb (log.map logged) s := by
    intro es
    induction es with
    | nil =>
      intro log s h
      rw [List.map_eq_nil_iff.mp h.symm]
      rfl
    | cons e es ih =>
      intro log s h
      obtain ⟨e', log', rfl, he, hlog⟩ := List.map_eq_cons_iff.mp h.symm
      obtain ⟨htype, hdata⟩ := Prod.mk.inj he.symm
      rw [handleEntriesFromLeader, List.foldl_cons, List.map_cons, handleEntriesFromLeader,
        List.foldl_cons, show handleEntry pb e s = handleEntry pb (logged e') s from
          handleEntry_congr htype hdata s]
      exact ih log' _ hlog.symm
  unfold handleEntriesFromLeader at hcongr
  unfold handleEntriesFromLeader replay
  rw [← List.foldl_flatten, hcongr _ log _ h]
  rfl

end Replay

/-- The deletion of a file with its blocks is the deletion of the file and then of the blocks, in
any order. -/
theorem deleteFileWithBlocks_eq {s s' : Storage} {file : FileInfo} {blocks : List BlockInfo}
    (hsound : s.blocks.Sound blocksTable) (hcomplete : ∀ i, s.blocks.Complete blocksTable i)
    (hperm : blocks.Perm (s.blocks.get .fileId file.id))
    (hs : s.deleteFileWithBlocks file true true = (.ok (), s')) :
    ((s.deleteFile file true).2.deleteBlocks blocks true).2 = s' := by
  have hblocks : s.blocks.deleteAll blocksTable (s.blocks.get .fileId file.id)
      = s.blocks.deleteAll blocksTable blocks :=
    Table.deleteAll_perm hsound hcomplete
      (fun _ hb => ((Table.mem_get hsound (hcomplete .fileId)).mp hb).1)
      (Table.nodup_get hsound .fileId file.id) hperm.symm
  have hkeys := fun m : OrdMap Bytes Bytes =>
    (hperm.map BlockInfo.id).foldl_eq (f := fun m k => m.erase k) m
  rw [Storage.deleteFileWithBlocks, hblocks] at hs
  rcases hb : s.blocks.deleteAll blocksTable blocks with _ | table <;> rw [hb] at hs
  · cases hs
  rcases hf : s.files.delete filesTable file with _ | files <;> rw [hf] at hs
  · cases hs
  obtain rfl := (Prod.mk.inj hs).2
  simp only [Storage.deleteFile, hf, Storage.deleteBlocks, Storage.remove, if_true, hb, hkeys]

/-- An operation that fails changes nothing. -/
def Refusing (s : Storage) (res : Except Err Unit × Storage) : Prop :=
  ∀ e s', res = (.error e, s') → s' = s

section Refusing

variable {pb : Codecs} {s : Storage}

theorem refusing_error (e : Err) : Refusing s (.error e, s) :=
  fun _ _ h => (Prod.mk.inj h).2.symm

theorem refusing_ok (s' : Storage) : Refusing s (.ok (), s') := by
  intro e s'' h
  cases h

theorem storeFile_refusing (file : FileInfo) : Refusing s (s.storeFile pb file true) := by
  unfold Storage.storeFile
  split
  · exact refusing_error _
  · exact refusing_ok _

theorem storeToken_refusing (token : Token) : Refusing s (s.storeToken pb token true) := by
  unfold Storage.storeToken
  split
  · exact refusing_error _
  · exact refusing_ok _

theorem revokeToken_refusing (token : Token) : Refusing s (s.revokeToken token true) := by
  unfold Storage.revokeToken
  split
  · exact refusing_error _
  · exact refusing_ok _

theorem storePolicy_refusing (p : Policy) : Refusing s (s.storePolicy pb p true) := by
  unfold Storage.storePolicy
  split
  · exact refusing_error _
  · exact refusing_ok _

theorem deletePolicy_refusing (p : Policy) : Refusing s (s.deletePolicy p true) := by
  unfold Storage.deletePolicy
  split
  · exact refusing_error _
  · exact refusing_ok _

theorem deleteFileWithBlocks_refusing (file : FileInfo) :
    Refusing s (s.deleteFileWithBlocks file true true) := by
  unfold Storage.deleteFileWithBlocks
  dsimp only
  split
  · exact refusing_ok _
  · exact refusing_error _

end Refusing

/-- Every block is in the index of its file, and the accessor of a token is its id. -/
structure Tidy (s : Storage) : Prop where
  blocks : s.blocks.Sound blocksTable
  complete : ∀ i, s.blocks.Complete blocksTable i
  tokens : s.tokens.Sound tokensTable
  accessor : ∀ t, s.tokens.Has tokensTable t → t.accessor = t.id
  policies : s.policies.Sound policiesTable

section Tidy

variable (pb : Codecs) {s : Storage}

theorem tidy_empty : Tidy .empty where
  blocks := Table.sound_empty
  complete _ := Table.complete_empty
  tokens := Table.sound_empty
  accessor _ h := absurd h Table.not_has_empty
  policies := Table.sound_empty

theorem Tidy.storeFile (h : Tidy s) (file : FileInfo) : Tidy (s.storeFile pb file true).2 := by
  unfold Storage.storeFile
  split
  · exact h
  · exact { h with }

theorem Tidy.putBlocks (h : Tidy s) (blocks : List BlockInfo) :
    Tidy (s.putBlocks pb blocks true).2 := by
  unfold Storage.putBlocks
  split
  · exact h
  · rename_i table hi
    obtain ⟨hs, hc⟩ := h.blocks.insertAll blocks hi
    exact { h with blocks := hs, complete := fun | .fileId => hc .fileId rfl (h.complete .fileId) }

theorem Tidy.deleteFileWithBlocks (h : Tidy s) (file : FileInfo) :
    Tidy (s.deleteFileWithBlocks file true true).2 := by
  unfold Storage.deleteFileWithBlocks
  dsimp only
  split
  · rename_i table files hd _
    obtain ⟨hs, hc⟩ := h.blocks.deleteAll _ hd
    exact { h with blocks := hs, complete := fun i => hc i (h.complete i) }
  · exact h

theorem Tidy.storeToken (h : Tidy s) {token : Token} (hacc : token.accessor = token.id) :
    Tidy (s.storeToken pb token true).2 := by
  unfold Storage.storeToken
  split
  · exact h
  · rename_i tokens hi
    refine { h with tokens := h.tokens.insert hi, accessor := fun t ht => ?_ }
    rcases (Table.has_insert hi).mp ht with rfl | ht
    · exact hacc
    · exact h.accessor t ht.1

theorem Tidy.revokeToken (h : Tidy s) (token : Token) : Tidy (s.revokeToken token true).2 := by
  unfold Storage.revokeToken
  split
  · exact h
  · rename_i tokens hd
    exact { h with
      tokens := h.tokens.delete hd
      accessor := fun t ht => h.accessor t ((Table.has_delete hd).mp ht).1 }

theorem Tidy.storePolicy (h : Tidy s) (p : Policy) : Tidy (s.storePolicy pb p true).2 := by
  unfold Storage.storePolicy
  split
  · exact h
  · rename_i policies hi
    exact { h with policies := h.policies.insert hi }

theorem Tidy.deletePolicy (h : Tidy s) (p : Policy) : Tidy (s.deletePolicy p true).2 := by
  unfold Storage.deletePolicy
  split
  · exact h
  · rename_i policies hd
    exact { h with policies := h.policies.delete hd }

end Tidy

/-- A follower that replays the log has the leader's storage. -/
structure Followed (pb : Messages) (r : Leader) : Prop where
  replay : replay pb r.log = r.storage
  tidy : Tidy r.storage

section Entries

variable (pb : Messages) (id : Bytes) (s : Storage)

theorem handleEntry_assignFile (file : FileInfo) :
    handleEntry pb (logged (.assignFile, pb.assignFile.marshal (id, file))) s
      = (s.storeFile pb.toCodecs file true).2 := by
  simp only [handleEntry, logged, Cluster.EntryType.code, Codec.unmarshal_marshal]

theorem handleEntry_deleteFile (file : FileInfo) :
    handleEntry pb (logged (.deleteFile, pb.deleteFile.marshal (id, file))) s
      = (s.deleteFile file true).2 := by
  simp only [handleEntry, logged, Cluster.EntryType.code, Codec.unmarshal_marshal]

theorem handleEntry_assignBlocks (blocks : List BlockInfo) :
    handleEntry pb (logged (.assignBlocks, pb.assignBlocks.marshal (id, blocks))) s
      = (s.putBlocks pb.toCodecs blocks true).2 := by
  simp only [handleEntry, logged, Cluster.EntryType.code, Codec.unmarshal_marshal]

theorem handleEntry_deleteBlocks (blocks : List BlockInfo) :
    handleEntry pb (logged (.deleteBlocks, pb.deleteBlocks.marshal (id, blocks))) s
      = (s.deleteBlocks blocks true).2 := by
  simp only [handleEntry, logged, Cluster.EntryType.code, Codec.unmarshal_marshal]

theorem handleEntry_createPolicy (policy : Policy) :
    handleEntry pb (logged (.createPolicy, pb.createPolicy.marshal (id, policy))) s
      = (s.storePolicy pb.toCodecs policy true).2 := by
  simp only [handleEntry, logged, Cluster.EntryType.code, Codec.unmarshal_marshal]

theorem handleEntry_createToken (token : Token) :
    handleEntry pb (logged (.createToken, pb.createToken.marshal (id, token))) s
      = (s.storeToken pb.toCodecs token true).2 := by
  simp only [handleEntry, logged, Cluster.EntryType.code, Codec.unmarshal_marshal]

theorem handleEntry_deletePolicy {policy : Policy} (h : s.getPolicy policy.name = some policy) :
    handleEntry pb (logged (.deletePolicy, pb.deletePolicy.marshal (id, policy.name))) s
      = (s.deletePolicy policy true).2 := by
  simp only [handleEntry, logged, Cluster.EntryType.code, Codec.unmarshal_marshal, h]

theorem handleEntry_revokeToken {token : Token} (h : s.getToken token.accessor = some token) :
    handleEntry pb (logged (.revokeToken, pb.revokeToken.marshal (id, token.accessor))) s
      = (s.revokeToken token true).2 := by
  simp only [handleEntry, logged, Cluster.EntryType.code, Codec.unmarshal_marshal, h]

end Entries

section Followed

variable {env : Env} {r : Leader}

theorem followed_empty (pb : Messages) : Followed pb .empty := ⟨rfl, tidy_empty⟩

/-- The leader changes its storage and writes an entry that tells a follower to do the same. -/
theorem Followed.write {pb : Messages} (h : Followed pb r) {storage : Storage}
    {typ : Cluster.EntryType} {data : Bytes} (htidy : Tidy storage)
    (hentry : handleEntry pb (logged (typ, data)) r.storage = storage) :
    Followed pb ({ r with storage }.writeEntry typ data true).2 := by
  refine ⟨?_, htidy⟩
  change Registry.replay pb (r.log ++ [(typ, data)]) = storage
  rw [replay_append, h.replay, hentry]

/-- The leader writes the entry only if the operation on its storage has been done. -/
theorem Followed.commit {pb : Messages} (h : Followed pb r) {res : Except Err Unit × Storage}
    {typ : Cluster.EntryType} {data : Bytes} {α : Type} (done : Except HandlerErr α)
    (hrefuse : Refusing r.storage res) (htidy : Tidy res.2)
    (hentry : handleEntry pb (logged (typ, data)) r.storage = res.2) :
    Followed pb (match res with
      | (.error e, storage) => (Except.error (HandlerErr.storage e), { r with storage })
      | (.ok _, storage) => (done, ({ r with storage }.writeEntry typ data true).2)).2 := by
  obtain ⟨_ | _, storage⟩ := res
  · obtain rfl := hrefuse _ _ rfl
    exact h
  · exact h.write htidy hentry

theorem Followed.storeAndWrite (h : Followed env.pb r) (file : FileInfo) :
    Followed env.pb (storeAndWrite env .fine file r).2 :=
  h.commit (.ok ()) (storeFile_refusing file) (h.tidy.storeFile env.pb.toCodecs file)
    (handleEntry_assignFile env.pb env.id r.storage file)

theorem Followed.handleMakeDir (h : Followed env.pb r) (path uid : Bytes) :
    Followed env.pb (handleMakeDir env .fine path uid r).2 := by
  unfold Registry.handleMakeDir
  dsimp only
  split
  · exact h
  split
  · exact h
  rename_i parentID _
  have hstore := h.storeAndWrite (newDir (trim path) uid parentID)
  split <;> rename_i hs <;> rw [hs] at hstore <;> exact hstore

theorem Followed.registerFile (h : Followed env.pb r) (file : FileInfo) :
    Followed env.pb (registerFile env .fine file r).2 := by
  unfold Registry.registerFile
  split
  · exact h
  split
  · exact h
  exact h.storeAndWrite _

theorem Followed.registerBlocks (h : Followed env.pb r) (bInfos : List BlockInfo) :
    Followed env.pb (registerBlocks env .fine bInfos r).2 :=
  h.write (h.tidy.putBlocks _ bInfos) (handleEntry_assignBlocks env.pb env.id r.storage bInfos)

theorem Followed.handleCreatePolicy (h : Followed env.pb r) (name : Bytes)
    (paths : List (Bytes × List Bytes)) (uid : Bytes) :
    Followed env.pb (handleCreatePolicy env .fine name paths uid r).2 :=
  h.commit (.ok ()) (storePolicy_refusing _) (h.tidy.storePolicy env.pb.toCodecs _)
    (handleEntry_createPolicy env.pb env.id r.storage _)

theorem Followed.handleDeletePolicy (h : Followed env.pb r) (name : Bytes) :
    Followed env.pb (handleDeletePolicy env .fine name r).2 := by
  unfold Registry.handleDeletePolicy
  split
  · exact h
  rename_i policy hp
  have hname : policy.name = name := (List.cons.inj (h.tidy.policies.index hp).2).1
  exact h.commit (.ok (some ())) (deletePolicy_refusing policy) (h.tidy.deletePolicy policy)
    (handleEntry_deletePolicy env.pb env.id r.storage (hname ▸ hp))

theorem Followed.handleCreateToken (h : Followed env.pb r) (policies : List Bytes)
    (tokenStr : Bytes) (now : ℤ) :
    Followed env.pb (handleCreateToken env .fine policies tokenStr now r).2 :=
  h.commit (.ok tokenStr) (storeToken_refusing _) (h.tidy.storeToken env.pb.toCodecs rfl)
    (handleEntry_createToken env.pb env.id r.storage _)

/-- The leader finds a token by its id, and the follower by its accessor. -/
theorem Followed.handleRevokeToken (h : Followed env.pb r) (accessor : Bytes) :
    Followed env.pb (handleRevokeToken env .fine accessor r).2 := by
  unfold Registry.handleRevokeToken
  split
  · exact h
  rename_i token ht
  obtain ⟨hhas, hid⟩ := h.tidy.tokens.byId_iff.mp ht
  have hacc : token.accessor = accessor := (h.tidy.accessor token hhas).trans hid
  exact h.commit (.ok ()) (revokeToken_refusing token) (h.tidy.revokeToken token)
    (handleEntry_revokeToken env.pb env.id r.storage (hacc ▸ ht))

/-- The two entries of a removal do what the leader did at once. -/
theorem Followed.handleRemoveFileOrPath (h : Followed env.pb r) {path : Bytes} {fuel : ℕ}
    {res : Except HandlerErr CommonResponse × Leader}
    (hfile : ∀ file ∈ r.storage.getFileByPath (trim path),
      file.type = .file ∧ r.storage.getFilesByParentId file.id = [])
    (hres : handleRemoveFileOrPath env .fine path fuel r = some res) : Followed env.pb res.2 := by
  unfold Registry.handleRemoveFileOrPath at hres
  split at hres
  · obtain rfl := Option.some.inj hres
    exact h
  rename_i file hpath
  obtain ⟨htype, hchildren⟩ := hfile file hpath
  cases fuel with
  | zero => cases hres
  | succ fuel =>
    simp only [killChildren, hchildren, if_true, htype, removeFileBlocks, Fate.fine] at hres
    have htidy := h.tidy.deleteFileWithBlocks file
    rcases hs : r.storage.deleteFileWithBlocks file true true with ⟨_ | _, storage⟩ <;>
      rw [hs] at hres
    · obtain rfl := deleteFileWithBlocks_refusing file _ _ hs
      obtain rfl := Option.some.inj hres
      exact h
    · rw [hs] at htidy
      obtain rfl := Option.some.inj hres
      refine ⟨?_, htidy⟩
      change
        Registry.replay env.pb ((r.log ++ [(.deleteFile, _)]) ++ [(.deleteBlocks, _)]) = storage
      rw [replay_append, replay_append, h.replay, handleEntry_deleteFile, handleEntry_deleteBlocks]
      exact deleteFileWithBlocks_eq h.tidy.blocks h.tidy.complete (env.sorter.perm _ _) hs

end Followed

/-- A file that is removed is a regular file, and no file has it for its parent. -/
def Request.RemovesLeaf (req : Request) (r : Leader) : Prop :=
  match req with
  | .removeFileOrPath path _ => ∀ file ∈ r.storage.getFileByPath (trim path),
    file.type = .file ∧ r.storage.getFilesByParentId file.id = []
  | _ => True

instance (req : Request) (r : Leader) : Decidable (req.RemovesLeaf r) := by
  unfold Request.RemovesLeaf
  split <;> infer_instance

theorem Followed.step {env : Env} {r r' : Leader} (h : Followed env.pb r) {req : Request}
    (hreq : req.RemovesLeaf r) (hstep : req.step env .fine r = some r') : Followed env.pb r' := by
  cases req with
  | removeFileOrPath path fuel =>
    obtain ⟨res, hres, rfl⟩ := Option.map_eq_some_iff.mp hstep
    exact h.handleRemoveFileOrPath hreq hres
  | makeDir path uid => exact Option.some.inj hstep ▸ h.handleMakeDir path uid
  | transportAndRegisterBlocks fileID blocks answers order =>
    exact Option.some.inj hstep ▸ h.registerBlocks _
  | registerFile file => exact Option.some.inj hstep ▸ h.registerFile file
  | createPolicy name paths uid => exact Option.some.inj hstep ▸ h.handleCreatePolicy name paths uid
  | deletePolicy name => exact Option.some.inj hstep ▸ h.handleDeletePolicy name
  | createToken policies tokenStr now =>
    exact Option.some.inj hstep ▸ h.handleCreateToken policies tokenStr now
  | revokeToken accessor => exact Option.some.inj hstep ▸ h.handleRevokeToken accessor

/-- Whatever requests the leader has served, a follower that gets its log, in any batches, has its
storage. -/
theorem follower_eq_leader (env : Env) (reqs : List Request) {r : Leader}
    (hreqs : Along (Request.step env .fine) Request.RemovesLeaf reqs .empty)
    (hrun : runSteps (Request.step env .fine) reqs .empty = some r)
    (batches : List (List Cluster.Entry))
    (hlog : batches.flatten.map (fun e => (e.type, e.data)) = r.log.map fun e => (e.1.code, e.2)) :
    batches.foldl (fun s entries => handleEntriesFromLeader env.pb entries s) .empty
      = r.storage :=
  (replay_batches r.log batches hlog).trans
    (Along.invariant (fun _ _ _ h hreq hstep => Followed.step h hreq hstep) reqs
      (followed_empty env.pb) hreqs hrun).replay

section Witness

/-- A directory with a file of two blocks, which is removed; a policy and a token, which are too;
and a directory that there is already. -/
def someRequests : List Request :=
  [.makeDir [47, 97] [1],
    .transportAndRegisterBlocks [2] [⟨[3], 1, 1, [5]⟩, ⟨[4], 2, 1, [6]⟩]
      [([7], [⟨[3], [8], true⟩, ⟨[4], [8], true⟩])] [[4], [3]],
    .registerFile ⟨[2], [], .file, [98], [97, 47, 98], 2, 0, [], [], [], 1⟩,
    .createPolicy [99] [([97], [[100]])] [9], .createToken [[99]] [10] 0, .deletePolicy [99],
    .revokeToken [10], .removeFileOrPath [97, 47, 98] 1, .makeDir [97, 47] [11]]

/-- The follower gets the log in two batches. -/
theorem follower_eq_leader_someRequests : ∃ r : Leader,
    runSteps (Request.step someEnv .fine) someRequests .empty = some r
      ∧ r.log.map Prod.fst = [.assignFile, .assignBlocks, .assignFile, .createPolicy, .createToken,
        .deletePolicy, .revokeToken, .deleteFile, .deleteBlocks]
      ∧ [(r.log.map logged).take 4, (r.log.map logged).drop 4].foldl
        (fun s entries => handleEntriesFromLeader someEnv.pb entries s) .empty = r.storage := by
  obtain ⟨r, hrun⟩ : ∃ r, runSteps (Request.step someEnv .fine) someRequests .empty = some r :=
    Option.isSome_iff_exists.mp (by decide +kernel)
  have hlog : (runSteps (Request.step someEnv .fine) someRequests .empty).map
      (fun r => r.log.map Prod.fst) = some [.assignFile, .assignBlocks, .assignFile, .createPolicy,
        .createToken, .deletePolicy, .revokeToken, .deleteFile, .deleteBlocks] := by decide +kernel
  rw [hrun, Option.map_some, Option.some.injEq] at hlog
  refine ⟨r, hrun, hlog, follower_eq_leader someEnv someRequests (by decide +kernel) hrun _ ?_⟩
  simp [logged]

end Witness

end Rhosus.Registry

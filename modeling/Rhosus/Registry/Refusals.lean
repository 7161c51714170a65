import Rhosus.Registry.Replicas
import Rhosus.Registry.Verbs

/-!
# Requests for a new file that are refused

`HandlePutFile` sends the blocks of a file to the data nodes, registers them and logs them before
`RegisterFile` looks whether the file can be created at all; and both this and `HandleMakeDir` store
the file before the write to the log that can still fail. So a request that is refused has changed
nothing if and only if the file could not be created, no node has taken a block and the entry of the
blocks has not come into the log (`refused_unchanged_iff`).
-/

namespace Rhosus.Registry

open Url

section Handlers

/-- What becomes of a `writeEntry` of the cluster. -/
inductive LogWrite
  | done
  /-- It is shut down, or the log cannot be written. -/
  | refused
  /-- The entry is in the log; it times out, or is not written by the others. -/
  | late
  deriving DecidableEq

def LogWrite.logged (w : LogWrite) : Bool := w ≠ .refused

theorem LogWrite.logged_eq_false {w : LogWrite} : w.logged = false ↔ w = .refused := by
  cases w <;> decide

/-- What becomes of the puts to the backend and of the writes to the log: of the blocks first, and
then of the file. -/
structure CreateFate where
  putBlocks : Bool
  writeBlocks : LogWrite
  put : Bool
  write : LogWrite

namespace CreateFate

def ofBlocks (fate : CreateFate) : Fate :=
  { Fate.fine with put := fate.putBlocks, write := fate.writeBlocks.logged }

def ofFile (fate : CreateFate) : Fate :=
  { Fate.fine with put := fate.put, write := fate.write.logged }

end CreateFate

/-- `RegisterFile`; the error of a write that is late comes when all is done. -/
def registerFileLate (env : Env) (fate : CreateFate) (file : FileInfo) (r : Leader) :
    Except HandlerErr Unit × Leader :=
  match registerFile env fate.ofFile file r, fate.write with
  | (.ok _, r), .late => (.error .cluster, r)
  | res, _ => res

def handleMakeDirLate (env : Env) (fate : CreateFate) (path uid : Bytes) (r : Leader) :
    Except HandlerErr CommonResponse × Leader :=
  match handleMakeDir env fate.ofFile path uid r, fate.write with
  | (.ok ⟨true, _⟩, r), .late => (.error .cluster, r)
  | res, _ => res

/-- The registry, and the blocks that each data node has taken, in the order they came. -/
structure Deployment where
  leader : Leader
  held : Bytes → List Data.Block

/-- What a node makes of the blocks: it takes some of them and answers, for at most these, where
they are; or the call ends with an error. -/
structure Taking (blocks : List Data.Block) where
  taken : List Data.Block
  sublist : taken.Sublist blocks
  answer : Option (Answer blocks)
  confirmed : ∀ a ∈ answer,
    (a.placement.map Data.BlockPlacementInfo.blockID).Sublist (taken.map Data.Block.id)

/-- The blocks that the body was cut into and its size, and what becomes of the blocks: the
goroutines for the nodes end in the order `finish`, and the result is gone through in the order
`order`. -/
structure Part where
  blocks : List Data.Block
  size : ℕ
  nodes : Bytes → Taking blocks
  finish : List Bytes
  order : List Bytes

inductive PutAnswer
  /-- There is no part to be read. -/
  | unread
  | panicked
  | wrote (status : ℕ) (body : String)
  deriving DecidableEq

/-- The answer to what `RegisterFile` returns. -/
def putAnswer : Except HandlerErr Unit → PutAnswer
  | .error .fileExists => .wrote 409 ""
  | .error .noSuchFileOrDirectory => .wrote 400 ""
  | .error _ => .wrote 500 "internal error"
  | .ok _ => .wrote 200 "OK"

/-- Nothing where the orders are not such. -/
def handlePutFile (env : Env) (fate : CreateFate) (table : List Node) (u : URL) (uid : Bytes)
    (part : Option Part) (d : Deployment) : Option (PutAnswer × Deployment) :=
  match part with
  | none => some (.unread, d)
  | some part =>
    let file := newFile u uid part.size
    match transportAndRegisterBlocks env fate.ofBlocks table uid part.blocks file.replication
      (fun id => (part.nodes id).answer) part.finish part.order d.leader with
    | none => none
    | some .panicked => some (.panicked, d)
    -- an error is only logged
    | some (.returned (_, leader)) =>
      let held := fun id =>
        if id ∈ part.finish then d.held id ++ (part.nodes id).taken else d.held id
      let (res, leader) := registerFileLate env fate file leader
      some (putAnswer res, ⟨leader, held⟩)

inductive Create
  | makeDir (path uid : Bytes)
  | putFile (u : URL) (uid : Bytes) (part : Option Part)

inductive CreateAnswer
  | dir (res : Except HandlerErr CommonResponse)
  | file (answer : PutAnswer)
  deriving DecidableEq

def CreateAnswer.Failed : CreateAnswer → Prop
  | .dir (.error _) => True
  | .dir (.ok res) => res.success = false
  | .file answer => answer ≠ .wrote 200 "OK"

def Create.handle (env : Env) (fate : CreateFate) (table : List Node) (d : Deployment) :
    Create → Option (CreateAnswer × Deployment)
  | .makeDir path uid =>
    let (res, leader) := handleMakeDirLate env fate path uid d.leader
    some (.dir res, { d with leader })
  | .putFile u uid part =>
    (handlePutFile env fate table u uid part d).map fun res => (.file res.1, res.2)

/-- Its path is free, its directory is there, and it lacks no value. -/
def Creatable (file : FileInfo) (s : Storage) : Prop :=
  s.getFileByPath file.path = none
    ∧ ∃ parentID, s.parentID file.path = some parentID ∧ filesTable.Full { file with parentID }

/-- If the file can be created, then its put and its write succeed. If a file that is put cannot,
then no node takes a block, and the write of the blocks fails before the entry is in the log. -/
def Create.Harmless (env : Env) (fate : CreateFate) (table : List Node) (s : Storage) :
    Create → Prop
  | .makeDir path uid =>
    Creatable (newDir (trim path) uid []) s → fate.put = true ∧ fate.write = .done
  | .putFile _ _ none => True
  | .putFile u uid (some part) =>
    ¬ (table = [] ∨ 1 < table.length ∧ ∃ node ∈ table, node.blocksUsed = none) →
      (Creatable (newFile u uid part.size) s → fate.put = true ∧ fate.write = .done)
      ∧ (¬ Creatable (newFile u uid part.size) s →
        (∀ node ∈ targets env.sorter table 2, (part.nodes node.id).taken = [])
          ∧ fate.writeBlocks = .refused)

end Handlers

section Files

variable (env : Env) (fate : CreateFate) {file : FileInfo} {r : Leader}

theorem registerFile_of_not_creatable (fate : Fate) (h : ¬ Creatable file r.storage) :
    ∃ e, registerFile env fate file r = (.error e, r) := by
  unfold registerFile
  rcases hpath : r.storage.getFileByPath file.path with _ | f
  · rcases hparent : r.storage.parentID file.path with _ | parentID
    · exact ⟨_, rfl⟩
    · have hfull : ¬ filesTable.Full { file with parentID } :=
        fun hfull => h ⟨hpath, parentID, hparent, hfull⟩
      refine ⟨.storage .missing, ?_⟩
      dsimp only
      rw [storeAndWrite, Storage.storeFile, Table.insert, if_neg hfull]
  · exact ⟨_, rfl⟩

theorem registerFile_of_creatable (fate : Fate) (h : Creatable file r.storage) :
    (registerFile env fate file r).2.storage.files ≠ r.storage.files
      ∧ ((registerFile env fate file r).1 = .ok () ↔ fate.put = true ∧ fate.write = true) := by
  obtain ⟨hpath, parentID, hparent, hfull⟩ := h
  obtain ⟨files, hins⟩ := Table.insert_of_full (t := r.storage.files) hfull
  refine ⟨?_, ?_⟩
  · rw [registerFile_files, Storage.create, hpath, hparent]
    dsimp only
    rw [hins, Option.getD_some]
    intro hsame
    have hentry := Table.index_insert hins .path [file.path]
    rw [if_pos (filesTable_pathKey _), hsame] at hentry
    cases hentry.symm.trans hpath
  · rw [registerFile, hpath, hparent]
    dsimp only
    rw [storeAndWrite, Storage.storeFile, hins]
    unfold Storage.put Leader.writeEntry
    cases fate.put <;> cases fate.write <;> simp

theorem registerFileLate_snd :
    (registerFileLate env fate file r).2 = (registerFile env fate.ofFile file r).2 := by
  unfold registerFileLate
  rcases registerFile env fate.ofFile file r with ⟨_ | _, r'⟩
  · rfl
  · cases fate.write <;> rfl

theorem registerFileLate_of_not_creatable (h : ¬ Creatable file r.storage) :
    ∃ e, registerFileLate env fate file r = (.error e, r) := by
  obtain ⟨e, he⟩ := registerFile_of_not_creatable env fate.ofFile h
  exact ⟨e, by rw [registerFileLate, he]⟩

theorem registerFileLate_of_creatable (h : Creatable file r.storage) :
    (registerFileLate env fate file r).2.storage.files ≠ r.storage.files
      ∧ ((registerFileLate env fate file r).1 = .ok ()
        ↔ fate.put = true ∧ fate.write = .done) := by
  obtain ⟨hfiles, hok⟩ := registerFile_of_creatable env fate.ofFile h
  refine ⟨by rwa [registerFileLate_snd], ?_⟩
  have hwrite : fate.ofFile.write = true ↔ fate.write ≠ .refused := decide_eq_true_iff
  rw [hwrite] at hok
  unfold registerFileLate
  rcases hres : registerFile env fate.ofFile file r with ⟨e | u, r'⟩ <;> rw [hres] at hok
  · refine iff_of_false (by rintro ⟨⟩) fun hdone => ?_
    cases hok.mpr ⟨hdone.1, by rw [hdone.2]; rintro ⟨⟩⟩
  · obtain ⟨hput, hne⟩ := hok.mp rfl
    rcases hw : fate.write with _ | _ | _
    · exact iff_of_true rfl ⟨hput, rfl⟩
    · exact absurd hw hne
    · exact iff_of_false (by rintro ⟨⟩) (by rintro ⟨-, ⟨⟩⟩)

/-- A directory is refused where `RegisterFile` would refuse it, and leaves the same behind. -/
theorem handleMakeDirLate_registers (path uid : Bytes) (r : Leader) :
    (handleMakeDirLate env fate path uid r).2
        = (registerFileLate env fate (newDir (trim path) uid []) r).2
      ∧ ((CreateAnswer.dir (handleMakeDirLate env fate path uid r).1).Failed
        ↔ (registerFileLate env fate (newDir (trim path) uid []) r).1 ≠ .ok ()) := by
  unfold handleMakeDirLate registerFileLate handleMakeDir registerFile
  dsimp only [newDir]
  rcases r.storage.getFileByPath (trim path) with _ | f
  · rcases r.storage.parentID (trim path) with _ | parentID
    · simp [CreateAnswer.Failed]
    · dsimp only
      rcases storeAndWrite env fate.ofFile _ r with ⟨e | u, r'⟩
      · simp [CreateAnswer.Failed]
      · rcases fate.write <;> simp [CreateAnswer.Failed]
  · simp [CreateAnswer.Failed]

end Files

section Blocks

variable {env : Env} {r : Leader}

theorem registerBlocks_log (env : Env) (fate : Fate) (bInfos : List BlockInfo) (r : Leader) :
    (registerBlocks env fate bInfos r).2.log = if fate.write then
      r.log ++ [(.assignBlocks, env.pb.assignBlocks.marshal (env.id, bInfos))] else r.log := by
  unfold registerBlocks Leader.writeEntry
  cases fate.write <;> rfl

theorem registerBlocks_nil (fate : Fate) :
    (registerBlocks env fate [] r).2.storage = r.storage := by
  have hput : (r.storage.putBlocks env.pb.toCodecs [] fate.put).2 = r.storage := by
    change (Storage.put .block [] fate.put r.storage).2 = r.storage
    unfold Storage.put
    cases fate.put
    · rfl
    · simp only [if_true, List.foldl_nil, Function.update_eq_self]
  unfold registerBlocks Leader.writeEntry
  cases fate.write <;> exact hput

/-- Where no node takes a block, there is none to register. -/
theorem blockInfos_of_untaken {part : Part} {fileID : Bytes}
    (horder : part.order.Perm
      (assignResult (answersOf (fun id => (part.nodes id).answer) part.finish)).keys)
    (h : ∀ id ∈ part.finish, (part.nodes id).taken = []) :
    blockInfos fileID part.blocks
      (answersOf (fun id => (part.nodes id).answer) part.finish) part.order = [] := by
  have hnone : part.order = [] := by
    refine List.eq_nil_iff_forall_not_mem.mpr fun id hid => ?_
    obtain ⟨nodeID, hnode, a, ha, hid⟩ := mem_keys_assignResult.mp (horder.mem_iff.mp hid)
    have hconfirmed := (part.nodes nodeID).confirmed a ha
    rw [h nodeID hnode, List.map_nil, List.sublist_nil] at hconfirmed
    rw [hconfirmed] at hid
    cases hid
  rw [hnone]
  rfl

end Blocks

section Refused

variable {env : Env} {fate : CreateFate} {table : List Node} {u : URL} {uid : Bytes} {part : Part}
  {d d' : Deployment}

theorem putAnswer_eq {res : Except HandlerErr Unit} :
    putAnswer res = .wrote 200 "OK" ↔ res = .ok () := by
  rcases res with (_ | _ | _ | _) | _ <;> simp [putAnswer]

/-- An upload that does not panic, step by step. -/
theorem handlePutFile_eq {answer : PutAnswer}
    (hsafe : ¬ (table = [] ∨ 1 < table.length ∧ ∃ node ∈ table, node.blocksUsed = none))
    (h : handlePutFile env fate table u uid (some part) d = some (answer, d')) :
    ∃ bInfos leader, leader = (registerBlocks env fate.ofBlocks bInfos d.leader).2
      ∧ part.finish.Perm ((targets env.sorter table 2).map Node.id)
      ∧ ((∀ id ∈ part.finish, (part.nodes id).taken = []) → bInfos = [])
      ∧ answer = putAnswer (registerFileLate env fate (newFile u uid part.size) leader).1
      ∧ d'.leader = (registerFileLate env fate (newFile u uid part.size) leader).2
      ∧ ∀ id, d'.held id
        = if id ∈ part.finish then d.held id ++ (part.nodes id).taken else d.held id := by
  unfold handlePutFile at h
  dsimp only at h
  rw [show (newFile u uid part.size).replication = 2 from rfl,
    transportAndRegisterBlocks_eq (by decide) hsafe] at h
  split_ifs at h with horders
  · obtain ⟨rfl, rfl⟩ := Prod.mk.inj (Option.some.inj h)
    exact ⟨_, _, rfl, horders.1, fun huntaken => blockInfos_of_untaken horders.2 huntaken, rfl, rfl,
      fun _ => rfl⟩

theorem held_eq_iff {finish : List Bytes} {nodes : Bytes → List Data.Block}
    (hheld : ∀ id, d'.held id = if id ∈ finish then d.held id ++ nodes id else d.held id) :
    d'.held = d.held ↔ ∀ id ∈ finish, nodes id = [] := by
  constructor
  · intro hsame id hid
    have := hheld id
    rw [hsame, if_pos hid] at this
    exact List.self_eq_append_right.mp this
  · intro hnone
    funext id
    rw [hheld id]
    split_ifs with hid
    · rw [hnone id hid, List.append_nil]
    · rfl

/-- A file that can be created is there afterwards, whatever the answer. -/
theorem unchanged_iff_of_creatable {file : FileInfo} {leader : Leader} {failed : Prop}
    (hcreate : Creatable file leader.storage)
    (hfiles : leader.storage.files = d.leader.storage.files)
    (hfailed : failed ↔ (registerFileLate env fate file leader).1 ≠ .ok ())
    (hleader : d'.leader = (registerFileLate env fate file leader).2) :
    (failed → d' = d) ↔ fate.put = true ∧ fate.write = .done := by
  obtain ⟨hne, hok⟩ := registerFileLate_of_creatable env fate hcreate
  rw [hfailed, ← hok]
  constructor
  · intro hsame
    by_contra hfail
    rw [← hleader, hsame hfail, hfiles] at hne
    exact hne rfl
  · exact fun hres hfail => absurd hres hfail

theorem handlePutFile_unchanged_iff {answer : PutAnswer}
    (hsafe : ¬ (table = [] ∨ 1 < table.length ∧ ∃ node ∈ table, node.blocksUsed = none))
    (h : handlePutFile env fate table u uid (some part) d = some (answer, d')) :
    (answer ≠ .wrote 200 "OK" → d' = d)
      ↔ (Creatable (newFile u uid part.size) d.leader.storage →
          fate.put = true ∧ fate.write = .done)
        ∧ (¬ Creatable (newFile u uid part.size) d.leader.storage →
          (∀ node ∈ targets env.sorter table 2, (part.nodes node.id).taken = [])
            ∧ fate.writeBlocks = .refused) := by
  obtain ⟨bInfos, leader, hblocks, hfinish, hnil, rfl, hleader, hheld⟩ := handlePutFile_eq hsafe h
  have hfiles : leader.storage.files = d.leader.storage.files := by
    rw [hblocks, registerBlocks_files]
  have hlog := registerBlocks_log env fate.ofBlocks bInfos d.leader
  have hcreatable : Creatable (newFile u uid part.size) leader.storage
      ↔ Creatable (newFile u uid part.size) d.leader.storage := by
    unfold Creatable Storage.parentID Storage.getFileByPath
    rw [hfiles]
  by_cases hcreate : Creatable (newFile u uid part.size) d.leader.storage
  · rw [and_iff_left fun hnot => absurd hcreate hnot, forall_prop_of_true hcreate]
    exact unchanged_iff_of_creatable (hcreatable.mpr hcreate) hfiles (not_congr putAnswer_eq)
      hleader
  · obtain ⟨e, he⟩ := registerFileLate_of_not_creatable env fate (hcreatable.not.mpr hcreate)
    have htargets : (∀ id ∈ part.finish, (part.nodes id).taken = [])
        ↔ ∀ node ∈ targets env.sorter table 2, (part.nodes node.id).taken = [] := by
      simp only [hfinish.mem_iff, List.forall_mem_map]
    have hfail : (registerFileLate env fate (newFile u uid part.size) leader).1 ≠ .ok () := by
      rw [he]
      rintro ⟨⟩
    have hrefused : fate.ofBlocks.write = false ↔ fate.writeBlocks = .refused :=
      LogWrite.logged_eq_false
    rw [and_iff_right fun hyes => absurd hyes hcreate, forall_prop_of_true hcreate,
      forall_prop_of_true (putAnswer_eq.not.mpr hfail), ← htargets, ← hrefused]
    rw [he] at hleader
    rw [← hblocks] at hlog
    constructor
    · rintro rfl
      refine ⟨(held_eq_iff hheld).mp rfl, Bool.eq_false_iff.mpr fun hwrite => ?_⟩
      rw [if_pos hwrite, hleader] at hlog
      cases List.self_eq_append_right.mp hlog
    · rintro ⟨htaken, hwrite⟩
      rw [if_neg (Bool.eq_false_iff.mp hwrite)] at hlog
      have hstorage : leader.storage = d.leader.storage := by
        rw [hblocks, hnil htaken, registerBlocks_nil]
      have hsame : d'.leader = d.leader := by
        rw [hleader]
        cases leader
        exact congrArg₂ Leader.mk hstorage hlog
      cases d'
      exact congrArg₂ Deployment.mk hsame ((held_eq_iff hheld).mpr htaken)

/-- Whatever is in the registry and on the nodes, and whatever fails: a request for a new file that
is answered with a failure leaves everything as it was, if and only if a file that can be created
is put and logged, and with one that is put and cannot be, no node takes a block and the write of
the blocks fails before the entry is in the log. -/
theorem refused_unchanged_iff (env : Env) (fate : CreateFate) (table : List Node) (req : Create)
    {answer : CreateAnswer} (h : req.handle env fate table d = some (answer, d')) :
    (answer.Failed → d' = d) ↔ req.Harmless env fate table d.leader.storage := by
  cases req with
  | makeDir path uid =>
    change some (CreateAnswer.dir (handleMakeDirLate env fate path uid d.leader).1,
      { d with leader := (handleMakeDirLate env fate path uid d.leader).2 }) = _ at h
    obtain ⟨rfl, rfl⟩ := Prod.mk.inj (Option.some.inj h)
    obtain ⟨hleader, hfailed⟩ := handleMakeDirLate_registers env fate path uid d.leader
    by_cases hcreate : Creatable (newDir (trim path) uid []) d.leader.storage
    · rw [Create.Harmless, forall_prop_of_true hcreate]
      exact unchanged_iff_of_creatable hcreate rfl hfailed hleader
    · obtain ⟨e, he⟩ := registerFileLate_of_not_creatable env fate hcreate
      refine iff_of_true (fun _ => ?_) fun hyes => absurd hyes hcreate
      rw [hleader, he]
  | putFile u uid part =>
    obtain ⟨res, hput, heq⟩ := Option.map_eq_some_iff.mp h
    obtain ⟨rfl, rfl⟩ := Prod.mk.inj heq
    cases part with
    | none =>
      obtain rfl := Option.some.inj hput
      exact iff_of_true (fun _ => rfl) trivial
    | some part =>
      rw [Create.Harmless]
      by_cases hpanic : table = [] ∨ 1 < table.length ∧ ∃ node ∈ table, node.blocksUsed = none
      · rw [handlePutFile, show (newFile u uid part.size).replication = 2 from rfl,
          transportAndRegisterBlocks_panics (by decide) hpanic] at hput
        obtain rfl := Option.some.inj hput
        exact iff_of_true (fun _ => rfl) fun hnot => absurd hpanic hnot
      · rw [forall_prop_of_true hpanic]
        exact handlePutFile_unchanged_iff hpanic hput

end Refused

section Witness

def plainURL : URL := { URL.empty with path := bytes "/f" }

/-- There is a file at the path, and nothing on the nodes. -/
noncomputable def withFile : Deployment where
  leader := (registerFile someEnv .fine (newFile plainURL [5] 0) .empty).2
  held _ := []

/-- The only node refuses the blocks. -/
def untaken : Part where
  blocks := twoBlocks
  size := 3
  nodes _ := ⟨[], List.nil_sublist _, none, by rintro _ ⟨⟩⟩
  finish := [[7]]
  order := []

/-- The path is taken, the node refuses the blocks and the cluster is shut down. -/
theorem refused_unchanged_iff_untaken : ∃ d', (Create.putFile plainURL [6] (some untaken)).handle
    someEnv ⟨true, .refused, true, .refused⟩ [⟨[7], some 0⟩] withFile
      = some (.file (.wrote 409 ""), d') ∧ d' = withFile := by
  have hanswer : ((Create.putFile plainURL [6] (some untaken)).handle someEnv
      ⟨true, .refused, true, .refused⟩ [⟨[7], some 0⟩] withFile).map Prod.fst
        = some (.file (.wrote 409 "")) := by decide +kernel
  obtain ⟨⟨answer, d'⟩, hres, rfl⟩ := Option.map_eq_some_iff.mp hanswer
  refine ⟨d', hres, (refused_unchanged_iff someEnv _ _ _ hres).mpr (fun _ => ⟨?_, ?_⟩) ?_⟩
  · exact fun hcreate => absurd hcreate.1 (by decide +kernel)
  · exact fun _ => ⟨fun _ _ => rfl, rfl⟩
  · change PutAnswer.wrote 409 "" ≠ .wrote 200 "OK"
    decide

/-- The only node takes both blocks. -/
def bothHeld : Part where
  blocks := twoBlocks
  size := 3
  nodes _ := ⟨twoBlocks, List.Sublist.refl _, some bothTaken, by
    rintro _ ⟨⟩
    decide⟩
  finish := [[7]]
  order := [[1], [2]]

/-- A file is put where there is one: the node has its blocks, and there is an entry for them in the
log. A directory is stored, and the write of its entry fails. -/
theorem refused_changes :
    (∃ res ∈ (Create.putFile plainURL [6] (some bothHeld)).handle someEnv
        ⟨true, .done, true, .done⟩ [⟨[7], some 0⟩] withFile,
      res.1 = .file (.wrote 409 "")
        ∧ (withFile.held [7] = [] ∧ res.2.held [7] = twoBlocks)
        ∧ (withFile.leader.log.length = 1 ∧ res.2.leader.log.length = 2)
        ∧ withFile.leader.storage.blocks.byId.size = 0
        ∧ res.2.leader.storage.blocks.byId.size = 2)
    ∧ ∃ res ∈ (Create.makeDir [97] [8]).handle someEnv ⟨true, .done, true, .refused⟩ [] withFile,
      res.1 = .dir (.error .cluster)
        ∧ withFile.leader.storage.getFileByPath [97] = none
        ∧ res.2.leader.storage.getFileByPath [97] = some (newDir [97] [8] root) := by
  decide +kernel

end Witness

end Rhosus.Registry

import Rhosus.Cluster.Entry
import Rhosus.Data.Partition
import Rhosus.Registry.Storage
import Mathlib.Data.Countable.Basic
import Mathlib.Data.List.DropRight
import Mathlib.Data.List.Sort

/-!
# The requests of a registry

The leader serves a request by a change of its storage, and writes to the log of the cluster an
entry that says what it did. A follower gets the entries in batches and changes its own storage as
they say, by other operations than the leader's. The removal of blocks on the data nodes changes
nothing here and is left out.
-/

namespace Rhosus.Registry

section Paths

/-- `/` -/
def slash : UInt8 := 47

/-- The id that the files at the top have for a parent's. -/
def root : Bytes := "root".toUTF8.toList

/-- `strings.Trim(path, "/")` -/
def trim (path : Bytes) : Bytes := (path.dropWhile (· = slash)).rdropWhile (· = slash)

/-- `strings.Split(path, "/")` -/
def split (path : Bytes) : List Bytes := path.splitOn slash

/-- The path without its last component. -/
def parentPath (path : Bytes) : Bytes := [slash].intercalate (split path).dropLast

end Paths

/-- The messages of the log too, each with the id of the node that wrote it. -/
structure Messages extends Codecs where
  assignFile : Codec (Bytes × FileInfo)
  deleteFile : Codec (Bytes × FileInfo)
  assignBlocks : Codec (Bytes × List BlockInfo)
  deleteBlocks : Codec (Bytes × List BlockInfo)
  createPolicy : Codec (Bytes × Policy)
  deletePolicy : Codec (Bytes × Bytes)
  createToken : Codec (Bytes × Token)
  revokeToken : Codec (Bytes × Bytes)

structure Env where
  pb : Messages
  sorter : Sorter
  /-- The id of the leader in the cluster. -/
  id : Bytes

/-- Messages with some bytes, and a sort by insertion. -/
noncomputable def someEnv : Env where
  pb := ⟨someCodecs, .ofCountable _, .ofCountable _, .ofCountable _, .ofCountable _, .ofCountable _,
    .ofCountable _, .ofCountable _, .ofCountable _⟩
  sorter :=
    { sort := fun f xs => xs.insertionSort fun a b => f a ≤ f b
      perm := fun _ xs => xs.perm_insertionSort _
      sorted := fun _ xs => xs.pairwise_insertionSort _ }
  id := []

/-- Which of the operations of a request succeed: the change of the backend; for each file that
goes, its two deletions there; and the writes to the log, of which a removal makes two. -/
structure Fate where
  put : Bool
  delete : FileInfo → Bool × Bool
  write : Bool
  write' : Bool

def Fate.fine : Fate := ⟨true, fun _ => (true, true), true, true⟩

inductive HandlerErr
  | fileExists
  | noSuchFileOrDirectory
  | storage (e : Err)
  | cluster
  deriving DecidableEq

structure CommonResponse where
  success : Bool
  err : String
  deriving DecidableEq

/-- A registry that leads, and what it has written to the log. -/
structure Leader where
  storage : Storage
  log : List (Cluster.EntryType × Bytes)

namespace Leader

def empty : Leader := ⟨.empty, []⟩

/-- `writeEntry` of the cluster. What the log has after a failure is left open. -/
def writeEntry (typ : Cluster.EntryType) (data : Bytes) (ok : Bool) (r : Leader) : Bool × Leader :=
  if ok then (true, { r with log := r.log ++ [(typ, data)] }) else (false, r)

end Leader

/-- The id of the directory of a path: nothing where there is no file at its path. -/
def Storage.parentID (path : Bytes) (s : Storage) : Option Bytes :=
  if 1 < (split path).length then (s.getFileByPath (parentPath path)).map FileInfo.id
  else some root

section Files

variable (env : Env) (fate : Fate)

/-- The end of `RegisterFile` and of `HandleMakeDir`. -/
def storeAndWrite (file : FileInfo) (r : Leader) : Except HandlerErr Unit × Leader :=
  match r.storage.storeFile env.pb.toCodecs file fate.put with
  | (.error e, storage) => (.error (.storage e), { r with storage })
  | (.ok _, storage) =>
    match { r with storage }.writeEntry .assignFile (env.pb.assignFile.marshal (env.id, file))
      fate.write with
    | (false, r) => (.error .cluster, r)
    | (true, r) => (.ok (), r)

def registerFile (file : FileInfo) (r : Leader) : Except HandlerErr Unit × Leader :=
  match r.storage.getFileByPath file.path with
  | some _ => (.error .fileExists, r)
  | none =>
    match r.storage.parentID file.path with
    | none => (.error .noSuchFileOrDirectory, r)
    | some parentID => storeAndWrite env fate { file with parentID } r

/-- The directory that `HandleMakeDir` stores. -/
def newDir (path uid parentID : Bytes) : FileInfo where
  id := uid
  parentID := parentID
  type := .dir
  name := (split path).getLastD []
  path := path
  fileSize := 0
  permission := 0
  owner := []
  group := []
  symlink := []
  replication := 0

def handleMakeDir (path uid : Bytes) (r : Leader) : Except HandlerErr CommonResponse × Leader :=
  let path := trim path
  match r.storage.getFileByPath path with
  | some _ => (.ok ⟨false, "directory already exists"⟩, r)
  | none =>
    match r.storage.parentID path with
    | none => (.ok ⟨false, "no such file or directory"⟩, r)
    | some parentID =>
      match storeAndWrite env fate (newDir path uid parentID) r with
      | (.error e, r) => (.error e, r)
      | (.ok _, r) => (.ok ⟨true, ""⟩, r)

def removeFileBlocks (file : FileInfo) (s : Storage) : Except Err Unit × Storage :=
  s.deleteFileWithBlocks file (fate.delete file).1 (fate.delete file).2

/-- The loop of `killChildren`, to the first error. -/
def killEach (kill : FileInfo → Storage → Option (Except Err Unit × Storage)) :
    List FileInfo → Storage → Option (Except Err Unit × Storage)
  | [], s => some (.ok (), s)
  | childFile :: childFiles, s =>
    match kill childFile s with
    | some (.ok _, s) => killEach kill childFiles s
    | res => res

/-- Nothing where the recursion goes deeper than `fuel`. -/
def killChildren : ℕ → FileInfo → Storage → Option (Except Err Unit × Storage)
  | 0, _, _ => none
  | fuel + 1, file, s =>
    let childFiles := s.getFilesByParentId file.id
    if childFiles = [] then some (.ok (), s)
    else
      match if file.type = .file then removeFileBlocks fate file s else (.ok (), s) with
      | (.error e, s) => some (.error e, s)
      | (.ok _, s) => killEach (killChildren fuel) childFiles s

def handleRemoveFileOrPath (path : Bytes) (fuel : ℕ) (r : Leader) :
    Option (Except HandlerErr CommonResponse × Leader) :=
  match r.storage.getFileByPath (trim path) with
  | none => some (.ok ⟨false, "no such file or directory"⟩, r)
  | some rootFile =>
    let blocks := r.storage.getBlocks env.sorter rootFile.id
    match killChildren fate fuel rootFile r.storage with
    | none => none
    | some (.error e, storage) => some (.error (.storage e), { r with storage })
    | some (.ok _, storage) =>
      match if rootFile.type = .file then removeFileBlocks fate rootFile storage
        else (.ok (), storage) with
      | (.error e, storage) => some (.error (.storage e), { r with storage })
      | (.ok _, storage) =>
        match { r with storage }.writeEntry .deleteFile
          (env.pb.deleteFile.marshal (env.id, rootFile)) fate.write with
        | (false, r) => some (.error .cluster, r)
        | (true, r) =>
          match r.writeEntry .deleteBlocks (env.pb.deleteBlocks.marshal (env.id, blocks))
            fate.write' with
          | (false, r) => some (.error .cluster, r)
          | (true, r) => some (.ok ⟨true, ""⟩, r)

end Files

section Blocks

/-- The placements of each block, from the answers of the nodes in the order they come in. -/
def assignResult (answers : List (Bytes × List Data.BlockPlacementInfo)) :
    OrdMap Bytes (List Placement) :=
  answers.foldl (fun m answer =>
    answer.2.foldl (fun m pInfo =>
      m.insert pInfo.blockID ((m[pInfo.blockID]?).getD [] ++ [⟨answer.1, pInfo.partitionID⟩])) m) ∅

def blockSeq (blocks : List Data.Block) : OrdMap Bytes ℕ :=
  blocks.foldl (fun m block => m.insert block.id block.index) ∅

/-- What is stored about the blocks, in the order of the iteration over the result. -/
def blockInfos (fileID : Bytes) (blocks : List Data.Block)
    (answers : List (Bytes × List Data.BlockPlacementInfo)) (order : List Bytes) :
    List BlockInfo :=
  order.map fun blockID =>
    { id := blockID
      index := ((blockSeq blocks)[blockID]?).getD 0
      size := 0
      fileID := fileID
      blocks := ((assignResult answers)[blockID]?).getD [] }

/-- `TransportAndRegisterBlocks` once the nodes have answered. -/
def registerBlocks (env : Env) (fate : Fate) (bInfos : List BlockInfo) (r : Leader) :
    Except HandlerErr Unit × Leader :=
  -- an error is only logged
  let (_, storage) := r.storage.putBlocks env.pb.toCodecs bInfos fate.put
  match { r with storage }.writeEntry .assignBlocks (env.pb.assignBlocks.marshal (env.id, bInfos))
    fate.write with
  | (false, r) => (.error .cluster, r)
  | (true, r) => (.ok (), r)

end Blocks

section Auth

variable (env : Env) (fate : Fate)

/-- The paths of the request have their capabilities. -/
def handleCreatePolicy (name : Bytes) (paths : List (Bytes × List Bytes)) (uid : Bytes)
    (r : Leader) : Except HandlerErr Unit × Leader :=
  let policy : Policy :=
    { id := uid
      name := name
      paths := paths.map fun path => ⟨path.1, name, 0, path.2⟩ }
  match r.storage.storePolicy env.pb.toCodecs policy fate.put with
  | (.error e, storage) => (.error (.storage e), { r with storage })
  | (.ok _, storage) =>
    (.ok (), ({ r with storage }.writeEntry .createPolicy
      (env.pb.createPolicy.marshal (env.id, policy)) fate.write).2)

/-- The response is `nil` where there is no such policy. -/
def handleDeletePolicy (name : Bytes) (r : Leader) : Except HandlerErr (Option Unit) × Leader :=
  match r.storage.getPolicy name with
  | none => (.ok none, r)
  | some policy =>
    match r.storage.deletePolicy policy fate.put with
    | (.error e, storage) => (.error (.storage e), { r with storage })
    | (.ok _, storage) =>
      (.ok (some ()), ({ r with storage }.writeEntry .deletePolicy
        (env.pb.deletePolicy.marshal (env.id, policy.name)) fate.write).2)

/-- The response is the token. -/
def handleCreateToken (policies : List Bytes) (tokenStr : Bytes) (now : ℤ) (r : Leader) :
    Except HandlerErr Bytes × Leader :=
  let token : Token :=
    { id := tokenStr
      authEngine := []
      parent := []
      accessor := tokenStr
      ttl := 1000
      creationTime := now
      policies := policies
      role := []
      root := false }
  match r.storage.storeToken env.pb.toCodecs token fate.put with
  | (.error e, storage) => (.error (.storage e), { r with storage })
  | (.ok _, storage) =>
    (.ok tokenStr, ({ r with storage }.writeEntry .createToken
      (env.pb.createToken.marshal (env.id, token)) fate.write).2)

def handleRevokeToken (accessor : Bytes) (r : Leader) : Except HandlerErr Unit × Leader :=
  match r.storage.getToken accessor with
  | none => (.ok (), r)
  | some token =>
    match r.storage.revokeToken token fate.put with
    | (.error e, storage) => (.error (.storage e), { r with storage })
    | (.ok _, storage) =>
      (.ok (), ({ r with storage }.writeEntry .revokeToken
        (env.pb.revokeToken.marshal (env.id, token.accessor)) fate.write).2)

end Auth

/-- A request with what it is given from outside: new ids, the time, the answers of the nodes and
the order of the iteration over them. -/
inductive Request
  | makeDir (path uid : Bytes)
  | transportAndRegisterBlocks (fileID : Bytes) (blocks : List Data.Block)
      (answers : List (Bytes × List Data.BlockPlacementInfo)) (order : List Bytes)
  | registerFile (file : FileInfo)
  | removeFileOrPath (path : Bytes) (fuel : ℕ)
  | createPolicy (name : Bytes) (paths : List (Bytes × List Bytes)) (uid : Bytes)
  | deletePolicy (name : Bytes)
  | createToken (policies : List Bytes) (tokenStr : Bytes) (now : ℤ)
  | revokeToken (accessor : Bytes)

/-- The leader after the request; nothing where that does not return. -/
def Request.step (env : Env) (fate : Fate) : Request → Leader → Option Leader
  | .makeDir path uid, r => some (handleMakeDir env fate path uid r).2
  | .transportAndRegisterBlocks fileID blocks answers order, r =>
    some (registerBlocks env fate (blockInfos fileID blocks answers order) r).2
  | .registerFile file, r => some (Registry.registerFile env fate file r).2
  | .removeFileOrPath path fuel, r =>
    (handleRemoveFileOrPath env fate path fuel r).map Prod.snd
  | .createPolicy name paths uid, r => some (handleCreatePolicy env fate name paths uid r).2
  | .deletePolicy name, r => some (handleDeletePolicy env fate name r).2
  | .createToken policies tokenStr now, r =>
    some (handleCreateToken env fate policies tokenStr now r).2
  | .revokeToken accessor, r => some (handleRevokeToken env fate accessor r).2

section Follower

variable (pb : Messages)

/-- One round of `handleEntriesFromLeader`, over a backend that does what it is told. An error is
logged and the next entry is taken. -/
def handleEntry (entry : Cluster.Entry) (s : Storage) : Storage :=
  match entry.type with
  | 0 =>
    match pb.assignFile.unmarshal entry.data with
    | none => s
    | some (_, file) => (s.storeFile pb.toCodecs file true).2
  | 1 =>
    match pb.deleteFile.unmarshal entry.data with
    | none => s
    | some (_, file) => (s.deleteFile file true).2
  | 3 =>
    match pb.assignBlocks.unmarshal entry.data with
    | none => s
    | some (_, blocks) => (s.putBlocks pb.toCodecs blocks true).2
  | 4 =>
    match pb.deleteBlocks.unmarshal entry.data with
    | none => s
    | some (_, blocks) => (s.deleteBlocks blocks true).2
  | 5 =>
    match pb.createPolicy.unmarshal entry.data with
    | none => s
    | some (_, policy) => (s.storePolicy pb.toCodecs policy true).2
  | 6 =>
    match pb.deletePolicy.unmarshal entry.data with
    | none => s
    | some (_, policyName) =>
      match s.getPolicy policyName with
      | none => s
      | some policy => (s.deletePolicy policy true).2
  | 7 =>
    match pb.createToken.unmarshal entry.data with
    | none => s
    | some (_, token) => (s.storeToken pb.toCodecs token true).2
  | 8 =>
    match pb.revokeToken.unmarshal entry.data with
    | none => s
    | some (_, accessor) =>
      match s.getToken accessor with
      | none => s
      | some token => (s.revokeToken token true).2
  | _ => s

def handleEntriesFromLeader (entries : List Cluster.Entry) (s : Storage) : Storage :=
  entries.foldl (fun s entry => handleEntry pb entry s) s

end Follower

end Rhosus.Registry

import Rhosus.Lib.Table
import Mathlib.Logic.Equiv.List
import Mathlib.Tactic.DeriveCountable

/-!
# The storage of a registry

Files, blocks, tokens and policies are kept in memory, in tables with indexes, and in a backend that
has a map from keys to bytes for each kind. Files and policies have other keys there than in memory:
the path and the name. An operation changes the memory and then the backend, and `ok` tells whether
the backend's part succeeds; where it does not, a deletion returns without an error all the same.
Roles are left out.
-/

namespace Rhosus.Registry

/-- `FileInfo_FileType` -/
inductive FileType
  | dir
  | file
  | symlink
  deriving DecidableEq

structure FileInfo where
  id : Bytes
  parentID : Bytes
  type : FileType
  name : Bytes
  path : Bytes
  fileSize : ℕ
  permission : ℕ
  owner : Bytes
  group : Bytes
  symlink : Bytes
  replication : ℤ
  deriving DecidableEq

structure Placement where
  nodeID : Bytes
  partitionID : Bytes
  deriving DecidableEq

structure BlockInfo where
  id : Bytes
  index : ℕ
  size : ℤ
  fileID : Bytes
  blocks : List Placement
  deriving DecidableEq

structure Token where
  id : Bytes
  authEngine : Bytes
  parent : Bytes
  accessor : Bytes
  ttl : ℤ
  creationTime : ℤ
  policies : List Bytes
  role : Bytes
  root : Bool
  deriving DecidableEq

structure PathRules where
  path : Bytes
  policy : Bytes
  capabilitiesBitmap : ℕ
  capabilities : List Bytes
  deriving DecidableEq

structure Policy where
  id : Bytes
  name : Bytes
  paths : List PathRules
  deriving DecidableEq

/-- The bytes of a message. -/
structure Codec (α : Type) where
  marshal : α → Bytes
  unmarshal : Bytes → Option α
  unmarshal_marshal : ∀ a, unmarshal (marshal a) = some a

theorem Codec.marshal_injective {α : Type} (c : Codec α) : Function.Injective c.marshal :=
  fun a b h => Option.some.inj (by rw [← c.unmarshal_marshal a, h, c.unmarshal_marshal])

/-- `sort.Slice` by a number: the order of items with the same number is its own. -/
structure Sorter where
  sort : {α : Type} → (α → ℕ) → List α → List α
  perm : ∀ {α : Type} (f : α → ℕ) (xs : List α), (sort f xs).Perm xs
  sorted : ∀ {α : Type} (f : α → ℕ) (xs : List α), (sort f xs).Pairwise fun a b => f a ≤ f b

/-- The messages that the backend keeps. -/
structure Codecs where
  file : Codec FileInfo
  block : Codec BlockInfo
  token : Codec Token
  policy : Codec Policy

section Countable

instance countableUInt8 : Countable UInt8 :=
  Function.Injective.countable (f := UInt8.toNat) fun _ _ => UInt8.toNat_inj.mp

deriving instance Countable for FileType, FileInfo, Placement, BlockInfo, Token, PathRules, Policy

/-- Some bytes for each message, and the message for its bytes. -/
noncomputable def Codec.ofCountable (α : Type) [Countable α] : Codec α :=
  let f : α → Bytes := fun a => List.replicate ((exists_injective_nat α).choose a) 0
  have hf : Function.Injective f := fun a b h =>
    (exists_injective_nat α).choose_spec (by simpa [f] using congrArg List.length h)
  ⟨f, Function.partialInv f, Function.partialInv_left hf⟩

noncomputable def someCodecs : Codecs :=
  ⟨.ofCountable _, .ofCountable _, .ofCountable _, .ofCountable _⟩

end Countable

inductive FileIndex
  | path
  | parentId
  deriving DecidableEq

instance : Fintype FileIndex := ⟨{.path, .parentId}, fun i => by cases i <;> decide⟩

inductive BlockIndex
  | fileId
  deriving DecidableEq

instance : Fintype BlockIndex := ⟨{.fileId}, fun i => by cases i; decide⟩

inductive TokenIndex
  | accessor
  deriving DecidableEq

instance : Fintype TokenIndex := ⟨{.accessor}, fun i => by cases i; decide⟩

inductive PolicyIndex
  | name
  deriving DecidableEq

instance : Fintype PolicyIndex := ⟨{.name}, fun i => by cases i; decide⟩

def filesTable : Schema FileIndex FileInfo where
  id := FileInfo.id
  field := fun
    | .path => FileInfo.path
    | .parentId => FileInfo.parentID
  unique := fun
    | .path => true
    | .parentId => false

def blocksTable : Schema BlockIndex BlockInfo where
  id := BlockInfo.id
  field := fun | .fileId => BlockInfo.fileID
  unique := fun | .fileId => false

def tokensTable : Schema TokenIndex Token where
  id := Token.id
  field := fun | .accessor => Token.accessor
  unique := fun | .accessor => true

def policiesTable : Schema PolicyIndex Policy where
  id := Policy.id
  field := fun | .name => Policy.name
  unique := fun | .name => true

theorem filesTable_pathKey (file : FileInfo) : filesTable.key .path file = [file.path] := rfl

theorem policiesTable_nameKey (p : Policy) : policiesTable.key .name p = [p.name] := rfl

/-- The buckets of the backend. -/
inductive EntryType
  | file
  | block
  | token
  | policy
  deriving DecidableEq

abbrev Backend := EntryType → OrdMap Bytes Bytes

inductive Err
  /-- A row lacks a value for an index. -/
  | missing
  | notFound
  | backend
  deriving DecidableEq

structure Storage where
  files : Table FileIndex FileInfo
  blocks : Table BlockIndex BlockInfo
  tokens : Table TokenIndex Token
  policies : Table PolicyIndex Policy
  backend : Backend

namespace Storage

def empty : Storage := ⟨.empty, .empty, .empty, .empty, fun _ => ∅⟩

/-- `Put` of the backend. As `bolt` documents it, an `Update` is all kept or, on an error, not at
all, and `Put` overwrites what is under the key. -/
def put (t : EntryType) (entries : List (Bytes × Bytes)) (ok : Bool) (s : Storage) :
    Except Err Unit × Storage :=
  if ok then
    let bucket := entries.foldl (fun m e => m.insert e.1 e.2) (s.backend t)
    (.ok (), { s with backend := Function.update s.backend t bucket })
  else (.error .backend, s)

/-- `Delete` of the backend. A key that is not there is no error of `bolt`. -/
def remove (t : EntryType) (keys : List Bytes) (ok : Bool) (s : Storage) : Storage :=
  if ok then
    let bucket := keys.foldl (fun m k => m.erase k) (s.backend t)
    { s with backend := Function.update s.backend t bucket }
  else s

section Queries

variable (s : Storage)

def getFile (fileID : Bytes) : Option FileInfo := s.files.byId[fileID]?

def getFileByPath (path : Bytes) : Option FileInfo := s.files.first .path path

def getFilesByParentId (id : Bytes) : List FileInfo := s.files.get .parentId id

def getBlocks (sorter : Sorter) (fileID : Bytes) : List BlockInfo :=
  sorter.sort BlockInfo.index (s.blocks.get .fileId fileID)

/-- It looks for the accessor among the ids. -/
def getToken (accessor : Bytes) : Option Token := s.tokens.byId[accessor]?

def listTokens : List Token := s.tokens.byId.vals

def getPolicy (name : Bytes) : Option Policy := s.policies.first .name name

def listPolicies : List Policy := (s.policies.index .name).vals

end Queries

section Files

variable (pb : Codecs)

def storeFile (file : FileInfo) (ok : Bool) (s : Storage) : Except Err Unit × Storage :=
  match s.files.insert filesTable file with
  | none => (.error .missing, s)
  | some files => { s with files }.put .file [(file.path, pb.file.marshal file)] ok

def putBlocks (blocks : List BlockInfo) (ok : Bool) (s : Storage) : Except Err Unit × Storage :=
  match s.blocks.insertAll blocksTable blocks with
  | none => (.error .missing, s)
  | some table =>
    { s with blocks := table }.put .block
      (blocks.map fun b : BlockInfo => (b.id, pb.block.marshal b)) ok

/-- `okFile` and `okBlocks` are for the two deletions in the backend. -/
def deleteFileWithBlocks (file : FileInfo) (okFile okBlocks : Bool) (s : Storage) :
    Except Err Unit × Storage :=
  let blocks := s.blocks.get .fileId file.id
  match s.blocks.deleteAll blocksTable blocks, s.files.delete filesTable file with
  | some table, some files =>
    (.ok (), ({ s with files, blocks := table }.remove .file [file.path] okFile).remove .block
      (blocks.map BlockInfo.id) okBlocks)
  | _, _ => (.error .notFound, s)

def deleteFile (file : FileInfo) (ok : Bool) (s : Storage) : Except Err Unit × Storage :=
  match s.files.delete filesTable file with
  | none => (.error .notFound, s)
  | some files => (.ok (), { s with files }.remove .file [file.path] ok)

def deleteBlocks (blocks : List BlockInfo) (ok : Bool) (s : Storage) : Except Err Unit × Storage :=
  match s.blocks.deleteAll blocksTable blocks with
  | none => (.error .notFound, s)
  | some table =>
    (.ok (), { s with blocks := table }.remove .block (blocks.map BlockInfo.id) ok)

end Files

section Auth

variable (pb : Codecs)

def storeToken (token : Token) (ok : Bool) (s : Storage) : Except Err Unit × Storage :=
  match s.tokens.insert tokensTable token with
  | none => (.error .missing, s)
  | some tokens => { s with tokens }.put .token [(token.id, pb.token.marshal token)] ok

def revokeToken (token : Token) (ok : Bool) (s : Storage) : Except Err Unit × Storage :=
  match s.tokens.delete tokensTable token with
  | none => (.error .notFound, s)
  | some tokens => (.ok (), { s with tokens }.remove .token [token.id] ok)

def storePolicy (p : Policy) (ok : Bool) (s : Storage) : Except Err Unit × Storage :=
  match s.policies.insert policiesTable p with
  | none => (.error .missing, s)
  | some policies => { s with policies }.put .policy [(p.name, pb.policy.marshal p)] ok

def deletePolicy (p : Policy) (ok : Bool) (s : Storage) : Except Err Unit × Storage :=
  match s.policies.delete policiesTable p with
  | none => (.error .notFound, s)
  | some policies => (.ok (), { s with policies }.remove .policy [p.name] ok)

end Auth

/-- A new storage over what the backend has. What cannot be read, or not be inserted,
is left out. -/
def loadFromBackend (pb : Codecs) (b : Backend) : Storage where
  files := Table.empty.load filesTable ((b .file).vals.filterMap pb.file.unmarshal)
  blocks := Table.empty.load blocksTable ((b .block).vals.filterMap pb.block.unmarshal)
  tokens := Table.empty.load tokensTable ((b .token).vals.filterMap pb.token.unmarshal)
  policies := Table.empty.load policiesTable ((b .policy).vals.filterMap pb.policy.unmarshal)
  backend := b

end Storage

end Rhosus.Registry

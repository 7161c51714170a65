import Rhosus.Registry.Storage

/-!
# Changes of the storage that may fail

Each operation that changes the storage commits to the memory first and then turns to the backend,
here with the failures that this can have. A put of a whole batch that fails is returned as an
error, and the memory stays changed; a single put that fails is only logged, and so is every
deletion. A change is made in both or in neither, and in both if no error is returned, exactly if
the memory refuses it, or the backend does all it is told and has nothing of the record under
another key, or what it fails to do makes no difference (`mutation_allOrNothing_iff`).
-/

namespace Rhosus.Registry

section Roles

structure Role where
  id : Bytes
  name : Bytes
  permissions : List Bytes
  password : Bytes
  deriving DecidableEq, Countable

inductive RoleIndex
  | name
  deriving DecidableEq

instance : Fintype RoleIndex := ⟨{.name}, fun i => by cases i; decide⟩

def rolesTable : Schema RoleIndex Role where
  id := Role.id
  field := fun | .name => Role.name
  unique := fun | .name => true

structure RoleCodecs extends Codecs where
  role : Codec Role

/-- The storage with its roles, and their bucket in the backend. -/
structure FullStorage extends Storage where
  roles : Table RoleIndex Role
  roleBucket : OrdMap Bytes Bytes

def FullStorage.empty : FullStorage := ⟨.empty, .empty, ∅⟩

noncomputable def someRoleCodecs : RoleCodecs := ⟨someCodecs, .ofCountable _⟩

end Roles

section Backend

/-- What becomes of a call of the backend. -/
inductive Outcome
  /-- The backend is closed. -/
  | shutdown
  /-- The batch fails as a whole. -/
  | failed
  /-- The batch is committed; the puts or deletions at some positions fail. -/
  | done (fails : ℕ → Bool)

def Outcome.kept {α : Type} : Outcome → List α → List α
  | .shutdown, _ | .failed, _ => []
  | .done fails, xs => (xs.zipIdx.filter fun x => !fails x.2).map Prod.fst

/-- The limit of bolt for a key, which must not be empty either. -/
def maxKeySize : ℕ := 32768

def storable (key : Bytes) : Bool := key ≠ [] ∧ key.length ≤ maxKeySize

/-- The puts of a batch that succeed. -/
def Outcome.written (o : Outcome) (entries : List (Bytes × Bytes)) : List (Bytes × Bytes) :=
  (o.kept entries).filter fun e => storable e.1

/-- `Put` of the backend -/
def putEntries (entries : List (Bytes × Bytes)) (o : Outcome) (bucket : OrdMap Bytes Bytes) :
    Except Err Unit × OrdMap Bytes Bytes :=
  match o with
  | .shutdown | .failed => (.error .backend, bucket)
  -- the error of a single put is logged
  | .done _ => (.ok (), bucket.putAll (o.written entries))

/-- `Delete` of the backend -/
def deleteKeys (keys : List Bytes) (o : Outcome) (bucket : OrdMap Bytes Bytes) :
    Except Err Unit × OrdMap Bytes Bytes :=
  match o with
  | .shutdown => (.error .backend, bucket)
  -- the error of the batch is dropped
  | .failed => (.ok (), bucket)
  | .done _ => (.ok (), bucket.eraseAll (o.kept keys))

end Backend

section Shelves

/-- Where one kind of record is kept: its table in memory, and its bucket with the key and the bytes
of a record there. -/
structure Shelf (ι α : Type) where
  schema : Schema ι α
  key : α → Bytes
  marshal : α → Bytes
  table : FullStorage → Table ι α
  bucket : FullStorage → OrdMap Bytes Bytes
  set : Table ι α → OrdMap Bytes Bytes → FullStorage → FullStorage
  table_set : ∀ t b s, table (set t b s) = t
  bucket_set : ∀ t b s, bucket (set t b s) = b
  set_self : ∀ s, set (table s) (bucket s) s = s

namespace Shelf

variable (pb : RoleCodecs)

def files : Shelf FileIndex FileInfo where
  schema := filesTable
  key := FileInfo.path
  marshal := pb.file.marshal
  table s := s.files
  bucket s := s.backend .file
  set t b s := { s with files := t, backend := Function.update s.backend .file b }
  table_set _ _ _ := rfl
  bucket_set _ b s := Function.update_self (EntryType.file) b s.backend
  set_self s := by rw [Function.update_eq_self]

def tokens : Shelf TokenIndex Token where
  schema := tokensTable
  key := Token.id
  marshal := pb.token.marshal
  table s := s.tokens
  bucket s := s.backend .token
  set t b s := { s with tokens := t, backend := Function.update s.backend .token b }
  table_set _ _ _ := rfl
  bucket_set _ b s := Function.update_self (EntryType.token) b s.backend
  set_self s := by rw [Function.update_eq_self]

def policies : Shelf PolicyIndex Policy where
  schema := policiesTable
  key := Policy.name
  marshal := pb.policy.marshal
  table s := s.policies
  bucket s := s.backend .policy
  set t b s := { s with policies := t, backend := Function.update s.backend .policy b }
  table_set _ _ _ := rfl
  bucket_set _ b s := Function.update_self (EntryType.policy) b s.backend
  set_self s := by rw [Function.update_eq_self]

def roles : Shelf RoleIndex Role where
  schema := rolesTable
  key := Role.id
  marshal := pb.role.marshal
  table s := s.roles
  bucket s := s.roleBucket
  set t b s := { s with roles := t, roleBucket := b }
  table_set _ _ _ := rfl
  bucket_set _ _ _ := rfl
  set_self _ := rfl

def blocks : Shelf BlockIndex BlockInfo where
  schema := blocksTable
  key := BlockInfo.id
  marshal := pb.block.marshal
  table s := s.blocks
  bucket s := s.backend .block
  set t b s := { s with blocks := t, backend := Function.update s.backend .block b }
  table_set _ _ _ := rfl
  bucket_set _ b s := Function.update_self (EntryType.block) b s.backend
  set_self s := by rw [Function.update_eq_self]

variable {ι α : Type} (sh : Shelf ι α) (as : List α) (o : Outcome) (s : FullStorage)

def entries : List (Bytes × Bytes) := as.map fun a => (sh.key a, sh.marshal a)

/-- Records are stored, in one transaction and one batch. -/
def store [Fintype ι] : Except Err Unit × FullStorage :=
  match (sh.table s).insertAll sh.schema as with
  | none => (.error .missing, s)
  | some t =>
    let (res, b) := putEntries (sh.entries as) o (sh.bucket s)
    (res, sh.set t b s)

/-- Records are deleted, in one transaction and one batch. -/
def drop : Except Err Unit × FullStorage :=
  match (sh.table s).deleteAll sh.schema as with
  | none => (.error .notFound, s)
  | some t =>
    let (res, b) := deleteKeys (as.map sh.key) o (sh.bucket s)
    (res, sh.set t b s)

end Shelf

end Shelves

namespace FullStorage

variable (pb : RoleCodecs) (o : Outcome) (s : FullStorage)

def storeFile (file : FileInfo) : Except Err Unit × FullStorage :=
  (Shelf.files pb).store [file] o s

def putBlocks (blocks : List BlockInfo) : Except Err Unit × FullStorage :=
  (Shelf.blocks pb).store blocks o s

def deleteFile (file : FileInfo) : Except Err Unit × FullStorage :=
  (Shelf.files pb).drop [file] o s

def deleteBlocks (blocks : List BlockInfo) : Except Err Unit × FullStorage :=
  (Shelf.blocks pb).drop blocks o s

/-- The second call of the backend is not made where the first returns an error. -/
def deleteFileWithBlocks (file : FileInfo) (o o' : Outcome) (s : FullStorage) :
    Except Err Unit × FullStorage :=
  let blocks := s.blocks.get .fileId file.id
  match s.blocks.deleteAll blocksTable blocks, s.files.delete filesTable file with
  | some table, some files =>
    let s := { s with files := files, blocks := table }
    match deleteKeys [file.path] o (s.backend .file) with
    | (.error e, _) => (.error e, s)
    | (.ok _, b) =>
      let s := { s with backend := Function.update s.backend .file b }
      let (res, b) := deleteKeys (blocks.map BlockInfo.id) o' (s.backend .block)
      (res, { s with backend := Function.update s.backend .block b })
  | _, _ => (.error .notFound, s)

def storeToken (token : Token) : Except Err Unit × FullStorage :=
  (Shelf.tokens pb).store [token] o s

def revokeToken (token : Token) : Except Err Unit × FullStorage :=
  (Shelf.tokens pb).drop [token] o s

def storePolicy (p : Policy) : Except Err Unit × FullStorage := (Shelf.policies pb).store [p] o s

def deletePolicy (p : Policy) : Except Err Unit × FullStorage := (Shelf.policies pb).drop [p] o s

def storeRole (role : Role) : Except Err Unit × FullStorage := (Shelf.roles pb).store [role] o s

def deleteRole (role : Role) : Except Err Unit × FullStorage := (Shelf.roles pb).drop [role] o s

end FullStorage

section Whole

/-- An operation that changes the storage, on the records it is given. -/
inductive Mutation
  | storeFile (file : FileInfo)
  | putBlocks (blocks : List BlockInfo)
  | deleteFile (file : FileInfo)
  | deleteFileWithBlocks (file : FileInfo)
  | deleteBlocks (blocks : List BlockInfo)
  | storeToken (token : Token)
  | revokeToken (token : Token)
  | storePolicy (p : Policy)
  | deletePolicy (p : Policy)
  | storeRole (role : Role)
  | deleteRole (role : Role)

/-- Only one of them makes a second call of the backend. -/
def Mutation.run (pb : RoleCodecs) (o o' : Outcome) (s : FullStorage) :
    Mutation → Except Err Unit × FullStorage
  | .storeFile file => s.storeFile pb o file
  | .putBlocks blocks => s.putBlocks pb o blocks
  | .deleteFile file => s.deleteFile pb o file
  | .deleteFileWithBlocks file => s.deleteFileWithBlocks file o o'
  | .deleteBlocks blocks => s.deleteBlocks pb o blocks
  | .storeToken token => s.storeToken pb o token
  | .revokeToken token => s.revokeToken pb o token
  | .storePolicy p => s.storePolicy pb o p
  | .deletePolicy p => s.deletePolicy pb o p
  | .storeRole role => s.storeRole pb o role
  | .deleteRole role => s.deleteRole pb o role

variable {ι α : Type} (sh : Shelf ι α) (as : List α) (s : FullStorage)

/-- The keys of the rows that are replaced or deleted. -/
def Shelf.goneKeys : List Bytes :=
  (as.filterMap fun a => (sh.table s).byId[sh.schema.id a]?).map sh.key

/-- The records are stored in both; nothing where the memory refuses them. -/
def Shelf.stored [Fintype ι] : Option FullStorage :=
  ((sh.table s).insertAll sh.schema as).map fun t =>
    sh.set t (((sh.bucket s).eraseAll (sh.goneKeys as s)).putAll (sh.entries as)) s

/-- The records are deleted from both; nothing where the memory refuses that. -/
def Shelf.dropped : Option FullStorage :=
  ((sh.table s).deleteAll sh.schema as).map fun t =>
    sh.set t ((sh.bucket s).eraseAll (sh.goneKeys as s)) s

/-- The complete change. -/
def Mutation.change (pb : RoleCodecs) (s : FullStorage) : Mutation → Option FullStorage
  | .storeFile file => (Shelf.files pb).stored [file] s
  | .putBlocks blocks => (Shelf.blocks pb).stored blocks s
  | .deleteFile file => (Shelf.files pb).dropped [file] s
  | .deleteFileWithBlocks file =>
    ((Shelf.blocks pb).dropped (s.blocks.get .fileId file.id) s).bind
      ((Shelf.files pb).dropped [file])
  | .deleteBlocks blocks => (Shelf.blocks pb).dropped blocks s
  | .storeToken token => (Shelf.tokens pb).stored [token] s
  | .revokeToken token => (Shelf.tokens pb).dropped [token] s
  | .storePolicy p => (Shelf.policies pb).stored [p] s
  | .deletePolicy p => (Shelf.policies pb).dropped [p] s
  | .storeRole role => (Shelf.roles pb).stored [role] s
  | .deleteRole role => (Shelf.roles pb).dropped [role] s

/-- `nil` is returned only if the change is complete, and with an error nothing is changed. -/
def AllOrNothing (s : FullStorage) (change : Option FullStorage)
    (res : Except Err Unit × FullStorage) : Prop :=
  match res with
  | (.ok _, s') => change = some s'
  | (.error _, s') => s' = s

/-- The backend does not fail, or only to put what it has, and has nothing of the rows that are
replaced under another key; or the batch fails and the memory has had the records before. -/
def Shelf.SureToStore [Fintype ι] (o : Outcome) : Prop :=
  ∀ t ∈ (sh.table s).insertAll sh.schema as,
    match o with
    | .shutdown | .failed => t = sh.table s
    | .done _ =>
      (∀ k v, OrdMap.lastPut (sh.entries as) k = some v →
        (OrdMap.lastPut (o.written (sh.entries as)) k).or (sh.bucket s)[k]? = some v)
      ∧ ∀ k ∈ sh.goneKeys as s, k ∈ sh.bucket s → k ∈ as.map sh.key

/-- Of the keys that the bucket has, those are deleted that are to be. -/
def Outcome.Deletes (o : Outcome) (keys gone : List Bytes) (bucket : OrdMap Bytes Bytes) : Prop :=
  ∀ k ∈ bucket, k ∈ o.kept keys ↔ k ∈ gone

def Shelf.SureToDrop (o : Outcome) : Prop :=
  ((sh.table s).deleteAll sh.schema as).isSome →
    match o with
    | .shutdown => as = []
    | .failed | .done _ => o.Deletes (as.map sh.key) (sh.goneKeys as s) (sh.bucket s)

def FullStorage.SureToDelete (pb : RoleCodecs) (o o' : Outcome) (file : FileInfo)
    (s : FullStorage) : Prop :=
  let blocks := s.blocks.get .fileId file.id
  (s.blocks.deleteAll blocksTable blocks).isSome → (s.getFile file.id).isSome →
    match o, o' with
    | .shutdown, _ | _, .shutdown => False
    | _, _ =>
      o.Deletes [file.path] ((Shelf.files pb).goneKeys [file] s) (s.backend .file)
      ∧ o'.Deletes (blocks.map BlockInfo.id) ((Shelf.blocks pb).goneKeys blocks s)
        (s.backend .block)

/-- The memory refuses the change, or what the backend fails to do makes no difference. -/
def Mutation.Sure (pb : RoleCodecs) (o o' : Outcome) (s : FullStorage) : Mutation → Prop
  | .storeFile file => (Shelf.files pb).SureToStore [file] s o
  | .putBlocks blocks => (Shelf.blocks pb).SureToStore blocks s o
  | .deleteFile file => (Shelf.files pb).SureToDrop [file] s o
  | .deleteFileWithBlocks file => s.SureToDelete pb o o' file
  | .deleteBlocks blocks => (Shelf.blocks pb).SureToDrop blocks s o
  | .storeToken token => (Shelf.tokens pb).SureToStore [token] s o
  | .revokeToken token => (Shelf.tokens pb).SureToDrop [token] s o
  | .storePolicy p => (Shelf.policies pb).SureToStore [p] s o
  | .deletePolicy p => (Shelf.policies pb).SureToDrop [p] s o
  | .storeRole role => (Shelf.roles pb).SureToStore [role] s o
  | .deleteRole role => (Shelf.roles pb).SureToDrop [role] s o

end Whole

section Backend

variable {o : Outcome} {keys gone : List Bytes} {bucket : OrdMap Bytes Bytes}

theorem Outcome.kept_sublist {α : Type} (o : Outcome) (xs : List α) : (o.kept xs).Sublist xs := by
  cases o with
  | shutdown | failed => exact List.nil_sublist _
  | done fails =>
    have hsub : ((xs.zipIdx.filter fun x => !fails x.2).map Prod.fst).Sublist
        (xs.zipIdx.map Prod.fst) := List.filter_sublist.map _
    rwa [List.zipIdx_map_fst] at hsub

theorem Outcome.written_sublist (o : Outcome) (entries : List (Bytes × Bytes)) :
    (o.written entries).Sublist entries :=
  List.filter_sublist.trans (o.kept_sublist entries)

theorem deleteKeys_eq (ho : o ≠ .shutdown) :
    deleteKeys keys o bucket = (.ok (), bucket.eraseAll (o.kept keys)) := by
  cases o with
  | shutdown => exact absurd rfl ho
  | failed | done fails => rfl

end Backend

namespace Shelf

variable {ι α : Type} {sh : Shelf ι α} {as : List α} {o : Outcome} {s : FullStorage}
  {t t' : Table ι α} {b b' : OrdMap Bytes Bytes}

theorem set_inj : sh.set t b s = sh.set t' b' s ↔ t = t' ∧ b = b' := by
  constructor
  · intro h
    have ht := congrArg sh.table h
    have hb := congrArg sh.bucket h
    rw [sh.table_set, sh.table_set] at ht
    rw [sh.bucket_set, sh.bucket_set] at hb
    exact ⟨ht, hb⟩
  · rintro ⟨rfl, rfl⟩
    rfl

theorem set_eq_self : sh.set t (sh.bucket s) s = s ↔ t = sh.table s := by
  conv_lhs => rhs; rw [← sh.set_self s]
  rw [set_inj]
  exact and_iff_left rfl

theorem some_set_inj : some (sh.set t b s) = some (sh.set t b' s) ↔ b' = b := by
  rw [Option.some.injEq, set_inj, and_iff_right rfl, eq_comm]

theorem store_allOrNothing_iff [Fintype ι] :
    AllOrNothing s (sh.stored as s) (sh.store as o s) ↔ sh.SureToStore as s o := by
  unfold store stored SureToStore
  rcases (sh.table s).insertAll sh.schema as with _ | t
  · simp [AllOrNothing]
  simp only [Option.mem_some_iff, forall_eq', Option.map_some]
  cases o with
  | shutdown | failed => exact set_eq_self
  | done fails =>
    have hkeys : (sh.entries as).map Prod.fst = as.map sh.key := by
      rw [entries, List.map_map]
      rfl
    rw [← hkeys]
    exact some_set_inj.trans (OrdMap.putAll_eq_iff (Outcome.written_sublist _ _))

theorem drop_allOrNothing_iff :
    AllOrNothing s (sh.dropped as s) (sh.drop as o s) ↔ sh.SureToDrop as s o := by
  unfold drop dropped SureToDrop
  rcases hdel : (sh.table s).deleteAll sh.schema as with _ | t
  · simp [AllOrNothing]
  simp only [Option.isSome_some, forall_const, Option.map_some]
  by_cases ho : o = .shutdown
  · subst ho
    refine set_eq_self.trans ⟨fun h => ?_, fun h => ?_⟩
    · subst h
      rcases as with _ | ⟨a, as⟩
      · rfl
      · exact absurd rfl (Table.deleteAll_ne hdel)
    · subst h
      exact (Option.some.inj hdel).symm
  · rw [deleteKeys_eq ho]
    cases o with
    | shutdown => exact absurd rfl ho
    | failed | done fails => exact some_set_inj.trans OrdMap.eraseAll_eq_iff

end Shelf

namespace FullStorage

variable {pb : RoleCodecs} {file : FileInfo} {o o' : Outcome} {s : FullStorage}
  {table table' : Table BlockIndex BlockInfo} {files files' : Table FileIndex FileInfo}
  {bf bf' bb bb' : OrdMap Bytes Bytes}

theorem bucket_set_files :
    (Shelf.blocks pb).bucket ((Shelf.files pb).set files bf s) = (Shelf.blocks pb).bucket s :=
  Function.update_of_ne (show EntryType.block ≠ .file by decide) bf s.backend

theorem set_files_blocks_inj : (Shelf.files pb).set files bf ((Shelf.blocks pb).set table bb s)
    = (Shelf.files pb).set files' bf' ((Shelf.blocks pb).set table' bb' s)
      ↔ files = files' ∧ table = table' ∧ bf = bf' ∧ bb = bb' := by
  constructor
  · intro h
    have hfiles := congrArg (Shelf.files pb).table h
    have htable := congrArg (Shelf.blocks pb).table h
    have hbf := congrArg (Shelf.files pb).bucket h
    have hbb := congrArg (Shelf.blocks pb).bucket h
    rw [(Shelf.files pb).bucket_set, (Shelf.files pb).bucket_set] at hbf
    rw [bucket_set_files, bucket_set_files, (Shelf.blocks pb).bucket_set,
      (Shelf.blocks pb).bucket_set] at hbb
    exact ⟨hfiles, htable, hbf, hbb⟩
  · rintro ⟨rfl, rfl, rfl, rfl⟩
    rfl

theorem deleteFileWithBlocks_eq (pb : RoleCodecs)
    (htable : s.blocks.deleteAll blocksTable (s.blocks.get .fileId file.id) = some table)
    (hfiles : s.files.delete filesTable file = some files) (ho : o ≠ .shutdown)
    (ho' : o' ≠ .shutdown) : s.deleteFileWithBlocks file o o' = (.ok (),
      (Shelf.files pb).set files ((s.backend .file).eraseAll (o.kept [file.path]))
        ((Shelf.blocks pb).set table ((s.backend .block).eraseAll
          (o'.kept ((s.blocks.get .fileId file.id).map BlockInfo.id))) s)) := by
  simp only [deleteFileWithBlocks, htable, hfiles, deleteKeys_eq ho, deleteKeys_eq ho']
  rw [Function.update_of_ne (by decide)]
  simp only [Shelf.files, Shelf.blocks]
  rw [Function.update_comm (by decide)]

/-- With a closed backend the memory is changed, and an error returned. -/
theorem deleteFileWithBlocks_shutdown
    (htable : s.blocks.deleteAll blocksTable (s.blocks.get .fileId file.id) = some table)
    (hfiles : s.files.delete filesTable file = some files)
    (hshut : o = .shutdown ∨ o' = .shutdown) :
    ∃ e s', s.deleteFileWithBlocks file o o' = (.error e, s') ∧ s'.files = files := by
  by_cases ho : o = .shutdown
  · subst ho
    simp only [deleteFileWithBlocks, htable, hfiles, deleteKeys]
    exact ⟨_, _, rfl, rfl⟩
  · obtain rfl := hshut.resolve_left ho
    simp only [deleteFileWithBlocks, htable, hfiles, deleteKeys_eq ho]
    exact ⟨_, _, rfl, rfl⟩

theorem deleteFileWithBlocks_refused
    (h : s.blocks.deleteAll blocksTable (s.blocks.get .fileId file.id) = none
      ∨ s.files.delete filesTable file = none) :
    s.deleteFileWithBlocks file o o' = (.error .notFound, s) := by
  unfold deleteFileWithBlocks
  dsimp only
  split
  · rename_i htable hfiles
    rcases h with h | h
    · rw [h] at htable
      cases htable
    · rw [h] at hfiles
      cases hfiles
  · rfl

theorem isSome_delete : (s.files.delete filesTable file).isSome = (s.getFile file.id).isSome := by
  unfold Table.delete
  rcases hfile : s.getFile file.id with _ | old <;>
    rw [show s.files.byId[filesTable.id file]? = _ from hfile]
  · rfl
  · rfl

theorem change_deleteFileWithBlocks
    (htable : s.blocks.deleteAll blocksTable (s.blocks.get .fileId file.id) = some table)
    (hfiles : s.files.delete filesTable file = some files) :
    (Mutation.deleteFileWithBlocks file).change pb s = some ((Shelf.files pb).set files
      ((s.backend .file).eraseAll ((Shelf.files pb).goneKeys [file] s))
        ((Shelf.blocks pb).set table ((s.backend .block).eraseAll
          ((Shelf.blocks pb).goneKeys (s.blocks.get .fileId file.id) s)) s)) := by
  have hblocks : (Shelf.blocks pb).dropped (s.blocks.get .fileId file.id) s = some
      ((Shelf.blocks pb).set table ((s.backend .block).eraseAll
        ((Shelf.blocks pb).goneKeys (s.blocks.get .fileId file.id) s)) s) := by
    rw [Shelf.dropped, show (Shelf.blocks pb).table s = s.blocks from rfl, Option.map_eq_some_iff]
    exact ⟨table, htable, rfl⟩
  rw [Mutation.change, hblocks, Option.bind_some, Shelf.dropped, Option.map_eq_some_iff]
  refine ⟨files, Table.deleteAll_singleton.trans hfiles, ?_⟩
  rfl

theorem deleteFileWithBlocks_allOrNothing_iff :
    AllOrNothing s ((Mutation.deleteFileWithBlocks file).change pb s)
      (s.deleteFileWithBlocks file o o') ↔ s.SureToDelete pb o o' file := by
  unfold SureToDelete
  rw [← isSome_delete]
  rcases htable : s.blocks.deleteAll blocksTable (s.blocks.get .fileId file.id) with _ | table
  · rw [deleteFileWithBlocks_refused (.inl htable)]
    simp [AllOrNothing, htable]
  rcases hfiles : s.files.delete filesTable file with _ | files
  · rw [deleteFileWithBlocks_refused (.inr hfiles)]
    simp [AllOrNothing]
  simp only [htable, Option.isSome_some, forall_const]
  by_cases hshut : o = .shutdown ∨ o' = .shutdown
  · obtain ⟨e, s', hres, hs'⟩ := deleteFileWithBlocks_shutdown htable hfiles hshut
    rw [hres]
    refine iff_of_false (fun h => ?_) (fun h => ?_)
    · obtain rfl : s' = s := h
      subst hs'
      exact Table.deleteAll_ne (Table.deleteAll_singleton.trans hfiles) rfl
    · rcases hshut with rfl | rfl
      · exact h
      · rcases o with _ | _ | _ <;> exact h
  · obtain ⟨ho, ho'⟩ := not_or.mp hshut
    have hiff : AllOrNothing s ((Mutation.deleteFileWithBlocks file).change pb s)
        (s.deleteFileWithBlocks file o o')
          ↔ o.Deletes [file.path] ((Shelf.files pb).goneKeys [file] s) (s.backend .file)
            ∧ o'.Deletes ((s.blocks.get .fileId file.id).map BlockInfo.id)
              ((Shelf.blocks pb).goneKeys (s.blocks.get .fileId file.id) s)
              (s.backend .block) := by
      rw [change_deleteFileWithBlocks htable hfiles,
        deleteFileWithBlocks_eq pb htable hfiles ho ho', AllOrNothing, eq_comm,
        Option.some.injEq, set_files_blocks_inj, and_iff_right rfl, and_iff_right rfl]
      exact and_congr OrdMap.eraseAll_eq_iff OrdMap.eraseAll_eq_iff
    rcases o with _ | _ | _
    · exact absurd rfl ho
    all_goals
      rcases o' with _ | _ | _
      · exact absurd rfl ho'
      · exact hiff
      · exact hiff

end FullStorage

section Coarse

/-- A call that succeeds, or fails as a whole. -/
def Outcome.ofBool : Bool → Outcome
  | true => .done fun _ => false
  | false => .failed

theorem kept_ofBool {α : Type} (xs : List α) : (Outcome.ofBool true).kept xs = xs := by
  have hall : (xs.zipIdx.filter fun _ => !false) = xs.zipIdx :=
    List.filter_eq_self.mpr fun _ _ => rfl
  rw [Outcome.ofBool, Outcome.kept, hall, List.zipIdx_map_fst]

/-- The operation on the storage without roles, if it is one. -/
def Mutation.onStorage (pb : RoleCodecs) (ok ok' : Bool) (s : Storage) :
    Mutation → Option (Except Err Unit × Storage)
  | .storeFile file => some (s.storeFile pb.toCodecs file ok)
  | .putBlocks blocks => some (s.putBlocks pb.toCodecs blocks ok)
  | .deleteFile file => some (s.deleteFile file ok)
  | .deleteFileWithBlocks file => some (s.deleteFileWithBlocks file ok ok')
  | .deleteBlocks blocks => some (s.deleteBlocks blocks ok)
  | .storeToken token => some (s.storeToken pb.toCodecs token ok)
  | .revokeToken token => some (s.revokeToken token ok)
  | .storePolicy p => some (s.storePolicy pb.toCodecs p ok)
  | .deletePolicy p => some (s.deletePolicy p ok)
  | .storeRole _ | .deleteRole _ => none

def Mutation.putKeys : Mutation → List Bytes
  | .storeFile file => [file.path]
  | .putBlocks blocks => blocks.map BlockInfo.id
  | .storeToken token => [token.id]
  | .storePolicy p => [p.name]
  | .storeRole role => [role.id]
  | _ => []

theorem putEntries_ofBool {entries : List (Bytes × Bytes)}
    (h : ∀ e ∈ entries, storable e.1 = true) (ok : Bool) (bucket : OrdMap Bytes Bytes) :
    putEntries entries (.ofBool ok) bucket
      = if ok then (.ok (), bucket.putAll entries) else (.error .backend, bucket) := by
  cases ok with
  | false => rfl
  | true =>
    have hwritten : (Outcome.ofBool true).written entries = entries := by
      rw [Outcome.written, kept_ofBool, List.filter_eq_self.mpr h]
    exact congrArg (fun es => (Except.ok (), bucket.putAll es)) hwritten

theorem deleteKeys_ofBool (keys : List Bytes) (ok : Bool) (bucket : OrdMap Bytes Bytes) :
    deleteKeys keys (.ofBool ok) bucket
      = (.ok (), if ok then bucket.eraseAll keys else bucket) := by
  cases ok with
  | false => rfl
  | true => exact congrArg (fun ks => (Except.ok (), bucket.eraseAll ks)) (kept_ofBool keys)

variable {ι α : Type} (sh : Shelf ι α) (as : List α) {pb : RoleCodecs} {s : FullStorage}
  {ok ok' : Bool}

theorem Shelf.store_ofBool [Fintype ι] (h : ∀ k ∈ as.map sh.key, storable k = true) :
    sh.store as (.ofBool ok) s
      = match (sh.table s).insertAll sh.schema as, ok with
        | none, _ => (.error .missing, s)
        | some t, false => (.error .backend, sh.set t (sh.bucket s) s)
        | some t, true => (.ok (), sh.set t ((sh.bucket s).putAll (sh.entries as)) s) := by
  have hentries : ∀ e ∈ sh.entries as, storable e.1 = true := fun e he => by
    obtain ⟨a, ha, rfl⟩ := List.mem_map.mp he
    exact h _ (List.mem_map_of_mem ha)
  unfold store
  rw [putEntries_ofBool hentries]
  rcases (sh.table s).insertAll sh.schema as with _ | t <;> cases ok <;> rfl

theorem Shelf.drop_ofBool : sh.drop as (.ofBool ok) s
    = match (sh.table s).deleteAll sh.schema as, ok with
      | none, _ => (.error .notFound, s)
      | some t, false => (.ok (), sh.set t (sh.bucket s) s)
      | some t, true => (.ok (), sh.set t ((sh.bucket s).eraseAll (as.map sh.key)) s) := by
  unfold drop
  rw [deleteKeys_ofBool]
  rcases (sh.table s).deleteAll sh.schema as with _ | t <;> cases ok <;> rfl

theorem FullStorage.deleteFileWithBlocks_toStorage (file : FileInfo) :
    (s.deleteFileWithBlocks file (.ofBool ok) (.ofBool ok')).map id FullStorage.toStorage
      = s.toStorage.deleteFileWithBlocks file ok ok' := by
  unfold deleteFileWithBlocks Storage.deleteFileWithBlocks
  rcases htable : s.blocks.deleteAll blocksTable (s.blocks.get .fileId file.id) with _ | table
  · simp only [htable]
    rfl
  rcases hfiles : s.files.delete filesTable file with _ | files
  · simp only [htable]
    rfl
  simp only [htable, deleteKeys_ofBool, Storage.remove]
  cases ok <;> cases ok' <;> simp only [Bool.false_eq_true, if_true, if_false,
    Function.update_eq_self] <;> rfl

/-- Where bolt takes the keys and no single put or deletion fails, the operations are those on the
storage without roles. -/
theorem Mutation.run_toStorage {m : Mutation} (hkeys : ∀ k ∈ m.putKeys, storable k = true)
    {res : Except Err Unit × Storage} (hres : m.onStorage pb ok ok' s.toStorage = some res) :
    (m.run pb (.ofBool ok) (.ofBool ok') s).map id FullStorage.toStorage = res := by
  cases m with
  | storeRole | deleteRole => cases hres
  | deleteFileWithBlocks file =>
    obtain rfl := Option.some.inj hres
    exact s.deleteFileWithBlocks_toStorage file
  | storeFile r | storeToken r | storePolicy r =>
    obtain rfl := Option.some.inj hres
    change Prod.map id _ (Shelf.store _ [r] _ s) = _
    rw [Shelf.store_ofBool _ _ (by exact hkeys)]
    simp only [Shelf.files, Shelf.tokens, Shelf.policies, Table.insertAll_singleton,
      Storage.storeFile, Storage.storeToken, Storage.storePolicy, Storage.put]
    split <;> simp only [*, Function.update_eq_self] <;> rfl
  | putBlocks blocks =>
    obtain rfl := Option.some.inj hres
    change Prod.map id _ (Shelf.store _ blocks _ s) = _
    rw [Shelf.store_ofBool _ _ (by exact hkeys)]
    simp only [Shelf.blocks, Storage.putBlocks, Storage.put]
    split <;> simp only [*, Function.update_eq_self] <;> rfl
  | deleteFile r | revokeToken r | deletePolicy r =>
    obtain rfl := Option.some.inj hres
    change Prod.map id _ (Shelf.drop _ [r] _ s) = _
    rw [Shelf.drop_ofBool]
    simp only [Shelf.files, Shelf.tokens, Shelf.policies, Table.deleteAll_singleton,
      Storage.deleteFile, Storage.revokeToken, Storage.deletePolicy, Storage.remove]
    split <;> simp only [*, Function.update_eq_self] <;> rfl
  | deleteBlocks blocks =>
    obtain rfl := Option.some.inj hres
    change Prod.map id _ (Shelf.drop _ blocks _ s) = _
    rw [Shelf.drop_ofBool]
    simp only [Shelf.blocks, Storage.deleteBlocks, Storage.remove]
    split <;> simp only [*, Function.update_eq_self] <;> rfl

end Coarse

/-- Whatever the storage is, the records are and becomes of the calls of the backend: an operation
returns `nil` only if the memory and the backend have the complete change, and an error only if both
are as they were, if and only if the memory refuses the change or what the backend fails to do makes
no difference. -/
theorem mutation_allOrNothing_iff (pb : RoleCodecs) (m : Mutation) (o o' : Outcome)
    (s : FullStorage) : AllOrNothing s (m.change pb s) (m.run pb o o' s) ↔ m.Sure pb o o' s := by
  cases m with
  | storeFile | putBlocks | storeToken | storePolicy | storeRole =>
    exact Shelf.store_allOrNothing_iff
  | deleteFile | deleteBlocks | revokeToken | deletePolicy | deleteRole =>
    exact Shelf.drop_allOrNothing_iff
  | deleteFileWithBlocks => exact FullStorage.deleteFileWithBlocks_allOrNothing_iff

section Failures

variable {ι α : Type} {sh : Shelf ι α} {a : α} {s : FullStorage} {t : Table ι α}

/-- A batch that fails leaves a new record in memory. -/
theorem Shelf.not_allOrNothing_failed [Fintype ι] (ha : sh.schema.Full a)
    (hnew : ¬ (sh.table s).Has sh.schema a) : (sh.store [a] .failed s).1 = .error .backend
      ∧ ¬ AllOrNothing s (sh.stored [a] s) (sh.store [a] .failed s) := by
  obtain ⟨t, hins⟩ := Table.insert_of_full (t := sh.table s) ha
  have hins' := Table.insertAll_singleton.trans hins
  refine ⟨by rw [store, hins']; rfl, fun h => hnew ?_⟩
  have ht : t = sh.table s := store_allOrNothing_iff.mp h t hins'
  exact ht ▸ (Table.has_insert hins).mpr (.inl rfl)

/-- A new record whose key is not taken is not in the backend. -/
theorem Shelf.not_allOrNothing_unstorable [Fintype ι] (sh : Shelf ι α) (ha : sh.schema.Full a)
    (hkey : storable (sh.key a) = false) (hnew : (sh.bucket s)[sh.key a]? = none)
    (fails : ℕ → Bool) : (sh.store [a] (.done fails) s).1 = .ok ()
      ∧ ¬ AllOrNothing s (sh.stored [a] s) (sh.store [a] (.done fails) s) := by
  obtain ⟨t, hins⟩ := Table.insert_of_full (t := sh.table s) ha
  have hins' := Table.insertAll_singleton.trans hins
  refine ⟨by rw [store, hins']; rfl, fun h => ?_⟩
  have hwritten : (Outcome.done fails).written (sh.entries [a]) = [] := by
    refine List.filter_eq_nil_iff.mpr fun e he => ?_
    obtain rfl := List.mem_singleton.mp ((Outcome.kept_sublist _ _).subset he)
    simpa using hkey
  have hput := (store_allOrNothing_iff.mp h t hins').1 (sh.key a) (sh.marshal a)
    (by simp [OrdMap.lastPut, entries])
  rw [hwritten, hnew] at hput
  cases hput

/-- A record whose deletion fails is still in the backend. -/
theorem Shelf.not_allOrNothing_kept (ha : (sh.table s).Has sh.schema a)
    (hin : sh.key a ∈ sh.bucket s) : (sh.drop [a] .failed s).1 = .ok ()
      ∧ ¬ AllOrNothing s (sh.dropped [a] s) (sh.drop [a] .failed s) := by
  have hdel : (sh.table s).deleteAll sh.schema [a] = some _ :=
    Table.deleteAll_singleton.trans (Table.delete_of_has ha)
  refine ⟨by rw [drop, hdel]; rfl, fun h => ?_⟩
  have hsure := drop_allOrNothing_iff.mp h (by rw [hdel]; rfl) (sh.key a) hin
  have hgone : sh.key a ∈ sh.goneKeys [a] s :=
    List.mem_map_of_mem (List.mem_filterMap.mpr ⟨a, List.mem_singleton_self a, ha⟩)
  exact List.not_mem_nil (hsure.mpr hgone)

theorem Shelf.store_has [Fintype ι] (sh : Shelf ι α) (ha : sh.schema.Full a)
    (hkey : storable (sh.key a) = true) :
    (sh.table (sh.store [a] (.done fun _ => false) s).2).Has sh.schema a
      ∧ sh.key a ∈ sh.bucket (sh.store [a] (.done fun _ => false) s).2 := by
  obtain ⟨t, hins⟩ := Table.insert_of_full (t := sh.table s) ha
  have hwritten : (Outcome.done fun _ => false).written (sh.entries [a])
      = [(sh.key a, sh.marshal a)] := List.filter_cons_of_pos hkey
  rw [store, Table.insertAll_singleton.trans hins]
  change (sh.table (sh.set t (putEntries _ _ _).2 s)).Has _ _ ∧ _ ∈ sh.bucket (sh.set t _ s)
  rw [sh.table_set, sh.bucket_set]
  exact ⟨(Table.has_insert hins).mpr (.inl rfl), by
    rw [putEntries, hwritten]; exact Std.ExtTreeMap.mem_insert_self⟩

end Failures

def someToken : Token := ⟨[1], [], [], [1], 1000, 0, [], [], false⟩

/-- A policy with a name that is too long for a key. -/
def longNamed : Policy := ⟨[1], List.replicate (maxKeySize + 1) 97, []⟩

theorem full_longNamed : policiesTable.Full longNamed :=
  ⟨by decide, fun i => by cases i; exact List.cons_ne_nil _ _⟩

theorem storable_longNamed : storable longNamed.name = false := by
  simp [storable, longNamed]

/-- The token is stored in memory and in the backend. -/
noncomputable def withToken : FullStorage :=
  (FullStorage.empty.storeToken someRoleCodecs (.done fun _ => false) someToken).2

/-- A token whose batch fails is in memory, and an error is returned. A policy with a name that is
too long is not in the backend, and `nil` is returned; so it is for a token whose deletion fails,
which is not gone from the backend. -/
theorem not_allOrNothing_examples :
    ((FullStorage.empty.storeToken someRoleCodecs .failed someToken).1 = .error .backend
      ∧ ¬ AllOrNothing .empty ((Mutation.storeToken someToken).change someRoleCodecs .empty)
        (FullStorage.empty.storeToken someRoleCodecs .failed someToken))
    ∧ ((FullStorage.empty.storePolicy someRoleCodecs (.done fun _ => false) longNamed).1 = .ok ()
      ∧ ¬ AllOrNothing .empty ((Mutation.storePolicy longNamed).change someRoleCodecs .empty)
        (FullStorage.empty.storePolicy someRoleCodecs (.done fun _ => false) longNamed))
    ∧ (withToken.revokeToken someRoleCodecs .failed someToken).1 = .ok ()
      ∧ ¬ AllOrNothing withToken ((Mutation.revokeToken someToken).change someRoleCodecs withToken)
        (withToken.revokeToken someRoleCodecs .failed someToken) := by
  refine ⟨Shelf.not_allOrNothing_failed (by decide) Table.not_has_empty, ?_, ?_⟩
  · exact (Shelf.policies someRoleCodecs).not_allOrNothing_unstorable full_longNamed
      storable_longNamed rfl _
  · have htoken := (Shelf.tokens someRoleCodecs).store_has (s := .empty) (a := someToken)
      (by decide) rfl
    exact Shelf.not_allOrNothing_kept htoken.1 htoken.2

end Rhosus.Registry

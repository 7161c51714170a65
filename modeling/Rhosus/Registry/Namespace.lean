import Rhosus.Lib.Runs
import Rhosus.Registry.Handlers
import Mathlib.Algebra.Order.BigOperators.Group.List
import Mathlib.Logic.Relation

/-!
# The tree of files

A request that creates a file looks for the file at the path above it, and takes its id for the
parent's; it does not look whether that file is a directory. As long as what it finds there is one,
the files make a tree, and only then (`tree_iff`). In a tree only a directory has children, so that
`killChildren` deletes nothing and comes to an end.
-/

namespace Rhosus.Registry

section Paths

variable {path : Bytes}

theorem exists_eq_append (h : slash ∈ path) :
    ∃ dir base, path = dir ++ slash :: base ∧ slash ∉ base := by
  obtain ⟨base, dir, hpath, hbase⟩ := List.eq_append_cons_of_mem (List.mem_reverse.mpr h)
  refine ⟨dir.reverse, base.reverse, ?_, fun hb => hbase (List.mem_reverse.mp hb)⟩
  rw [← List.reverse_reverse path, hpath]
  simp

theorem split_append {dir base : Bytes} (h : slash ∉ base) :
    split (dir ++ slash :: base) = split dir ++ [base] := by
  rw [split, List.splitOn_append_cons_self, List.splitOn_eq_singleton h, split]

theorem parentPath_append {dir base : Bytes} (h : slash ∉ base) :
    parentPath (dir ++ slash :: base) = dir := by
  rw [parentPath, split_append h, List.dropLast_concat, split, List.intercalate_splitOn]

theorem parentPath_length (h : slash ∈ path) : (parentPath path).length < path.length := by
  obtain ⟨dir, base, rfl, hbase⟩ := exists_eq_append h
  rw [parentPath_append hbase, List.length_append, List.length_cons]
  omega

theorem length_split : 1 < (split path).length ↔ slash ∈ path := by
  constructor
  · intro h
    by_contra hs
    rw [split, List.splitOn_eq_singleton hs] at h
    simp at h
  · intro h
    obtain ⟨dir, base, rfl, hbase⟩ := exists_eq_append h
    have hne : split dir ≠ [] := List.splitOn_ne_nil slash dir
    rw [split_append hbase, List.length_append, List.length_singleton]
    have := List.length_pos_iff.mpr hne
    omega

end Paths

def Storage.Stored (s : Storage) (file : FileInfo) : Prop := s.getFile file.id = some file

/-- A file that is not at the top has the directory for its parent that is at its path without the
last component. -/
def Storage.Parented (s : Storage) : Prop :=
  ∀ f, s.Stored f → slash ∈ f.path →
    ∃ d, s.Stored d ∧ d.type = .dir ∧ d.id = f.parentID ∧ d.path = parentPath f.path

structure Tree (s : Storage) : Prop where
  path : ∀ f g, s.Stored f → s.Stored g → f.path = g.path → f = g
  top : ∀ f, s.Stored f → slash ∉ f.path → f.parentID = root
  parent : s.Parented

/-- What holds of the table of files, be it a tree or not. -/
structure Indexed (files : Table FileIndex FileInfo) : Prop where
  sound : files.Sound filesTable
  complete : ∀ i, files.Complete filesTable i
  id : ∀ f, files.Has filesTable f → f.id ≠ root
  top : ∀ f, files.Has filesTable f → slash ∉ f.path → f.parentID = root

section Indexed

variable {s : Storage} {files files' : Table FileIndex FileInfo} {f d : FileInfo}

theorem indexed_empty : Indexed .empty where
  sound := Table.sound_empty
  complete _ := Table.complete_empty
  id _ h := absurd h Table.not_has_empty
  top _ h := absurd h Table.not_has_empty

theorem Storage.Stored.eq (hf : s.Stored f) (hd : s.Stored d) (h : f.id = d.id) : f = d := by
  unfold Stored at hf
  rw [h, hd] at hf
  exact (Option.some.inj hf).symm

theorem Indexed.getFileByPath_iff (h : Indexed s.files) {path : Bytes} :
    s.getFileByPath path = some f ↔ s.Stored f ∧ f.path = path :=
  Table.first_iff h.sound (h.complete .path) rfl

theorem Indexed.mem_children_iff (h : Indexed s.files) {id : Bytes} :
    f ∈ s.getFilesByParentId id ↔ s.Stored f ∧ f.parentID = id :=
  Table.mem_get h.sound (h.complete .parentId)

theorem Indexed.tree (h : Indexed s.files) (hp : s.Parented) : Tree s where
  path f g hf hg hpath := (h.complete .path).inj hf hg (by
    rw [filesTable_pathKey, filesTable_pathKey, hpath])
  top := h.top
  parent := hp

/-- Deletions lead from one table to the other. -/
abbrev Deletes : Table FileIndex FileInfo → Table FileIndex FileInfo → Prop :=
  Relation.ReflTransGen fun files files' => ∃ f, files.delete filesTable f = some files'

theorem Indexed.deletes (h : Indexed files) (hd : Deletes files files') : Indexed files' := by
  induction hd with
  | refl => exact h
  | tail _ hdel ih =>
    obtain ⟨f, hdel⟩ := hdel
    exact
      { sound := ih.sound.delete hdel
        complete := fun i => (ih.complete i).delete ih.sound hdel
        id := fun g hg => ih.id g ((Table.has_delete hdel).mp hg).1
        top := fun g hg => ih.top g ((Table.has_delete hdel).mp hg).1 }

end Indexed

section Create

variable {s : Storage} {file : FileInfo}

/-- The table of files after a request for a new file. -/
def Storage.create (file : FileInfo) (s : Storage) : Table FileIndex FileInfo :=
  match s.getFileByPath file.path, s.parentID file.path with
  | none, some parentID => (s.files.insert filesTable { file with parentID }).getD s.files
  | _, _ => s.files

theorem Leader.writeEntry_storage (typ : Cluster.EntryType) (data : Bytes) (ok : Bool)
    (r : Leader) : (r.writeEntry typ data ok).2.storage = r.storage := by
  unfold Leader.writeEntry
  split_ifs <;> rfl

theorem storeAndWrite_files (env : Env) (fate : Fate) (file : FileInfo) (r : Leader) :
    (storeAndWrite env fate file r).2.storage.files
      = (r.storage.files.insert filesTable file).getD r.storage.files := by
  unfold storeAndWrite Storage.storeFile
  rcases r.storage.files.insert filesTable file with _ | files
  · rfl
  · unfold Storage.put Leader.writeEntry
    cases fate.put <;> cases fate.write <;> rfl

theorem handleMakeDir_files (env : Env) (fate : Fate) (path uid : Bytes) (r : Leader) :
    (handleMakeDir env fate path uid r).2.storage.files
      = r.storage.create (newDir (trim path) uid []) := by
  have hstore := fun parentID => storeAndWrite_files env fate (newDir (trim path) uid parentID) r
  unfold handleMakeDir Storage.create
  dsimp only [newDir] at hstore ⊢
  rcases r.storage.getFileByPath (trim path) with _ | dir
  · rcases r.storage.parentID (trim path) with _ | parentID
    · rfl
    · dsimp only
      rw [← hstore parentID]
      split <;> rename_i hs <;> rw [hs]
  · rfl

theorem registerFile_files (env : Env) (fate : Fate) (file : FileInfo) (r : Leader) :
    (registerFile env fate file r).2.storage.files = r.storage.create file := by
  have hstore := fun parentID => storeAndWrite_files env fate { file with parentID } r
  unfold registerFile Storage.create
  rcases r.storage.getFileByPath file.path with _ | f
  · rcases r.storage.parentID file.path with _ | parentID
    · rfl
    · exact hstore parentID
  · rfl

theorem parentID_eq (path : Bytes) (s : Storage) : s.parentID path
    = if slash ∈ path then (s.getFileByPath (parentPath path)).map FileInfo.id else some root :=
  if_congr length_split rfl rfl

variable {s' : Storage}

theorem stored_create (hid : s.getFile file.id = none) (hs' : s'.files = s.create file)
    {f : FileInfo} : s'.Stored f ↔ s.Stored f ∨ s.getFileByPath file.path = none
      ∧ ∃ parentID, s.parentID file.path = some parentID
        ∧ filesTable.Full { file with parentID } ∧ f = { file with parentID } := by
  have hnew : ∀ f, s.Stored f → f.id ≠ file.id := by
    intro f hf he
    rw [Storage.Stored, he, hid] at hf
    cases hf
  change s'.files.Has filesTable f ↔ _
  rw [hs', Storage.create]
  rcases s.getFileByPath file.path with _ | g
  · rcases s.parentID file.path with _ | parentID
    · exact (or_iff_left fun h => by simp at h).symm
    · dsimp only
      rcases hi : s.files.insert filesTable { file with parentID } with _ | files
      · refine (or_iff_left ?_).symm
        rintro ⟨-, parentID', hp, hfull, -⟩
        obtain rfl := Option.some.inj hp
        obtain ⟨t, ht⟩ := Table.insert_of_full (t := s.files) hfull
        rw [hi] at ht
        cases ht
      · have hfull := Table.full_of_insert hi
        rw [Option.getD_some, Table.has_insert hi]
        simp only [Option.some.injEq, true_and, exists_eq_left', hfull]
        constructor
        · rintro (rfl | ⟨hf, -⟩)
          · exact .inr rfl
          · exact .inl hf
        · rintro (hf | rfl)
          · exact .inr ⟨hf, hnew f hf⟩
          · exact .inl rfl
  · exact (or_iff_left fun h => by simp at h).symm

theorem Indexed.create (h : Indexed s.files) (hroot : file.id ≠ root)
    (hid : s.getFile file.id = none) (hs' : s'.files = s.create file) : Indexed s'.files := by
  refine ⟨?_, ?_, fun f hf => ?_, fun f hf hs => ?_⟩
  · rw [hs', Storage.create]
    split
    · rcases hi : s.files.insert filesTable _ with _ | files
      · exact h.sound
      · exact h.sound.insert hi
    · exact h.sound
  · rw [hs', Storage.create]
    split
    · rename_i parentID hpath _
      rcases hi : s.files.insert filesTable _ with _ | files
      · exact h.complete
      · rintro (_ | _)
        · refine (h.complete .path).insert h.sound hi fun b hb hk => ?_
          have := h.getFileByPath_iff.mpr ⟨hb, Schema.field_eq_of_key hk⟩
          rw [show filesTable.field .path { file with parentID } = file.path from rfl,
            hpath] at this
          cases this
        · exact (h.complete .parentId).insert_of_not_unique h.sound rfl hi
    · exact h.complete
  · rcases (stored_create hid hs').mp hf with hf | ⟨-, parentID, -, -, rfl⟩
    · exact h.id f hf
    · exact hroot
  · rcases (stored_create hid hs').mp hf with hf | ⟨-, parentID, hp, -, rfl⟩
    · exact h.top f hf hs
    · rw [parentID_eq, if_neg hs] at hp
      exact (Option.some.inj hp).symm

/-- Whatever `R` says of a file and one above it: it can be had of the new file and its parent. -/
theorem exists_parent_create {R : FileInfo → FileInfo → Prop} (hi : Indexed s.files)
    (hid : s.getFile file.id = none) (hs' : s'.files = s.create file)
    (hold : ∀ f, s.Stored f → slash ∈ f.path → ∃ d, s.Stored d ∧ R f d)
    (hnew : s.getFileByPath file.path = none → slash ∈ file.path →
      ∀ d ∈ s.getFileByPath (parentPath file.path), R { file with parentID := d.id } d) :
    ∀ f, s'.Stored f → slash ∈ f.path → ∃ d, s'.Stored d ∧ R f d := by
  intro f hf hslash
  rcases (stored_create hid hs').mp hf with hf | ⟨hpath, parentID, hp, -, rfl⟩
  · obtain ⟨d, hd, hR⟩ := hold f hf hslash
    exact ⟨d, (stored_create hid hs').mpr (.inl hd), hR⟩
  · rw [parentID_eq, if_pos hslash] at hp
    obtain ⟨d, hd, rfl⟩ := Option.map_eq_some_iff.mp hp
    have hstored := (hi.getFileByPath_iff.mp hd).1
    exact ⟨d, (stored_create hid hs').mpr (.inl hstored), hnew hpath hslash d hd⟩

/-- A file that is created in a directory has it for its parent. -/
theorem Storage.Parented.create (h : s.Parented) (hi : Indexed s.files)
    (hid : s.getFile file.id = none) (hs' : s'.files = s.create file)
    (hdir : s.getFileByPath file.path = none → slash ∈ file.path →
      ∀ d ∈ s.getFileByPath (parentPath file.path), d.type = .dir) : s'.Parented :=
  exists_parent_create hi hid hs' h fun hpath hslash d hd =>
    ⟨hdir hpath hslash d hd, rfl, (hi.getFileByPath_iff.mp hd).2⟩

/-- What is found at the path above a new file is its parent. -/
theorem Storage.Parented.dir_of_create (h : s'.Parented) (hi : Indexed s.files)
    (hid : s.getFile file.id = none) (hne : file.id ≠ []) (hs' : s'.files = s.create file)
    (hpath : s.getFileByPath file.path = none) (hslash : slash ∈ file.path) {d : FileInfo}
    (hd : s.getFileByPath (parentPath file.path) = some d) : d.type = .dir := by
  have hstored := (hi.getFileByPath_iff.mp hd).1
  have hfull : filesTable.Full { file with parentID := d.id } :=
    ⟨hne, fun | .path => List.ne_nil_of_mem hslash | .parentId => (hi.sound.full hstored).1⟩
  have hp : s.parentID file.path = some d.id := by
    rw [parentID_eq, if_pos hslash, hd, Option.map_some]
  obtain ⟨d', hd', hdir, hdid, -⟩ := h { file with parentID := d.id }
    ((stored_create hid hs').mpr (.inr ⟨hpath, d.id, hp, hfull, rfl⟩)) hslash
  rw [← hd'.eq ((stored_create hid hs').mpr (.inl hstored)) hdid]
  exact hdir

end Create

section Remove

variable {s s' : Storage} {fate : Fate} {file : FileInfo}

theorem removeFileBlocks_files {res : Except Err Unit}
    (h : removeFileBlocks fate file s = (res, s')) :
    s'.files = s.files ∨ s.files.delete filesTable file = some s'.files := by
  unfold removeFileBlocks Storage.deleteFileWithBlocks at h
  dsimp only at h
  split at h
  · rename_i table files _ hd
    obtain rfl := (Prod.mk.inj h).2
    unfold Storage.remove
    cases (fate.delete file).1 <;> cases (fate.delete file).2 <;> exact .inr hd
  · obtain rfl := (Prod.mk.inj h).2
    exact .inl rfl

theorem removeFileBlocks_deletes (file : FileInfo) (s : Storage) :
    Deletes s.files (removeFileBlocks fate file s).2.files := by
  have h : removeFileBlocks fate file s = (_, (removeFileBlocks fate file s).2) := rfl
  rcases removeFileBlocks_files h with h | h
  · rw [h]
  · exact .single ⟨file, h⟩

section Inv

variable {I : Storage → Prop} {F : FileInfo → Prop}

theorem killEach_inv {kill : FileInfo → Storage → Option (Except Err Unit × Storage)}
    (hkill : ∀ f s res, F f → I s → kill f s = some res → I res.2) :
    ∀ (childFiles : List FileInfo) {s : Storage} {res : Except Err Unit × Storage},
      (∀ f ∈ childFiles, F f) → I s → killEach kill childFiles s = some res → I res.2
  | [], s, res, _, hI, h => by
    obtain rfl := Option.some.inj h
    exact hI
  | f :: fs, s, res, hfs, hI, h => by
    rw [killEach] at h
    have hf := hfs f List.mem_cons_self
    split at h
    · rename_i s₁ hs₁
      exact killEach_inv hkill fs (fun g hg => hfs g (List.mem_cons_of_mem _ hg))
        (hkill f s _ hf hI hs₁) h
    · exact hkill f s res hf hI h

/-- What the removal of a regular file's blocks keeps is kept by `killChildren`, where `F` is known
of a file and so of its children. -/
theorem killChildren_inv (hchild : ∀ file s, I s → F file →
      ∀ c ∈ s.getFilesByParentId file.id, F c)
    (hremove : ∀ file s, I s → F file → file.type = .file → I (removeFileBlocks fate file s).2) :
    ∀ (fuel : ℕ) (file : FileInfo) (s : Storage) (res : Except Err Unit × Storage), F file →
      I s → killChildren fate fuel file s = some res → I res.2
  | fuel + 1, file, s, res, hF, hI, h => by
    have hcs := hchild file s hI hF
    rw [killChildren] at h
    split_ifs at h with hchildren htype
    · obtain rfl := Option.some.inj h
      exact hI
    · have hI' := hremove file s hI hF htype
      rcases hr : removeFileBlocks fate file s with ⟨_ | _, s₁⟩ <;> rw [hr] at h hI'
      · obtain rfl := Option.some.inj h
        exact hI'
      · exact killEach_inv (killChildren_inv hchild hremove fuel) _ hcs hI' h
    · exact killEach_inv (killChildren_inv hchild hremove fuel) _ hcs hI h

end Inv

variable (hi : Indexed s.files) (hp : s.Parented)
include hi hp

/-- A file that has children is a directory, and their paths are longer. -/
theorem dir_of_child (hf : s.Stored file) {c : FileInfo} (hc : c ∈ s.getFilesByParentId file.id) :
    s.Stored c ∧ file.type = .dir ∧ file.path.length < c.path.length := by
  obtain ⟨hstored, hparent⟩ := hi.mem_children_iff.mp hc
  have hslash : slash ∈ c.path := by
    by_contra hs
    exact hi.id file hf (hparent.symm.trans (hi.top c hstored hs))
  obtain ⟨d, hd, hdir, hid, hpath⟩ := hp c hstored hslash
  obtain rfl := hd.eq hf (hid.trans hparent)
  refine ⟨hstored, hdir, ?_⟩
  rw [hpath]
  exact parentPath_length hslash

omit hi hp in
theorem killEach_eq {kill : FileInfo → Storage → Option (Except Err Unit × Storage)} :
    ∀ {childFiles : List FileInfo} {res : Except Err Unit × Storage},
      (∀ c ∈ childFiles, ∀ res, kill c s = some res → res = (.ok (), s)) →
        killEach kill childFiles s = some res → res = (.ok (), s)
  | [], res, _, h => (Option.some.inj h).symm
  | c :: cs, res, hkill, h => by
    rw [killEach] at h
    split at h
    · rename_i s₁ hc
      rw [(Prod.mk.inj (hkill c List.mem_cons_self _ hc)).2] at h
      exact killEach_eq (fun c hc => hkill c (List.mem_cons_of_mem _ hc)) h
    · exact hkill c List.mem_cons_self res h

theorem killChildren_eq : ∀ (fuel : ℕ) {file : FileInfo}, s.Stored file →
    ∀ res, killChildren fate fuel file s = some res → res = (.ok (), s)
  | fuel + 1, file, hf, res, h => by
    rw [killChildren] at h
    split_ifs at h with hnil htype
    · exact (Option.some.inj h).symm
    · obtain ⟨c, hc⟩ := List.exists_mem_of_ne_nil _ hnil
      have hdir := (dir_of_child hi hp hf hc).2.1
      rw [htype] at hdir
      cases hdir
    · exact killEach_eq (fun c hc => killChildren_eq fuel (dir_of_child hi hp hf hc).1) h

omit hi hp in
theorem killEach_returns {kill : FileInfo → Storage → Option (Except Err Unit × Storage)} :
    ∀ {childFiles : List FileInfo}, (∀ c ∈ childFiles, kill c s = some (.ok (), s)) →
      killEach kill childFiles s = some (.ok (), s)
  | [], _ => rfl
  | c :: cs, hkill => by
    rw [killEach, hkill c List.mem_cons_self]
    exact killEach_returns fun c hc => hkill c (List.mem_cons_of_mem _ hc)

theorem killChildren_returns {n : ℕ} (hn : ∀ f, s.Stored f → f.path.length ≤ n) :
    ∀ (fuel : ℕ) {file : FileInfo}, s.Stored file → n < fuel + file.path.length →
      killChildren fate fuel file s = some (.ok (), s)
  | 0, file, hf, h => by
    have := hn file hf
    omega
  | fuel + 1, file, hf, h => by
    rw [killChildren]
    split_ifs with hnil htype
    · rfl
    · obtain ⟨c, hc⟩ := List.exists_mem_of_ne_nil _ hnil
      have hdir := (dir_of_child hi hp hf hc).2.1
      rw [htype] at hdir
      cases hdir
    · refine killEach_returns fun c hc => ?_
      obtain ⟨hstored, -, hlen⟩ := dir_of_child hi hp hf hc
      exact killChildren_returns hn fuel hstored (by omega)

end Remove

section Steps

variable {env : Env} {fate : Fate} {r r' : Leader} {file : FileInfo}

/-- Where the files make a tree, every removal comes to an end. -/
theorem handleRemoveFileOrPath_returns (hi : Indexed r.storage.files) (hp : r.storage.Parented)
    (path : Bytes) : ∃ fuel res, handleRemoveFileOrPath env fate path fuel r = some res := by
  obtain ⟨n, hn⟩ : ∃ n, ∀ f, r.storage.Stored f → f.path.length ≤ n := by
    refine ⟨((r.storage.files.byId.vals).map fun f => f.path.length).sum, fun f hf => ?_⟩
    exact List.single_le_sum (fun _ _ => Nat.zero_le _) _
      (List.mem_map_of_mem (OrdMap.mem_vals.mpr ⟨f.id, hf⟩))
  refine ⟨n + 1, ?_⟩
  unfold handleRemoveFileOrPath
  split
  · exact ⟨_, rfl⟩
  · rename_i f hf
    have hstored := (hi.getFileByPath_iff.mp hf).1
    rw [killChildren_returns hi hp hn (n + 1) hstored (by omega)]
    dsimp only
    split
    · exact ⟨_, rfl⟩
    · split
      · exact ⟨_, rfl⟩
      · split <;> exact ⟨_, rfl⟩

/-- The file that a request is to create, but for its parent. -/
def Request.new : Request → Option FileInfo
  | .makeDir path uid => some (newDir (trim path) uid [])
  | .registerFile file => some file
  | _ => none

theorem step_of_new {req : Request} (hnew : req.new = some file)
    (hstep : req.step env fate r = some r') : r'.storage.files = r.storage.create file := by
  cases req with
  | makeDir path uid =>
    obtain rfl := Option.some.inj hnew
    obtain rfl := Option.some.inj hstep
    exact handleMakeDir_files env fate path uid r
  | registerFile f =>
    obtain rfl := Option.some.inj hnew
    obtain rfl := Option.some.inj hstep
    exact registerFile_files env fate f r
  | _ => cases hnew

/-- What a removal does to the storage: at most `killChildren`, and then the deletion of the file
itself. -/
theorem handleRemoveFileOrPath_cases {path : Bytes} {fuel : ℕ}
    {res : Except HandlerErr CommonResponse × Leader}
    (h : handleRemoveFileOrPath env fate path fuel r = some res) :
    res.2.storage = r.storage ∨ ∃ f x s, r.storage.getFileByPath (trim path) = some f
      ∧ killChildren fate fuel f r.storage = some (x, s)
        ∧ (res.2.storage = s
          ∨ f.type = .file ∧ ∃ y, removeFileBlocks fate f s = (y, res.2.storage)) := by
  unfold handleRemoveFileOrPath at h
  split at h
  · obtain rfl := Option.some.inj h
    exact .inl rfl
  rename_i f hf
  dsimp only at h
  split at h
  · cases h
  · rename_i e s hkill
    obtain rfl := Option.some.inj h
    exact .inr ⟨f, _, s, hf, hkill, .inl rfl⟩
  rename_i s hkill
  refine .inr ⟨f, _, s, hf, hkill, ?_⟩
  have hafter : ∀ {y : Except Err Unit} {s' : Storage},
      (if f.type = .file then removeFileBlocks fate f s else (.ok (), s)) = (y, s') →
        s' = s ∨ f.type = .file ∧ ∃ y, removeFileBlocks fate f s = (y, s') := by
    intro y s' hs'
    split_ifs at hs' with htype
    · exact .inr ⟨htype, y, hs'⟩
    · exact .inl (Prod.mk.inj hs').2.symm
  split at h
  · rename_i e s' hs'
    obtain rfl := Option.some.inj h
    exact hafter hs'
  rename_i s' hs'
  suffices hres : res.2.storage = s' by
    rw [hres]
    exact hafter hs'
  split at h
  · rename_i r₁ hr₁
    obtain rfl := Option.some.inj h
    exact (congrArg (fun x => x.2.storage) hr₁).symm.trans (Leader.writeEntry_storage ..)
  rename_i r₁ hr₁
  have hr₁ : r₁.storage = s' :=
    (congrArg (fun x => x.2.storage) hr₁).symm.trans (Leader.writeEntry_storage ..)
  split at h
  all_goals
    rename_i r₂ hr₂
    obtain rfl := Option.some.inj h
    exact ((congrArg (fun x => x.2.storage) hr₂).symm.trans
      (Leader.writeEntry_storage ..)).trans hr₁

theorem handleRemoveFileOrPath_rel {R : Storage → Storage → Prop} (hrefl : ∀ s, R s s)
    (htrans : ∀ s₁ s₂ s₃, R s₁ s₂ → R s₂ s₃ → R s₁ s₃)
    (hremove : ∀ file s, R s (removeFileBlocks fate file s).2) {path : Bytes} {fuel : ℕ}
    {res : Except HandlerErr CommonResponse × Leader}
    (h : handleRemoveFileOrPath env fate path fuel r = some res) :
    R r.storage res.2.storage := by
  rcases handleRemoveFileOrPath_cases h with h | ⟨f, x, s, -, hkill, h⟩
  · rw [h]
    exact hrefl _
  have hchildren : R r.storage s :=
    killChildren_inv (I := R r.storage) (F := fun _ => True) (fun _ _ _ _ _ _ => trivial)
      (fun file s hs _ _ => htrans _ _ _ hs (hremove file s)) fuel f _ _ trivial (hrefl _) hkill
  rcases h with h | ⟨-, y, h⟩
  · rwa [h]
  · have hfile := hremove f s
    rw [h] at hfile
    exact htrans _ _ _ hchildren hfile

theorem handleRemoveFileOrPath_deletes {path : Bytes} {fuel : ℕ}
    {res : Except HandlerErr CommonResponse × Leader}
    (h : handleRemoveFileOrPath env fate path fuel r = some res) :
    Deletes r.storage.files res.2.storage.files :=
  handleRemoveFileOrPath_rel (R := fun s s' => Deletes s.files s'.files) (fun _ => .refl)
    (fun _ _ _ => .trans) removeFileBlocks_deletes h

theorem handleRemoveFileOrPath_files (hi : Indexed r.storage.files) (hp : r.storage.Parented)
    {path : Bytes} {fuel : ℕ} {res : Except HandlerErr CommonResponse × Leader}
    (h : handleRemoveFileOrPath env fate path fuel r = some res) :
    res.2.storage.files = r.storage.files ∨ ∃ f, r.storage.Stored f ∧ f.type = .file
      ∧ r.storage.files.delete filesTable f = some res.2.storage.files := by
  rcases handleRemoveFileOrPath_cases h with h | ⟨f, x, s, hf, hkill, h⟩
  · exact .inl (by rw [h])
  have hstored := (hi.getFileByPath_iff.mp hf).1
  obtain rfl := (Prod.mk.inj (killChildren_eq hi hp fuel hstored _ hkill)).2
  rcases h with h | ⟨htype, y, h⟩
  · exact .inl (by rw [h])
  · exact (removeFileBlocks_files h).imp_right fun hdel => ⟨f, hstored, htype, hdel⟩

theorem registerBlocks_files (bInfos : List BlockInfo) :
    (registerBlocks env fate bInfos r).2.storage.files = r.storage.files := by
  unfold registerBlocks Storage.putBlocks
  cases fate.put <;> cases fate.write <;>
    cases r.storage.blocks.insertAll blocksTable bInfos <;> rfl

/-- The files and their blocks are as they were. -/
def Storage.SameFiles (s s' : Storage) : Prop := s'.files = s.files ∧ s'.blocks = s.blocks

theorem handleCreatePolicy_sameFiles (name : Bytes) (paths : List (Bytes × List Bytes))
    (uid : Bytes) :
    r.storage.SameFiles (handleCreatePolicy env fate name paths uid r).2.storage := by
  unfold handleCreatePolicy Storage.storePolicy
  dsimp only
  generalize Policy.mk _ _ _ = policy
  cases fate.put <;> cases fate.write <;> cases r.storage.policies.insert policiesTable policy <;>
    exact ⟨rfl, rfl⟩

theorem handleDeletePolicy_sameFiles (name : Bytes) :
    r.storage.SameFiles (handleDeletePolicy env fate name r).2.storage := by
  unfold handleDeletePolicy Storage.deletePolicy
  rcases r.storage.getPolicy name with _ | policy
  · exact ⟨rfl, rfl⟩
  dsimp only
  cases fate.put <;> cases fate.write <;> cases r.storage.policies.delete policiesTable policy <;>
    exact ⟨rfl, rfl⟩

theorem handleCreateToken_sameFiles (policies : List Bytes) (tokenStr : Bytes) (now : ℤ) :
    r.storage.SameFiles (handleCreateToken env fate policies tokenStr now r).2.storage := by
  unfold handleCreateToken Storage.storeToken
  dsimp only
  generalize Token.mk _ _ _ _ _ _ _ _ _ = token
  cases fate.put <;> cases fate.write <;> cases r.storage.tokens.insert tokensTable token <;>
    exact ⟨rfl, rfl⟩

theorem handleRevokeToken_sameFiles (accessor : Bytes) :
    r.storage.SameFiles (handleRevokeToken env fate accessor r).2.storage := by
  unfold handleRevokeToken Storage.revokeToken
  rcases r.storage.getToken accessor with _ | token
  · exact ⟨rfl, rfl⟩
  dsimp only
  cases fate.put <;> cases fate.write <;> cases r.storage.tokens.delete tokensTable token <;>
    exact ⟨rfl, rfl⟩

/-- A request that does not create a file deletes regular files at most, and in a tree
one at most. -/
theorem step_of_not_new {req : Request} (hnew : req.new = none)
    (hstep : req.step env fate r = some r') : Deletes r.storage.files r'.storage.files
      ∧ (Indexed r.storage.files → r.storage.Parented → r'.storage.files = r.storage.files
        ∨ ∃ f, r.storage.Stored f ∧ f.type = .file
          ∧ r.storage.files.delete filesTable f = some r'.storage.files) := by
  cases req with
  | makeDir path uid => cases hnew
  | registerFile f => cases hnew
  | removeFileOrPath path fuel =>
    obtain ⟨res, hres, rfl⟩ := Option.map_eq_some_iff.mp hstep
    exact ⟨handleRemoveFileOrPath_deletes hres,
      fun hi hp => handleRemoveFileOrPath_files hi hp hres⟩
  | _ =>
    obtain rfl := Option.some.inj hstep
    first
      | rw [registerBlocks_files]
      | rw [(handleCreatePolicy_sameFiles _ _ _).1]
      | rw [(handleDeletePolicy_sameFiles _).1]
      | rw [(handleCreateToken_sameFiles _ _ _).1]
      | rw [(handleRevokeToken_sameFiles _).1]
    exact ⟨.refl, fun _ _ => .inl rfl⟩

/-- The id of a new file is new. -/
def Request.FreshId (req : Request) (r : Leader) : Prop :=
  ∀ file ∈ req.new, file.id ≠ [] ∧ file.id ≠ root ∧ r.storage.getFile file.id = none

/-- A new file is put into a directory, or at the top. -/
def Request.InDirectory (req : Request) (r : Leader) : Prop :=
  ∀ file ∈ req.new, r.storage.getFileByPath file.path = none → slash ∈ file.path →
    ∀ d ∈ r.storage.getFileByPath (parentPath file.path), d.type = .dir

instance (req : Request) (r : Leader) : Decidable (req.FreshId r) :=
  inferInstanceAs (Decidable (∀ file ∈ req.new, _))

instance (req : Request) (r : Leader) : Decidable (req.InDirectory r) :=
  inferInstanceAs (Decidable (∀ file ∈ req.new, _))

variable {req : Request}

theorem Indexed.step (h : Indexed r.storage.files) (hfresh : req.FreshId r)
    (hstep : req.step env fate r = some r') : Indexed r'.storage.files := by
  rcases hnew : req.new with _ | file
  · exact h.deletes (step_of_not_new hnew hstep).1
  · obtain ⟨-, hroot, hid⟩ := hfresh file hnew
    exact h.create hroot hid (step_of_new hnew hstep)

theorem Storage.Parented.step (h : r.storage.Parented) (hi : Indexed r.storage.files)
    (hfresh : req.FreshId r) (hdir : req.InDirectory r) (hstep : req.step env fate r = some r') :
    r'.storage.Parented := by
  rcases hnew : req.new with _ | file
  · have hrows := (step_of_not_new hnew hstep).2 hi h
    intro f hf hslash
    change r'.storage.files.Has filesTable f at hf
    rcases hrows with hsame | ⟨g, hg, hfile, hdel⟩
    · rw [hsame] at hf
      obtain ⟨d, hd, hd'⟩ := h f hf hslash
      exact ⟨d, by rwa [Storage.Stored, Storage.getFile, hsame], hd'⟩
    · -- the one that goes is no directory, and so nobody's parent
      obtain ⟨d, hd, htype, hd'⟩ := h f ((Table.has_delete hdel).mp hf).1 hslash
      refine ⟨d, (Table.has_delete hdel).mpr ⟨hd, fun hid => ?_⟩, htype, hd'⟩
      rw [hd.eq hg hid, hfile] at htype
      cases htype
  · exact h.create hi (hfresh file hnew).2.2 (step_of_new hnew hstep) (hdir file hnew)

/-- A request whose outcome is a tree puts its file into a directory. -/
theorem Tree.inDirectory (hi : Indexed r.storage.files) (hfresh : req.FreshId r)
    (h : ∀ r' ∈ req.step env fate r, Tree r'.storage) : req.InDirectory r := by
  intro file hnew hpath hslash d hd
  obtain ⟨r', hstep⟩ : ∃ r', req.step env fate r = some r' := by
    cases req with
    | makeDir path uid => exact ⟨_, rfl⟩
    | registerFile f => exact ⟨_, rfl⟩
    | _ => cases hnew
  obtain ⟨hne, -, hid⟩ := hfresh file hnew
  exact (h r' hstep).parent.dir_of_create hi hid hne (step_of_new hnew hstep) hpath hslash hd

/-- A request with what befalls it. -/
def serve (env : Env) (l : Request × Fate) (r : Leader) : Option Leader := l.1.step env l.2 r

/-- Whatever requests are served, and whatever of them fails, the files make a tree after each of
them if and only if every file that is created is put into a directory or at the top. -/
theorem tree_iff (env : Env) (reqs : List (Request × Fate))
    (hfresh : Along (serve env) (fun l r => l.1.FreshId r) reqs .empty) :
    Along (serve env) (fun l r => ∀ r' ∈ serve env l r, Tree r'.storage) reqs .empty
      ↔ Along (serve env) (fun l r => l.1.InDirectory r) reqs .empty := by
  have hempty : Indexed Leader.empty.storage.files ∧ Leader.empty.storage.Parented :=
    ⟨indexed_empty, fun f hf => absurd (show Table.empty.Has filesTable f from hf)
      Table.not_has_empty⟩
  constructor
  · intro h
    refine Along.imp_of_invariant (I := fun r : Leader => Indexed r.storage.files)
      (fun l r r' hi hl hstep => hi.step hl.1 hstep) ?_ reqs hempty.1 (hfresh.and h)
    exact fun l r hi hl => Tree.inDirectory hi hl.1 hl.2
  · intro h
    refine Along.imp_of_invariant
      (I := fun r : Leader => Indexed r.storage.files ∧ r.storage.Parented)
      (fun l r r' hi hl hstep => ⟨hi.1.step hl.1 hstep, hi.2.step hi.1 hl.1 hl.2 hstep⟩) ?_ reqs
      hempty (hfresh.and h)
    exact fun l r hi hl r' hstep => (hi.1.step hl.1 hstep).tree (hi.2.step hi.1 hl.1 hl.2 hstep)

end Steps

section Witness

/-- Two directories and a file in them, which is removed; a file at a path that is taken and one in
no directory are turned down. The backend fails, and once the cluster. -/
def dirsAndFile : List (Request × Fate) :=
  let failing : Fate := ⟨false, fun _ => (false, true), true, true⟩
  let file : FileInfo := ⟨[3], [], .file, [99], [97, 47, 98, 47, 99], 2, 0, [], [], [], 1⟩
  [(.makeDir [47, 97] [1], .fine), (.makeDir [97, 47, 98, 47] [2], failing),
    (.registerFile file, { Fate.fine with write := false }),
    (.registerFile { file with id := [4] }, .fine), (.makeDir [98, 47, 97] [5], .fine),
    (.removeFileOrPath [97, 47, 98, 47, 99] 1, failing), (.removeFileOrPath [97] 3, .fine)]

theorem tree_iff_dirsAndFile :
    Along (serve someEnv) (fun l r => ∀ r' ∈ serve someEnv l r, Tree r'.storage)
      dirsAndFile .empty :=
  (tree_iff someEnv dirsAndFile (by decide +kernel)).mpr (by decide +kernel)

/-- A regular file, and a directory below its path. -/
def dirInFile : List (Request × Fate) :=
  [(.registerFile ⟨[1], [], .file, [97], [97], 2, 0, [], [], [], 1⟩, .fine),
    (.makeDir [97, 47, 98] [2], .fine)]

/-- The directory has the regular file for its parent. -/
theorem not_tree_dirInFile : Along (serve someEnv) (fun l r => l.1.FreshId r) dirInFile .empty
    ∧ ∃ r, runSteps (serve someEnv) dirInFile .empty = some r ∧ ¬ Tree r.storage := by
  refine ⟨by decide +kernel, ?_⟩
  obtain ⟨r, hrun⟩ : ∃ r, runSteps (serve someEnv) dirInFile .empty = some r :=
    Option.isSome_iff_exists.mp (by decide +kernel)
  refine ⟨r, hrun, fun h => ?_⟩
  have hrows : (runSteps (serve someEnv) dirInFile .empty).map
      (fun r => ((r.storage.getFile [1]).map FileInfo.type, r.storage.getFile [2]))
        = some (some .file, some (newDir [97, 47, 98] [2] [1])) := by decide +kernel
  rw [hrun, Option.map_some, Option.some.injEq, Prod.mk.injEq] at hrows
  obtain ⟨d, hd, hdir, hid, -⟩ := h.parent _ (show r.storage.Stored (newDir _ _ _) from hrows.2)
    (by decide)
  have hfile := hrows.1
  rw [show [1] = d.id from hid.symm, hd, Option.map_some, hdir] at hfile
  cases hfile

end Witness

end Rhosus.Registry

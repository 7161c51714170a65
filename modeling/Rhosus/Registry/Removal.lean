import Rhosus.Registry.Blocks

/-!
# Removals

`HandleRemoveFileOrPath` deletes a regular file with its blocks. Of what is below a directory it
deletes nothing that has nothing below itself, nor the directory, and says that it is done. So it
removes what is to be removed, and nothing else, if and only if the path is a regular file's
(`removes_iff`): there is nothing below that, or the removal fails.
-/

namespace Rhosus.Registry

/-- `q` is the path, or below it. -/
def Within (path q : Bytes) : Prop := q = path ∨ path ++ [slash] <+: q

section Linked

variable {s s' : Storage} {file : FileInfo}

/-- A file that is not at the top has for its parent what is at its path without the last
component, be it a directory or not. -/
def Storage.Linked (s : Storage) : Prop :=
  ∀ f, s.Stored f → slash ∈ f.path →
    ∃ d, s.Stored d ∧ d.id = f.parentID ∧ d.path = parentPath f.path

theorem Storage.Linked.create (h : s.Linked) (hi : Indexed s.files)
    (hid : s.getFile file.id = none) (hs' : s'.files = s.create file) : s'.Linked :=
  exists_parent_create hi hid hs' h fun _ _ _ hd => ⟨rfl, (hi.getFileByPath_iff.mp hd).2⟩

/-- Where there is something below a file, it has a child. -/
theorem Storage.Linked.exists_child (h : s.Linked) (hi : Indexed s.files) (hfile : s.Stored file) :
    ∀ (n : ℕ) {f : FileInfo}, f.path.length ≤ n → s.Stored f →
      file.path ++ [slash] <+: f.path → ∃ c, s.Stored c ∧ c.parentID = file.id
  | n, f, hn, hf, ⟨rest, hrest⟩ => by
    rw [List.append_assoc, List.singleton_append] at hrest
    have hslash : slash ∈ f.path := by
      rw [← hrest]
      exact List.mem_append_right _ List.mem_cons_self
    obtain ⟨d, hd, hid, hpath⟩ := h f hf hslash
    by_cases hbelow : slash ∈ rest
    · obtain ⟨dir, base, rfl, hbase⟩ := exists_eq_append hbelow
      have hdpath : d.path = file.path ++ slash :: dir := by
        rw [hpath, ← hrest, ← List.cons_append, ← List.append_assoc, parentPath_append hbase]
      have hlen := parentPath_length hslash
      rw [← hpath] at hlen
      cases n with
      | zero => omega
      | succ n => exact exists_child h hi hfile n (by omega) hd ⟨dir, by rw [hdpath]; simp⟩
    · rw [← hrest, parentPath_append hbelow] at hpath
      have hsame : d = file := Option.some.inj
        ((hi.getFileByPath_iff.mpr ⟨hd, hpath⟩).symm.trans (hi.getFileByPath_iff.mpr ⟨hfile, rfl⟩))
      exact ⟨f, hf, by rw [← hid, hsame]⟩

end Linked

section Created

variable {env : Env} {fate : Fate} {r r' : Leader}

/-- What a `PUT` and the creation of a directory are made of. -/
def Request.creates : Request → Bool
  | .makeDir .. | .transportAndRegisterBlocks .. | .registerFile .. => true
  | _ => false

theorem Storage.Linked.step {req : Request} (h : r.storage.Linked) (hi : Indexed r.storage.files)
    (hreq : req.creates = true) (hfresh : req.FreshId r)
    (hstep : req.step env fate r = some r') : r'.storage.Linked := by
  rcases hnew : req.new with _ | file
  · cases req with
    | transportAndRegisterBlocks fileID blocks answers order =>
      obtain rfl := Option.some.inj hstep
      unfold Storage.Linked Storage.Stored Storage.getFile
      rw [registerBlocks_files]
      exact h
    | makeDir => cases hnew
    | registerFile => cases hnew
    | _ => cases hreq
  · exact h.create hi (hfresh file hnew).2.2 (step_of_new hnew hstep)

theorem linked_created {reqs : List (Request × Fate)}
    (hreqs : ∀ l ∈ reqs, l.1.creates = true)
    (hfresh : Along (serve env) (fun l r => l.1.FreshId r) reqs .empty)
    (hrun : runSteps (serve env) reqs .empty = some r) :
    Indexed r.storage.files ∧ r.storage.Linked := by
  have hempty : Leader.empty.storage.Linked := fun f hf =>
    absurd (show Table.empty.Has filesTable f from hf) Table.not_has_empty
  exact Along.invariant (I := fun r : Leader => Indexed r.storage.files ∧ r.storage.Linked)
    (fun _ _ _ h hl hstep => ⟨h.1.step hl.1 hstep, h.2.step h.1 hl.2 hl.1 hstep⟩) reqs
    ⟨indexed_empty, hempty⟩ (hfresh.and (Along.of_forall fun l hl _ => hreqs l hl)) hrun

end Created

section Remove

variable {s s' : Storage} {fate : Fate} {file : FileInfo}

def Storage.HasBlock (s : Storage) (b : BlockInfo) : Prop := s.blocks.Has blocksTable b

theorem removeFileBlocks_spec (hb : BlocksIndexed s.blocks)
    (h : removeFileBlocks fate file s = (.ok (), s')) :
    (∀ f, s'.Stored f ↔ s.Stored f ∧ f.id ≠ file.id)
      ∧ ∀ b, s'.HasBlock b ↔ s.HasBlock b ∧ b.fileID ≠ file.id := by
  unfold removeFileBlocks Storage.deleteFileWithBlocks at h
  dsimp only at h
  split at h
  · rename_i table files hblocks hfiles
    have hs' : s'.files = files ∧ s'.blocks = table := by
      obtain rfl := (Prod.mk.inj h).2
      unfold Storage.remove
      cases (fate.delete file).1 <;> cases (fate.delete file).2 <;> exact ⟨rfl, rfl⟩
    obtain ⟨table', htable', -, -, hrows⟩ := Table.deleteAll_spec _ hb.sound
      (fun b hm => ((Table.mem_get hb.sound hb.complete).mp hm).1)
      (Table.nodup_get hb.sound .fileId file.id)
    rw [hblocks] at htable'
    obtain rfl := Option.some.inj htable'
    constructor
    · intro f
      change s'.files.Has filesTable f ↔ _
      rw [hs'.1]
      exact Table.has_delete hfiles
    · intro b
      rw [Storage.HasBlock, hs'.2, hrows]
      refine and_congr_right fun hhas => not_congr ⟨fun hmem => ?_, fun hid => ?_⟩
      · obtain ⟨b', hb', hid⟩ := List.mem_map.mp hmem
        obtain ⟨hhas', hfile⟩ := (Table.mem_get hb.sound hb.complete).mp hb'
        rw [Table.Has, show blocksTable.id b = blocksTable.id b' from hid.symm, hhas'] at hhas
        rw [← Option.some.inj hhas]
        exact hfile
      · exact List.mem_map_of_mem ((Table.mem_get hb.sound hb.complete).mpr ⟨hhas, hid⟩)
  · cases h

theorem removeFileBlocks_missing {k : Bytes} (h : s.getFile k = none) :
    (removeFileBlocks fate file s).2.getFile k = none := by
  have hres : removeFileBlocks fate file s = (_, (removeFileBlocks fate file s).2) := rfl
  unfold Storage.getFile at h ⊢
  rcases removeFileBlocks_files hres with hsame | hdel
  · rwa [hsame]
  · obtain ⟨old, -, hfiles⟩ := Table.delete_eq_some hdel
    rw [hfiles, OrdMap.get_erase, h, ite_self]

theorem removeFileBlocks_gone (h : removeFileBlocks fate file s = (.ok (), s')) :
    s'.getFile file.id = none := by
  unfold removeFileBlocks Storage.deleteFileWithBlocks at h
  dsimp only at h
  split at h
  · rename_i table files _ hdel
    obtain ⟨old, -, rfl⟩ := Table.delete_eq_some hdel
    obtain rfl := (Prod.mk.inj h).2
    unfold Storage.remove Storage.getFile
    cases (fate.delete file).1 <;> cases (fate.delete file).2 <;>
      exact (OrdMap.get_erase ..).trans (if_pos rfl)
  · cases h

theorem removeFileBlocks_ne_ok (h : s.getFile file.id = none) :
    removeFileBlocks fate file s ≠ (.ok (), s') := by
  intro hok
  unfold removeFileBlocks Storage.deleteFileWithBlocks at hok
  dsimp only at hok
  split at hok
  · rename_i hdel
    obtain ⟨old, hold, -⟩ := Table.delete_eq_some hdel
    rw [show s.files.byId[filesTable.id file]? = none from h] at hold
    cases hold
  · cases hok

/-- A regular file with something below it is removed twice, and that fails. -/
theorem childless_of_ok {fuel : ℕ} {s₁ s₂ : Storage}
    (htype : file.type = .file) (hkill : killChildren fate fuel file s = some (.ok (), s₁))
    (hremove : removeFileBlocks fate file s₁ = (.ok (), s₂)) :
    s.getFilesByParentId file.id = [] ∧ s₁ = s := by
  cases fuel with
  | zero => cases hkill
  | succ fuel =>
    rw [killChildren] at hkill
    split_ifs at hkill with hnil
    · cases hkill
      exact ⟨hnil, rfl⟩
    · exfalso
      rcases hr : removeFileBlocks fate file s with ⟨_ | _, s'⟩ <;> rw [hr] at hkill
      · cases hkill
      refine removeFileBlocks_ne_ok ?_ hremove
      exact killEach_inv (I := fun s => s.getFile file.id = none) (F := fun _ => True)
        (killChildren_inv (fun _ _ _ _ _ _ => trivial)
          (fun _ _ h _ _ => removeFileBlocks_missing h) fuel) _ (fun _ _ => trivial)
        (removeFileBlocks_gone hr) hkill

theorem stored_of_killChildren {fuel : ℕ} {d : FileInfo} {res : Except Err Unit × Storage}
    (hi : Indexed s.files) (hd : s.Stored d) (htype : d.type ≠ .file) (hfile : s.Stored file)
    (hkill : killChildren fate fuel file s = some res) : res.2.Stored d := by
  -- only rows of `s` are come upon, and they are deleted by their ids
  refine (killChildren_inv (F := s.Stored) (I := fun s' => Indexed s'.files
    ∧ (∀ f, s'.Stored f → s.Stored f) ∧ s'.Stored d) ?_ ?_ fuel file s res hfile
    ⟨hi, fun _ h => h, hd⟩ hkill).2.2
  · intro g s' h _ c hc
    exact h.2.1 c (h.1.mem_children_iff.mp hc).1
  · rintro g s' ⟨hi', hsub, hd'⟩ hg hregular
    have hres : removeFileBlocks fate g s' = (_, (removeFileBlocks fate g s').2) := rfl
    generalize (removeFileBlocks fate g s').2 = s'' at hres
    refine ⟨hi'.deletes ?_, fun f hf => hsub f ?_, ?_⟩
    all_goals rcases removeFileBlocks_files hres with hsame | hdel
    · rw [hsame]
    · exact .single ⟨g, hdel⟩
    · rwa [Storage.Stored, Storage.getFile, ← hsame]
    · exact ((Table.has_delete hdel).mp hf).1
    · rwa [Storage.Stored, Storage.getFile, hsame]
    · refine (Table.has_delete hdel).mpr ⟨hd', fun hid => htype ?_⟩
      rw [hd.eq hg hid, hregular]

end Remove

section Removes

variable {env : Env} {fate : Fate} {r r' : Leader} {file : FileInfo} {path : Bytes} {fuel : ℕ}

/-- What `path` names is removed with all that is below it, and nothing else. -/
structure Removes (env : Env) (path : Bytes) (r r' : Leader) : Prop where
  gone : ∀ f, r'.storage.Stored f → ¬ Within path f.path
  blocks : ∀ f, r.storage.Stored f → ¬ r'.storage.Stored f →
    ∀ b, r'.storage.HasBlock b → b.fileID ≠ f.id
  others : ∀ f, ¬ Within path f.path → (r'.storage.Stored f ↔ r.storage.Stored f)
  otherBlocks : ∀ b, (∀ f, r.storage.Stored f → Within path f.path → b.fileID ≠ f.id) →
    (r'.storage.HasBlock b ↔ r.storage.HasBlock b)
  /-- The entries that are written say what is removed. -/
  logged : ∃ entries, r'.log = r.log ++ entries
    ∧ (∀ f, (.deleteFile, env.pb.deleteFile.marshal (env.id, f)) ∈ entries
      ↔ r.storage.Stored f ∧ ¬ r'.storage.Stored f)
    ∧ ∀ b, (∃ bs, b ∈ bs ∧ (.deleteBlocks, env.pb.deleteBlocks.marshal (env.id, bs)) ∈ entries)
      ↔ r.storage.HasBlock b ∧ ¬ r'.storage.HasBlock b

theorem handleRemoveFileOrPath_ok (hfile : r.storage.getFileByPath (trim path) = some file)
    (h : handleRemoveFileOrPath env fate path fuel r = some (.ok ⟨true, ""⟩, r')) :
    ∃ s, killChildren fate fuel file r.storage = some (.ok (), s)
      ∧ (if file.type = .file then removeFileBlocks fate file s else (.ok (), s))
        = (.ok (), r'.storage)
      ∧ r'.log = r.log ++ [(.deleteFile, env.pb.deleteFile.marshal (env.id, file)),
        (.deleteBlocks, env.pb.deleteBlocks.marshal
          (env.id, r.storage.getBlocks env.sorter file.id))] := by
  unfold handleRemoveFileOrPath at h
  rw [hfile] at h
  dsimp only at h
  split at h
  · cases h
  · cases h
  rename_i s hkill
  refine ⟨s, hkill, ?_⟩
  split at h
  · cases h
  rename_i s' hs'
  rw [hs']
  unfold Leader.writeEntry at h
  cases hw : fate.write <;> cases hw' : fate.write' <;> simp [hw, hw'] at h
  subst h
  simp

/-- A regular file with nothing below it is removed. -/
theorem removes_of_file (hi : Indexed r.storage.files) (hlinked : r.storage.Linked)
    (hb : BlocksIndexed r.storage.blocks)
    (hfile : r.storage.getFileByPath (trim path) = some file) (htype : file.type = .file)
    (h : handleRemoveFileOrPath env fate path fuel r = some (.ok ⟨true, ""⟩, r')) :
    Removes env (trim path) r r' := by
  obtain ⟨s, hkill, hremove, hlog⟩ := handleRemoveFileOrPath_ok hfile h
  rw [if_pos htype] at hremove
  obtain ⟨hchildless, rfl⟩ := childless_of_ok htype hkill hremove
  obtain ⟨hrows, hblockRows⟩ := removeFileBlocks_spec hb hremove
  obtain ⟨hstored, hpath⟩ := hi.getFileByPath_iff.mp hfile
  have hgone : ∀ f, r.storage.Stored f ∧ ¬ r'.storage.Stored f ↔ f = file := by
    intro f
    rw [hrows]
    constructor
    · rintro ⟨hf, hnot⟩
      exact hf.eq hstored (not_not.mp fun hid => hnot ⟨hf, hid⟩)
    · rintro rfl
      exact ⟨hstored, fun hnot => hnot.2 rfl⟩
  constructor
  · rintro f hf (hsame | hbelow)
    · obtain ⟨hf, hid⟩ := (hrows f).mp hf
      rw [hi.getFileByPath_iff.mpr ⟨hf, hsame⟩] at hfile
      exact hid (congrArg FileInfo.id (Option.some.inj hfile))
    · obtain ⟨c, hc, hparent⟩ := hlinked.exists_child hi hstored _ le_rfl ((hrows f).mp hf).1
        (hpath ▸ hbelow)
      have := hi.mem_children_iff.mpr ⟨hc, hparent⟩
      rw [hchildless] at this
      cases this
  · intro f hf hnot b hb'
    rw [(hgone f).mp ⟨hf, hnot⟩]
    exact ((hblockRows b).mp hb').2
  · intro f hout
    rw [hrows]
    refine and_iff_left_of_imp fun hf hid => hout (.inl ?_)
    rw [hf.eq hstored hid, hpath]
  · intro b hout
    rw [hblockRows]
    exact and_iff_left_of_imp fun _ => hout file hstored (.inl hpath)
  · refine ⟨_, hlog, fun f => ?_, fun b => ?_⟩
    · rw [hgone]
      simp [env.pb.deleteFile.marshal_injective.eq_iff]
    · rw [hblockRows]
      simp only [List.mem_cons, Prod.mk.injEq, reduceCtorEq, false_and, true_and, false_or,
        List.not_mem_nil, or_false, env.pb.deleteBlocks.marshal_injective.eq_iff,
        exists_eq_right, hb.mem_getBlocks]
      exact ⟨fun h => ⟨h.1, fun hnot => hnot.2 h.2⟩,
        fun h => ⟨h.1, not_not.mp fun hid => h.2 ⟨h.1, hid⟩⟩⟩

/-- In every state that requests to make directories and to put files lead to, a removal that
succeeds removes what the path names with all that is below it, and nothing else, if and only if
that is a regular file. -/
theorem removes_iff (env : Env) (fate : Fate) (reqs : List (Request × Fate)) (path : Bytes)
    (fuel : ℕ) (file : FileInfo) (r r' : Leader) (hreqs : ∀ l ∈ reqs, l.1.creates = true)
    (hfresh : Along (serve env) (fun l r => l.1.FreshId r) reqs .empty)
    (hrun : runSteps (serve env) reqs .empty = some r)
    (hfile : r.storage.getFileByPath (trim path) = some file)
    (h : handleRemoveFileOrPath env fate path fuel r = some (.ok ⟨true, ""⟩, r')) :
    Removes env (trim path) r r' ↔ file.type = .file := by
  obtain ⟨hi, hlinked⟩ := linked_created hreqs hfresh hrun
  constructor
  · intro hremoves
    by_contra htype
    obtain ⟨s, hkill, hremove, -⟩ := handleRemoveFileOrPath_ok hfile h
    rw [if_neg htype] at hremove
    obtain ⟨hstored, hpath⟩ := hi.getFileByPath_iff.mp hfile
    have hstill := stored_of_killChildren hi hstored htype hstored hkill
    rw [(Prod.mk.inj hremove).2] at hstill
    exact hremoves.gone file hstill (.inl hpath)
  · exact fun htype => removes_of_file hi hlinked (blocksIndexed_served hrun) hfile htype h

end Removes

section Witness

/-- A directory `a`, and a file `a/b` of one block. -/
def dirWithFile : List (Request × Fate) :=
  [(.makeDir [97] [1], .fine),
    (.transportAndRegisterBlocks [2] [⟨[3], 1, 0, []⟩] [([9], [⟨[3], [8], true⟩])] [[3]], .fine),
    (.registerFile ⟨[2], [], .file, [98], [97, 47, 98], 0, 0, [], [], [], 2⟩, .fine)]

theorem dirWithFile_fresh :
    Along (serve someEnv) (fun l r => l.1.FreshId r) dirWithFile .empty := by
  decide +kernel

/-- The type of what is at the path, and the answer to the removal. -/
noncomputable def removal (path : Bytes) : Option (FileType × Except HandlerErr CommonResponse) :=
  (runSteps (serve someEnv) dirWithFile .empty).bind fun r =>
    (r.storage.getFileByPath (trim path)).bind fun file =>
      (handleRemoveFileOrPath someEnv .fine path 2 r).map fun answer => (file.type, answer.1)

theorem exists_of_removal {path : Bytes} {type : FileType}
    (h : removal path = some (type, .ok ⟨true, ""⟩)) :
    ∃ r file r', runSteps (serve someEnv) dirWithFile .empty = some r
      ∧ r.storage.getFileByPath (trim path) = some file ∧ file.type = type
      ∧ handleRemoveFileOrPath someEnv .fine path 2 r = some (.ok ⟨true, ""⟩, r') := by
  obtain ⟨r, hrun, h⟩ := Option.bind_eq_some_iff.mp h
  obtain ⟨file, hfile, h⟩ := Option.bind_eq_some_iff.mp h
  obtain ⟨⟨answer, r'⟩, hanswer, h⟩ := Option.map_eq_some_iff.mp h
  obtain ⟨rfl, rfl⟩ := Prod.mk.inj h
  exact ⟨r, file, r', hrun, hfile, rfl, hanswer⟩

theorem removes_iff_fileInDir : ∃ r r', runSteps (serve someEnv) dirWithFile .empty = some r
    ∧ handleRemoveFileOrPath someEnv .fine [97, 47, 98] 2 r = some (.ok ⟨true, ""⟩, r')
    ∧ Removes someEnv (trim [97, 47, 98]) r r' := by
  obtain ⟨r, file, r', hrun, hfile, htype, h⟩ :=
    exists_of_removal (show removal [97, 47, 98] = some (.file, .ok ⟨true, ""⟩) by decide +kernel)
  exact ⟨r, r', hrun, h, (removes_iff someEnv .fine dirWithFile _ 2 file r r' (by decide)
    dirWithFile_fresh hrun hfile h).mpr htype⟩

/-- The directory is said to be removed, and is still there, as is the file in it. -/
theorem not_removes_dir : ∃ r r', runSteps (serve someEnv) dirWithFile .empty = some r
    ∧ handleRemoveFileOrPath someEnv .fine [97] 2 r = some (.ok ⟨true, ""⟩, r')
    ∧ r'.storage.Stored (newDir [97] [1] root) ∧ (r'.storage.getFile [2]).isSome
    ∧ ¬ Removes someEnv (trim [97]) r r' := by
  obtain ⟨r, -, r', hrun, -, -, h⟩ :=
    exists_of_removal (show removal [97] = some (.dir, .ok ⟨true, ""⟩) by decide +kernel)
  have hrows : (runSteps (serve someEnv) dirWithFile .empty).bind (fun r =>
      (handleRemoveFileOrPath someEnv .fine [97] 2 r).map fun answer =>
        (answer.2.storage.getFile [1], (answer.2.storage.getFile [2]).isSome))
        = some (some (newDir [97] [1] root), true) := by decide +kernel
  rw [hrun, Option.bind_some, h, Option.map_some, Option.some.injEq, Prod.mk.injEq] at hrows
  exact ⟨r, r', hrun, h, hrows.1, hrows.2, fun hremoves =>
    hremoves.gone (newDir [97] [1] root) hrows.1 (.inl (by decide))⟩

end Witness

end Rhosus.Registry

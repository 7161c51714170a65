import Rhosus.Lib.Forest
import Rhosus.Registry.Namespace

/-!
# The way down from a file

`killChildren` goes from a file to the files that have its id for their parent's, with nothing to
tell where it has been. Removals may leave a file whose parent is gone, and a file may be put into
one that is no directory; but a file is younger than its parent, be the parent still there or not.
So the way down comes to an end, and to no file twice, whatever of the requests before it failed
(`killChildren_wellFounded`).
-/

namespace Rhosus.Registry

section Visits

variable (fate : Fate)

/-- `killEach`, with the files that the calls have come to. -/
def visitEach (kill : FileInfo → Storage → Option (List FileInfo × Except Err Unit × Storage)) :
    List FileInfo → Storage → Option (List FileInfo × Except Err Unit × Storage)
  | [], s => some ([], .ok (), s)
  | childFile :: childFiles, s =>
    match kill childFile s with
    | some (vs, .ok _, s) => (visitEach kill childFiles s).map fun res => (vs ++ res.1, res.2)
    | res => res

/-- `killChildren`, with the files that it is called on, in the order of the calls. -/
def visits : ℕ → FileInfo → Storage → Option (List FileInfo × Except Err Unit × Storage)
  | 0, _, _ => none
  | fuel + 1, file, s =>
    let childFiles := s.getFilesByParentId file.id
    if childFiles = [] then some ([file], .ok (), s)
    else
      match if file.type = .file then removeFileBlocks fate file s else (.ok (), s) with
      | (.error e, s) => some ([file], .error e, s)
      | (.ok _, s) => (visitEach (visits fuel) childFiles s).map fun res => (file :: res.1, res.2)

theorem visitEach_snd {kill : FileInfo → Storage → Option (Except Err Unit × Storage)}
    {kill' : FileInfo → Storage → Option (List FileInfo × Except Err Unit × Storage)}
    (hkill : ∀ f s, (kill' f s).map Prod.snd = kill f s) : ∀ (childFiles : List FileInfo)
      (s : Storage), (visitEach kill' childFiles s).map Prod.snd = killEach kill childFiles s
  | [], _ => rfl
  | c :: cs, s => by
    rw [visitEach, killEach, ← hkill c s]
    rcases kill' c s with _ | ⟨vs, _ | _, s'⟩
    · rfl
    · rfl
    · change ((visitEach kill' cs s').map _).map Prod.snd = killEach kill cs s'
      rw [← visitEach_snd hkill cs s', Option.map_map]
      rfl

theorem visits_snd : ∀ (fuel : ℕ) (file : FileInfo) (s : Storage),
    (visits fate fuel file s).map Prod.snd = killChildren fate fuel file s
  | 0, _, _ => rfl
  | fuel + 1, file, s => by
    have heach := visitEach_snd (visits_snd fuel) (s.getFilesByParentId file.id)
    rw [visits, killChildren]
    by_cases hnil : s.getFilesByParentId file.id = []
    · rw [if_pos hnil, if_pos hnil]
      rfl
    · rw [if_neg hnil, if_neg hnil]
      rcases if file.type = .file then removeFileBlocks fate file s else (.ok (), s)
        with ⟨_ | _, s₁⟩
      · rfl
      · change ((visitEach _ _ s₁).map _).map Prod.snd = killEach _ _ s₁
        rw [← heach, Option.map_map]
        rfl

end Visits

section Younger

variable {used : List Bytes} {s s' : Storage} {file d c : FileInfo}

/-- `c` is found below `d`. -/
def Storage.Child (s : Storage) (d c : FileInfo) : Prop :=
  s.Stored d ∧ c ∈ s.getFilesByParentId d.id

/-- The ids are of the files that were ever to be created, in this order; a file comes after its
parent. -/
structure Storage.Younger (used : List Bytes) (s : Storage) : Prop where
  indexed : Indexed s.files
  notRoot : root ∉ used
  mem : ∀ f, s.Stored f → f.id ∈ used
  parent : ∀ f, s.Stored f → f.parentID = root ∨ used.idxOf f.parentID < used.idxOf f.id

theorem younger_empty : Leader.empty.storage.Younger [] where
  indexed := indexed_empty
  notRoot := List.not_mem_nil
  mem f hf := absurd (show Table.empty.Has filesTable f from hf) Table.not_has_empty
  parent f hf := absurd (show Table.empty.Has filesTable f from hf) Table.not_has_empty

theorem stored_of_deletes (h : Deletes s.files s'.files) {f : FileInfo} (hf : s'.Stored f) :
    s.Stored f := by
  have hrows : ∀ files, Deletes s.files files → files.Has filesTable f → s.Stored f := by
    intro files hfiles
    induction hfiles with
    | refl => exact id
    | tail _ hdel ih =>
      obtain ⟨g, hdel⟩ := hdel
      exact fun hf => ih ((Table.has_delete hdel).mp hf).1
  exact hrows _ h hf

theorem Storage.Younger.deletes (h : s.Younger used) (hd : Deletes s.files s'.files) :
    s'.Younger used where
  indexed := h.indexed.deletes hd
  notRoot := h.notRoot
  mem f hf := h.mem f (stored_of_deletes hd hf)
  parent f hf := h.parent f (stored_of_deletes hd hf)

theorem Storage.Younger.getFile (h : s.Younger used) {id : Bytes} (hid : id ∉ used) :
    s.getFile id = none := by
  rcases hf : s.getFile id with _ | f
  · rfl
  · have he : f.id = id := h.indexed.sound.id hf
    subst he
    exact absurd (h.mem f hf) hid

/-- A parent that comes before the file still does when there are more. -/
theorem idxOf_lt_append {a b : Bytes} (hb : b ∈ used) (h : used.idxOf a < used.idxOf b)
    (ids : List Bytes) : (used ++ ids).idxOf a < (used ++ ids).idxOf b := by
  have ha : a ∈ used := List.idxOf_lt_length_iff.mp (h.trans (List.idxOf_lt_length_of_mem hb))
  rwa [List.idxOf_append_of_mem ha, List.idxOf_append_of_mem hb]

theorem Storage.Younger.create (h : s.Younger used) (hid : file.id ∉ used)
    (hroot : file.id ≠ root) (hs' : s'.files = s.create file) :
    s'.Younger (used ++ [file.id]) := by
  have hstored := fun f => stored_create (f := f) (h.getFile hid) hs'
  refine ⟨h.indexed.create hroot (h.getFile hid) hs', ?_, fun f hf => ?_, fun f hf => ?_⟩
  · rw [List.mem_append, List.mem_singleton]
    exact not_or.mpr ⟨h.notRoot, hroot.symm⟩
  · rcases (hstored f).mp hf with hf | ⟨-, parentID, -, -, rfl⟩
    · exact List.mem_append_left _ (h.mem f hf)
    · exact List.mem_append_right _ List.mem_cons_self
  · rcases (hstored f).mp hf with hf | ⟨-, parentID, hp, -, rfl⟩
    · exact (h.parent f hf).imp_right fun hlt => idxOf_lt_append (h.mem f hf) hlt _
    · rw [parentID_eq] at hp
      split_ifs at hp
      · -- the parent is there, and the new id is the last
        obtain ⟨d, hd, rfl⟩ := Option.map_eq_some_iff.mp hp
        have hmem := h.mem d (h.indexed.getFileByPath_iff.mp hd).1
        refine .inr ?_
        rw [List.idxOf_append_of_mem hmem, List.idxOf_append_of_notMem hid]
        exact Nat.lt_add_right _ (List.idxOf_lt_length_of_mem hmem)
      · exact .inl (Option.some.inj hp).symm

theorem Storage.Younger.forest (h : s.Younger used) :
    Forest s.Child fun f => used.idxOf f.id where
  rank_lt {d c} hc := by
    obtain ⟨hstored, hparent⟩ := h.indexed.mem_children_iff.mp hc.2
    rcases h.parent c hstored with hroot | hlt
    · exact absurd (hroot.symm.trans hparent) (h.indexed.id d hc.1).symm
    · rwa [hparent] at hlt
  parent {d d' c} hc hc' := hc.1.eq hc'.1 ((h.indexed.mem_children_iff.mp hc.2).2.symm.trans
    (h.indexed.mem_children_iff.mp hc'.2).2)

end Younger

section Descent

variable {used : List Bytes} {s s' : Storage} {fate : Fate} {file : FileInfo}

theorem Storage.Younger.child_of_deletes (h : s.Younger used) (hd : Deletes s.files s'.files)
    (hfile : s.Stored file) {c : FileInfo} (hc : c ∈ s'.getFilesByParentId file.id) :
    s.Child file c := by
  obtain ⟨hstored, hparent⟩ := (h.indexed.deletes hd).mem_children_iff.mp hc
  exact ⟨hfile, h.indexed.mem_children_iff.mpr ⟨stored_of_deletes hd hstored, hparent⟩⟩

/-- The calls for the children come to what is below them, each file at most once, if the call for
each child does. -/
theorem visitEach_visits (h : s.Younger used)
    {kill : FileInfo → Storage → Option (List FileInfo × Except Err Unit × Storage)}
    (hkill : ∀ c, s.Child file c → ∀ s', Deletes s.files s'.files → ∃ vs res,
      kill c s' = some (vs, res) ∧ Visits s.Child [c] vs ∧ Deletes s.files res.2.files) :
    ∀ (cs : List FileInfo) (s' : Storage), (∀ c ∈ cs, s.Child file c) → cs.Nodup →
      Deletes s.files s'.files → ∃ vs res, visitEach kill cs s' = some (vs, res)
        ∧ Visits s.Child cs vs ∧ Deletes s.files res.2.files
  | [], s', _, _, hd => ⟨[], (.ok (), s'), rfl, .nil _, hd⟩
  | c :: cs, s', hcs, hnodup, hd => by
    obtain ⟨hc, hnodup⟩ := List.nodup_cons.mp hnodup
    obtain ⟨vs, ⟨res, s₁⟩, hvs, hvisits, hd₁⟩ := hkill c (hcs c List.mem_cons_self) s' hd
    rw [visitEach, hvs]
    cases res with
    | error e =>
      exact ⟨vs, (.error e, s₁), rfl,
        hvisits.mono (List.cons_subset_cons c (List.nil_subset cs)), hd₁⟩
    | ok _ =>
      obtain ⟨ws, res, hws, hvisits', hd₂⟩ := visitEach_visits h hkill cs s₁
        (fun x hx => hcs x (List.mem_cons_of_mem _ hx)) hnodup hd₁
      refine ⟨vs ++ ws, res, ?_, .append h.forest hcs hc hvisits hvisits', hd₂⟩
      dsimp only
      rw [hws]
      rfl

/-- The call for a file returns, with no more calls in one another than there are ids from its own
on. -/
theorem visits_visits (h : s.Younger used) (fate : Fate) :
    ∀ (fuel : ℕ) (file : FileInfo) (s' : Storage), s.Stored file →
      used.length ≤ fuel + used.idxOf file.id → Deletes s.files s'.files →
      ∃ vs res, visits fate fuel file s' = some (vs, res) ∧ Visits s.Child [file] vs
        ∧ Deletes s.files res.2.files
  | 0, file, s', hfile, hfuel, _ => by
    have := List.idxOf_lt_length_of_mem (h.mem file hfile)
    omega
  | fuel + 1, file, s', hfile, hfuel, hd => by
    have hcs : ∀ c ∈ s'.getFilesByParentId file.id, s.Child file c :=
      fun c => h.child_of_deletes hd hfile
    have hnodup : (s'.getFilesByParentId file.id).Nodup :=
      .of_map _ (Table.nodup_get (h.indexed.deletes hd).sound .parentId file.id)
    have hkill : ∀ c, s.Child file c → ∀ s', Deletes s.files s'.files → ∃ vs res,
        visits fate fuel c s' = some (vs, res) ∧ Visits s.Child [c] vs
          ∧ Deletes s.files res.2.files := by
      intro c hc s' hd
      have hlt := h.forest.rank_lt hc
      exact visits_visits h fate fuel c s' (h.indexed.mem_children_iff.mp hc.2).1 (by omega) hd
    have hremove : Deletes s.files
        (if file.type = .file then removeFileBlocks fate file s' else (.ok (), s')).2.files := by
      split_ifs
      · exact hd.trans (removeFileBlocks_deletes file s')
      · exact hd
    rw [visits]
    by_cases hnil : s'.getFilesByParentId file.id = []
    · rw [if_pos hnil]
      exact ⟨[file], (.ok (), s'), rfl, .single file, hd⟩
    · rw [if_neg hnil]
      rcases hres : if file.type = .file then removeFileBlocks fate file s' else (.ok (), s')
        with ⟨_ | _, s₁⟩ <;> rw [hres] at hremove
      · exact ⟨[file], _, rfl, .single file, hremove⟩
      · obtain ⟨vs, res, hvs, hvisits, hd'⟩ := visitEach_visits h hkill _ s₁ hcs hnodup hremove
        refine ⟨file :: vs, res, ?_, .cons h.forest hcs hvisits, hd'⟩
        dsimp only
        rw [hvs]
        rfl

end Descent

section Runs

variable {env : Env} {used : List Bytes} {r r' : Leader}

/-- The ids that the requests bring for new files, in turn. -/
def newIds (reqs : List (Request × Fate)) : List Bytes :=
  reqs.filterMap fun l => l.1.new.map FileInfo.id

theorem Storage.Younger.step (h : r.storage.Younger used) {l : Request × Fate}
    (hnew : ∀ file ∈ l.1.new, file.id ∉ used ∧ file.id ≠ root)
    (hstep : serve env l r = some r') : r'.storage.Younger (used ++ newIds [l]) := by
  rcases hl : l.1.new with _ | file
  · have hids : newIds [l] = [] := by simp [newIds, hl]
    rw [hids, List.append_nil]
    exact h.deletes (step_of_not_new hl hstep).1
  · have hids : newIds [l] = [file.id] := by simp [newIds, hl]
    rw [hids]
    exact h.create (hnew file hl).1 (hnew file hl).2 (step_of_new hl hstep)

theorem newIds_cons (l : Request × Fate) (reqs : List (Request × Fate)) :
    newIds (l :: reqs) = newIds [l] ++ newIds reqs :=
  List.filterMap_append (l := [l])

theorem Storage.Younger.run : ∀ (reqs : List (Request × Fate)) (used : List Bytes) {r : Leader},
    r.storage.Younger used → (used ++ newIds reqs).Nodup → root ∉ newIds reqs →
      runSteps (serve env) reqs r = some r' → r'.storage.Younger (used ++ newIds reqs)
  | [], used, r, h, _, _, hrun => by
    obtain rfl := Option.some.inj hrun
    rwa [show newIds [] = [] from rfl, List.append_nil]
  | l :: reqs, used, r, h, hnodup, hroot, hrun => by
    rw [newIds_cons, ← List.append_assoc] at hnodup ⊢
    rw [newIds_cons, List.mem_append, not_or] at hroot
    rw [runSteps] at hrun
    rcases hs : serve env l r with _ | r₁ <;> rw [hs] at hrun
    · cases hrun
    · refine run reqs _ (h.step (fun file hl => ?_) hs) hnodup hroot.2 hrun
      have hmem : file.id ∈ newIds [l] :=
        List.mem_filterMap.mpr ⟨l, List.mem_cons_self, by rw [hl]; rfl⟩
      exact ⟨fun hused => List.disjoint_of_nodup_append hnodup.of_append_left hused hmem,
        fun he => hroot.1 (he ▸ hmem)⟩

/-- Whatever requests are served, and whatever of them fails, if no id comes twice: the way down
from a file is well-founded, and with as much fuel as there were ids `killChildren` returns. It is
called on what is below the file, on each at most once. -/
theorem killChildren_wellFounded (env : Env) (reqs : List (Request × Fate))
    (hnodup : (newIds reqs).Nodup) (hroot : root ∉ newIds reqs)
    (hrun : runSteps (serve env) reqs .empty = some r) :
    (WellFounded fun c d => r.storage.Child d c)
      ∧ ∀ (fate : Fate) (file : FileInfo) (fuel : ℕ), r.storage.Stored file →
        (newIds reqs).length ≤ fuel → ∃ vs res, visits fate fuel file r.storage = some (vs, res)
          ∧ killChildren fate fuel file r.storage = some res
          ∧ vs.Nodup ∧ ∀ v ∈ vs, Relation.ReflTransGen r.storage.Child file v := by
  have h : r.storage.Younger (newIds reqs) := younger_empty.run reqs [] hnodup hroot hrun
  refine ⟨h.forest.wellFounded (n := (newIds reqs).length) fun {d c} hc =>
    List.idxOf_lt_length_of_mem (h.mem c (h.indexed.mem_children_iff.mp hc.2).1), ?_⟩
  intro fate file fuel hfile hfuel
  obtain ⟨vs, res, hvs, hvisits, -⟩ :=
    visits_visits h fate fuel file r.storage hfile (by omega) .refl
  refine ⟨vs, res, hvs, ?_, hvisits.nodup, fun v hv => ?_⟩
  · rw [← visits_snd, hvs]
    rfl
  · obtain ⟨c, hc, hcv⟩ := hvisits.below v hv
    rwa [List.mem_singleton.mp hc] at hcv

/-- A directory in a regular file, and one in it; the file goes and leaves the two without their
parent, and a file comes in its place. -/
def orphaned : List (Request × Fate) :=
  let file : FileInfo := ⟨[1], [], .file, [97], [97], 2, 0, [], [], [], 1⟩
  [(.registerFile file, .fine), (.makeDir [97, 47, 98] [2], .fine),
    (.makeDir [97, 47, 98, 47, 99] [3], .fine), (.removeFileOrPath [97] 3, .fine),
    (.registerFile { file with id := [4] }, .fine)]

theorem killChildren_wellFounded_orphaned : ∃ r, runSteps (serve someEnv) orphaned .empty = some r
    ∧ (WellFounded fun c d => r.storage.Child d c)
    ∧ r.storage.getFile [1] = none
    ∧ ∃ vs res, visits .fine 4 (newDir [97, 47, 98] [2] [1]) r.storage = some (vs, res)
      ∧ vs.Nodup := by
  obtain ⟨r, hrun⟩ : ∃ r, runSteps (serve someEnv) orphaned .empty = some r :=
    Option.isSome_iff_exists.mp (by decide +kernel)
  have hrows : (runSteps (serve someEnv) orphaned .empty).map
      (fun r => (r.storage.getFile [1], r.storage.getFile [2]))
        = some (none, some (newDir [97, 47, 98] [2] [1])) := by decide +kernel
  rw [hrun, Option.map_some, Option.some.injEq, Prod.mk.injEq] at hrows
  obtain ⟨hwf, hreturns⟩ :=
    killChildren_wellFounded someEnv orphaned (by decide) (by decide +kernel) hrun
  obtain ⟨vs, res, hvs, -, hnodup, -⟩ := hreturns .fine (newDir [97, 47, 98] [2] [1]) 4 hrows.2
    (by decide)
  exact ⟨r, hrun, hwf, hrows.1, vs, res, hvs, hnodup⟩

end Runs

end Rhosus.Registry

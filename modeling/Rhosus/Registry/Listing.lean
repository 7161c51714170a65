import Rhosus.Lib.SliceSort
import Rhosus.Registry.Verbs

/-!
# Listings

`HandleList` sorts the children of a directory by a comparison of the first byte of one name with
the second byte of the other. The comparison panics on a name of one byte, and in general it is
not that of the names nor of any order. A symbolic link is listed as a file. So a listing has each
child as it is and in the order of the names, whatever the order of the rows and whatever
`sort.Slice` does where it promises nothing, exactly if the children are `Listable`
(`handleList_whole_iff`).
-/

namespace Rhosus.Registry

open Url

section Handler

/-- `FileInfo_Type` of the api -/
inductive ApiType
  | file
  | dir
  | sym
  deriving DecidableEq

structure ApiFileInfo where
  name : Bytes
  type : ApiType
  fileSize : ℕ
  deriving DecidableEq

/-- A type without a case of its own is left at the first value. -/
def ApiFileInfo.of (file : FileInfo) : ApiFileInfo where
  name := file.name
  fileSize := file.fileSize
  type := match file.type with
    | .dir => .dir
    | .file => .file
    | .symlink => .file

/-- The first byte of one name and the second one of the other; nothing where it panics. -/
def lessName (a b : Bytes) : Option Bool :=
  match a[0]?, b[1]? with
  | some x, some y => some (x < y)
  | _, _ => none

/-- The comparison of `HandleList` -/
def lessInfo (a b : ApiFileInfo) : Option Bool := lessName a.name b.name

def Storage.listed (s : Storage) (u : URL) : Option Bytes :=
  match listPath u with
  | none => some root
  | some path => (s.getFileByPath path).map FileInfo.id

inductive Listing
  | notFound
  | panicked
  | ok (list : List ApiFileInfo)
  deriving DecidableEq

/-- `HandleList`, where the storage returns the children in some order. -/
def handleList (sort : SliceSort ApiFileInfo) (rows : List FileInfo → List FileInfo) (u : URL)
    (s : Storage) : Listing :=
  match s.listed u with
  | none => .notFound
  | some parentID =>
    let files := rows (s.getFilesByParentId parentID)
    match sort.sort lessInfo (files.map .of) with
    | none => .panicked
    | some list => .ok list

/-- The name, the size and the type of a file. -/
def FileInfo.entry (file : FileInfo) : ApiFileInfo where
  name := file.name
  fileSize := file.fileSize
  type := match file.type with
    | .dir => .dir
    | .file => .file
    | .symlink => .sym

/-- Each child is listed once, in the order of the names. -/
def Listing.Whole (s : Storage) (parentID : Bytes) : Listing → Prop
  | .notFound => False
  | .panicked => False
  | .ok list =>
    (∃ children : List FileInfo, children.Nodup
      ∧ (∀ f, f ∈ children ↔ s.Stored f ∧ f.parentID = parentID)
      ∧ list.Perm (children.map FileInfo.entry))
    ∧ list.Pairwise fun a b => a.name ≤ b.name

/-- The comparison of the two names says which of them is the smaller one. -/
def Tells (f g : FileInfo) : Prop := lessName f.name g.name = some (decide (f.name < g.name))

structure Listable (files : List FileInfo) : Prop where
  noSymlink : ∀ f ∈ files, f.type ≠ .symlink
  names : files.length ≤ 1 ∨ (∃ name : Bytes, 2 ≤ name.length ∧ ∀ f ∈ files, f.name = name)
    ∨ files.Pairwise fun f g => Tells f g ∧ Tells g f

end Handler

section Lists

variable {s : Storage} {u : URL} {parentID : Bytes} {files : List FileInfo}

theorem lessName_self {name : Bytes} (h : 2 ≤ name.length) : (lessName name name).isSome := by
  match name, h with
  | x :: y :: _, _ => rfl

instance nameOrder : IsStrictWeakOrder ApiFileInfo
    (fun a b => decide (a.name < b.name) = true) where
  irrefl a := by
    rw [decide_eq_true_iff]
    exact List.lt_irrefl a.name
  trans a b c hab hbc := by
    rw [decide_eq_true_iff] at hab hbc ⊢
    exact List.lt_trans hab hbc
  incomp_trans a b c hab hbc := by
    simp only [decide_eq_true_iff] at hab hbc ⊢
    rw [List.le_antisymm hab.2 hab.1, List.le_antisymm hbc.2 hbc.1]
    exact ⟨List.lt_irrefl _, List.lt_irrefl _⟩

theorem Listable.compares (h : Listable files) : Compares lessInfo (files.map .of) := by
  rcases h.names with h | ⟨name, hlen, hname⟩ | h
  · match files, h with
    | [], _ => exact .nil
    | [f], _ => exact List.pairwise_singleton _ _
  · refine List.pairwise_map.mpr (List.pairwise_of_forall_mem_list fun f hf g hg => ?_)
    simp only [lessInfo, ApiFileInfo.of, hname f hf, hname g hg, lessName_self hlen, and_self]
  · refine List.pairwise_map.mpr (h.imp fun ⟨hfg, hgf⟩ => ⟨?_, ?_⟩)
    · exact Option.isSome_iff_exists.mpr ⟨_, hfg⟩
    · exact Option.isSome_iff_exists.mpr ⟨_, hgf⟩

/-- What the sort returns for children that can be listed is in the order of the names. -/
theorem Listable.sorted (h : Listable files) (sort : SliceSort ApiFileInfo) {rows : List FileInfo}
    (hrows : rows.Perm files) {list : List ApiFileInfo}
    (hlist : sort.sort lessInfo (rows.map .of) = some list) :
    list.Pairwise fun a b => a.name ≤ b.name := by
  have hperm : list.Perm (files.map .of) := (sort.perm hlist).trans (hrows.map _)
  rcases h.names with h | ⟨name, -, hname⟩ | h
  · have hlen : list.length ≤ 1 := by
      rw [hperm.length_eq, List.length_map]
      exact h
    match list, hlen with
    | [], _ => exact .nil
    | [a], _ => exact List.pairwise_singleton _ a
  · refine List.pairwise_of_forall_mem_list fun a ha b hb => ?_
    obtain ⟨f, hf, rfl⟩ := List.mem_map.mp (hperm.mem_iff.mp ha)
    obtain ⟨g, hg, rfl⟩ := List.mem_map.mp (hperm.mem_iff.mp hb)
    simp only [ApiFileInfo.of, hname f hf, hname g hg]
    exact List.le_refl name
  · have hagree : AgreesWith lessInfo (fun a b => decide (a.name < b.name)) (files.map .of) :=
      List.pairwise_map.mpr h
    have hsorted := sort.sorted ⟨_, nameOrder, hagree.perm (hrows.map _).symm⟩ hlist
    refine ((hagree.perm hperm.symm).and hsorted).imp fun {a b} ⟨⟨_, hba⟩, hfalse⟩ => ?_
    rw [hba] at hfalse
    exact of_decide_eq_false (Option.some.inj hfalse)

theorem handleList_eq (hdir : s.listed u = some parentID) (sort : SliceSort ApiFileInfo)
    (rows : List FileInfo → List FileInfo) : handleList sort rows u s
      = match sort.sort lessInfo ((rows (s.getFilesByParentId parentID)).map .of) with
        | none => .panicked
        | some list => .ok list := by
  rw [handleList, hdir]

/-- The listing is whole for every order of the rows and every sort. -/
def ListedWhole (s : Storage) (u : URL) (parentID : Bytes) : Prop :=
  ∀ (sort : SliceSort ApiFileInfo) (rows : List FileInfo → List FileInfo),
    (∀ files, (rows files).Perm files) → (handleList sort rows u s).Whole s parentID

theorem ListedWhole.sort (h : ListedWhole s u parentID) (hdir : s.listed u = some parentID)
    (sort : SliceSort ApiFileInfo) (rows : List FileInfo → List FileInfo)
    (hrows : ∀ files, (rows files).Perm files) :
    ∃ list, sort.sort lessInfo ((rows (s.getFilesByParentId parentID)).map .of) = some list
      ∧ (∃ children : List FileInfo, children.Nodup
        ∧ (∀ f, f ∈ children ↔ s.Stored f ∧ f.parentID = parentID)
        ∧ list.Perm (children.map FileInfo.entry))
      ∧ list.Pairwise fun a b => a.name ≤ b.name := by
  have hwhole := h sort rows hrows
  rw [handleList_eq hdir] at hwhole
  rcases hlist : sort.sort lessInfo ((rows (s.getFilesByParentId parentID)).map .of) with
    _ | list <;> rw [hlist] at hwhole
  · exact hwhole.elim
  · exact ⟨list, rfl, hwhole⟩

/-- The first row of two or more is compared, so that its name has a second byte. -/
theorem ListedWhole.isSome (h : ListedWhole s u parentID) (hdir : s.listed u = some parentID)
    {f g : FileInfo} {rest : List FileInfo}
    (hperm : (s.getFilesByParentId parentID).Perm (f :: g :: rest)) :
    (lessName g.name f.name).isSome := by
  let rows : List FileInfo → List FileInfo := fun files =>
    if files = s.getFilesByParentId parentID then f :: g :: rest else files
  have hrows : ∀ files, (rows files).Perm files := fun files => by
    by_cases hf : files = s.getFilesByParentId parentID
    · simp only [rows, if_pos hf]
      rw [hf]
      exact hperm.symm
    · simp only [rows, if_neg hf]
      exact .refl _
  obtain ⟨list, hlist, -⟩ := h.sort hdir (insertionSort _) rows hrows
  rcases hless : lessName g.name f.name with _ | b
  · simp only [rows, if_true, insertionSort, List.map_cons, insertEach, insertBack, lessInfo,
      Option.bind_some, ApiFileInfo.of, hless, Option.bind_none] at hlist
    cases hlist
  · rfl

/-- Two children that may stay as they are have to be in order as they are. -/
theorem ListedWhole.le (h : ListedWhole s u parentID) (hdir : s.listed u = some parentID)
    {f g : FileInfo} {rest : List FileInfo}
    (hperm : (s.getFilesByParentId parentID).Perm (f :: g :: rest))
    (hfg : ∀ lt : ApiFileInfo → ApiFileInfo → Bool,
      IsStrictWeakOrder ApiFileInfo (fun a b => lt a b = true) →
      AgreesWith lessInfo lt ((s.getFilesByParentId parentID).map .of) →
        lt (.of g) (.of f) = false) : f.name ≤ g.name := by
  obtain ⟨sort, list, hlist, hsub⟩ := exists_sort_pair (hperm.map ApiFileInfo.of) hfg
  obtain ⟨list', hlist', -, hsorted⟩ := h.sort hdir sort id fun _ => .refl _
  rw [id, hlist] at hlist'
  obtain rfl := Option.some.inj hlist'
  exact (List.pairwise_cons.mp (hsorted.sublist hsub)).1 _ List.mem_cons_self

theorem exists_perm_pair {f g : FileInfo} (hf : f ∈ files) (hg : g ∈ files) (hne : f ≠ g) :
    ∃ rest, files.Perm (f :: g :: rest) := by
  have hg' : g ∈ files.erase f := (List.mem_erase_of_ne hne.symm).mpr hg
  exact ⟨_, (List.perm_cons_erase hf).trans ((List.perm_cons_erase hg').cons f)⟩

theorem ListedWhole.tells (h : ListedWhole s u parentID) (hdir : s.listed u = some parentID)
    (horders : Orders lessInfo ((s.getFilesByParentId parentID).map .of)) {f g : FileInfo}
    (hf : f ∈ s.getFilesByParentId parentID) (hg : g ∈ s.getFilesByParentId parentID)
    (hne : f ≠ g) : Tells f g := by
  obtain ⟨lt, order, hagree⟩ := horders
  obtain ⟨rest, hperm⟩ := exists_perm_pair hf hg hne
  obtain ⟨rest', hperm'⟩ := exists_perm_pair hg hf hne.symm
  obtain ⟨hfg, hgf⟩ := (List.pairwise_cons.mp (hagree.perm (hperm.map _))).1 _ List.mem_cons_self
  refine hfg.trans (congrArg some ?_)
  rcases hlt : lt (.of f) (.of g)
  · -- the children may be the other way round
    refine (decide_eq_false ?_).symm
    refine h.le hdir hperm' fun lt' _ hagree' => ?_
    have hfg' := ((List.pairwise_cons.mp (hagree'.perm (hperm.map _))).1 _ List.mem_cons_self).1
    rw [hfg, hlt] at hfg'
    exact (Option.some.inj hfg').symm
  · refine (decide_eq_true ?_).symm
    have hle : f.name ≤ g.name := h.le hdir hperm fun lt' order' hagree' => by
      have hfg' := ((List.pairwise_cons.mp (hagree'.perm (hperm.map _))).1 _
        List.mem_cons_self).1
      rw [hfg, hlt] at hfg'
      exact lt_asymm_of (Option.some.inj hfg').symm
    by_contra hnot
    have heq : f.name = g.name := List.le_antisymm hle hnot
    -- names that are the same cannot be the one below the other
    have hsame : lessInfo (.of g) (.of f) = lessInfo (.of f) (.of g) := by
      simp only [lessInfo, ApiFileInfo.of, heq]
    rw [hgf, hfg, hlt, lt_asymm_of hlt] at hsame
    cases hsame

theorem ListedWhole.name_eq (h : ListedWhole s u parentID) (hdir : s.listed u = some parentID)
    (horders : ¬ Orders lessInfo ((s.getFilesByParentId parentID).map .of)) {f g : FileInfo}
    (hf : f ∈ s.getFilesByParentId parentID) (hg : g ∈ s.getFilesByParentId parentID) :
    f.name = g.name := by
  by_cases hne : f = g
  · rw [hne]
  · obtain ⟨rest, hperm⟩ := exists_perm_pair hf hg hne
    obtain ⟨rest', hperm'⟩ := exists_perm_pair hg hf (Ne.symm hne)
    refine List.le_antisymm (h.le hdir hperm fun lt order hagree => ?_)
      (h.le hdir hperm' fun lt order hagree => ?_)
    · exact absurd ⟨lt, order, hagree⟩ horders
    · exact absurd ⟨lt, order, hagree⟩ horders

end Lists

section Main

variable {s : Storage} {u : URL} {parentID : Bytes}

theorem nodup_children (hs : s.files.Sound filesTable) :
    (s.getFilesByParentId parentID).Nodup :=
  (Table.nodup_get hs .parentId parentID).of_map _

theorem mem_children (hs : s.files.Sound filesTable)
    (hc : s.files.Complete filesTable .parentId) {f : FileInfo} :
    f ∈ s.getFilesByParentId parentID ↔ s.Stored f ∧ f.parentID = parentID :=
  Table.mem_get hs hc

theorem of_eq_entry {f : FileInfo} (h : f.type ≠ .symlink) : ApiFileInfo.of f = f.entry := by
  rcases f with ⟨_, _, _ | _ | _, _⟩
  · rfl
  · rfl
  · exact absurd rfl h

theorem ListedWhole.noSymlink (h : ListedWhole s u parentID) (hdir : s.listed u = some parentID)
    (hs : s.files.Sound filesTable) (hc : s.files.Complete filesTable .parentId) {f : FileInfo}
    (hf : f ∈ s.getFilesByParentId parentID) : f.type ≠ .symlink := by
  intro hsym
  obtain ⟨list, hlist, ⟨children, -, hchildren, hperm⟩, -⟩ :=
    h.sort hdir (insertionSort _) id fun _ => .refl _
  have hmem : f.entry ∈ list := hperm.mem_iff.mpr (List.mem_map_of_mem
    ((hchildren f).mpr ((mem_children hs hc).mp hf)))
  obtain ⟨g, -, hg⟩ := List.mem_map.mp (((insertionSort _).perm hlist).mem_iff.mp hmem)
  have htype : (ApiFileInfo.of g).type = .sym := by
    rw [hg, FileInfo.entry, hsym]
  unfold ApiFileInfo.of at htype
  rcases g with ⟨_, _, _ | _ | _, _⟩ <;> cases htype

theorem ListedWhole.names (h : ListedWhole s u parentID) (hdir : s.listed u = some parentID)
    (hs : s.files.Sound filesTable) :
    (s.getFilesByParentId parentID).length ≤ 1
      ∨ (∃ name : Bytes, 2 ≤ name.length ∧ ∀ f ∈ s.getFilesByParentId parentID, f.name = name)
      ∨ (s.getFilesByParentId parentID).Pairwise fun f g => Tells f g ∧ Tells g f := by
  by_cases horders : Orders lessInfo ((s.getFilesByParentId parentID).map .of)
  · refine .inr (.inr ((nodup_children hs).pairwise_of_forall_ne fun f hf g hg hne => ?_))
    exact ⟨h.tells hdir horders hf hg hne, h.tells hdir horders hg hf hne.symm⟩
  · rcases hfiles : s.getFilesByParentId parentID with _ | ⟨f, _ | ⟨g, rest⟩⟩
    · exact .inl (Nat.zero_le 1)
    · exact .inl (Nat.le_refl 1)
    · refine .inr (.inl ⟨f.name, ?_, fun f' hf' => ?_⟩)
      · have hsome := h.isSome hdir (.of_eq hfiles)
        unfold lessName at hsome
        rcases hbyte : f.name[1]? with _ | y
        · rw [hbyte] at hsome
          rcases hx : g.name[0]? with _ | x <;> rw [hx] at hsome <;> cases hsome
        · exact (List.getElem?_eq_some_iff.mp hbyte).1
      · refine h.name_eq hdir horders ?_ ?_ <;> rw [hfiles]
        · exact hf'
        · exact List.mem_cons_self

/-- A directory is listed as it is, whatever the order of the rows and whatever the sort does where
it promises nothing, if and only if none of its children is a symbolic link and either there is at
most one, or they all have one name, of two bytes or more, or of any two of them the comparison
tells which name is the smaller one. -/
theorem handleList_whole_iff (s : Storage) (hs : s.files.Sound filesTable)
    (hc : s.files.Complete filesTable .parentId) (u : URL) (parentID : Bytes)
    (hdir : s.listed u = some parentID) :
    ListedWhole s u parentID ↔ Listable (s.getFilesByParentId parentID) := by
  refine ⟨fun h => ⟨fun f hf => h.noSymlink hdir hs hc hf, h.names hdir hs⟩, ?_⟩
  intro h sort rows hrows
  rw [handleList_eq hdir]
  obtain ⟨list, hlist⟩ := Option.isSome_iff_exists.mp
    (sort.returns (h.compares.perm ((hrows _).map ApiFileInfo.of).symm))
  rw [hlist]
  refine ⟨⟨_, nodup_children hs, fun f => mem_children hs hc, ?_⟩, h.sorted sort (hrows _) hlist⟩
  refine (sort.perm hlist).trans (((hrows _).map _).trans (.of_eq ?_))
  exact List.map_congr_left fun f hf => of_eq_entry (h.noSymlink f hf)

end Main

section Witness

def topFile (id : UInt8) (name : Bytes) : FileInfo :=
  ⟨[id], root, .file, name, name, 3, 0o755, [], [], [], 2⟩

def twoFiles (a b : Bytes) : Storage :=
  { Storage.empty with files := Table.empty.load filesTable [topFile 1 a, topFile 2 b] }

def topURL : URL := { URL.empty with path := [slash] }

theorem twoFiles_spec {a b : Bytes} (ha : a ≠ []) (hb : b ≠ []) :
    (twoFiles a b).files.Sound filesTable
      ∧ (twoFiles a b).files.Complete filesTable .parentId := by
  have hfull : ∀ f ∈ [topFile 1 a, topFile 2 b], filesTable.Full f := by
    intro f hf
    have hroot : root ≠ [] := by decide +kernel
    simp only [List.mem_cons, List.not_mem_nil, or_false] at hf
    rcases hf with rfl | rfl <;> refine ⟨List.cons_ne_nil _ _, fun i => ?_⟩ <;> cases i
    exacts [ha, hroot, hb, hroot]
  obtain ⟨hs, -, hc⟩ := Table.load_spec [topFile 1 a, topFile 2 b] Table.sound_empty hfull
    (by simp [topFile, filesTable]) fun f _ g hg => absurd hg Table.not_has_empty
  exact ⟨hs, hc .parentId Table.complete_empty (by simp [topFile, Schema.key, filesTable])
    fun f _ g hg => absurd hg Table.not_has_empty⟩

theorem handleList_whole_iff_twoFiles :
    ListedWhole (twoFiles (bytes "aa") (bytes "bb")) topURL root := by
  obtain ⟨hs, hc⟩ := twoFiles_spec (a := bytes "aa") (b := bytes "bb") (by decide +kernel)
    (by decide +kernel)
  refine (handleList_whole_iff _ hs hc topURL root (by decide +kernel)).mpr ⟨?_, .inr (.inr ?_)⟩
  · decide +kernel
  · unfold Tells
    decide +kernel

/-- The names `a` and `b` make the comparison panic, and `ba` stays before `az`. -/
theorem not_whole_twoFiles :
    handleList (insertionSort _) id topURL (twoFiles (bytes "a") (bytes "b")) = .panicked
      ∧ handleList (insertionSort _) id topURL (twoFiles (bytes "ba") (bytes "az"))
        = .ok [⟨bytes "ba", .file, 3⟩, ⟨bytes "az", .file, 3⟩]
      ∧ ¬ ListedWhole (twoFiles (bytes "a") (bytes "b")) topURL root
      ∧ ¬ ListedWhole (twoFiles (bytes "ba") (bytes "az")) topURL root := by
  have ha : handleList (insertionSort _) id topURL (twoFiles (bytes "a") (bytes "b"))
      = .panicked := by
    decide +kernel
  have hba : handleList (insertionSort _) id topURL (twoFiles (bytes "ba") (bytes "az"))
      = .ok [⟨bytes "ba", .file, 3⟩, ⟨bytes "az", .file, 3⟩] := by
    decide +kernel
  refine ⟨ha, hba, fun h => ?_, fun h => ?_⟩
  · have hwhole := h (insertionSort _) id fun _ => .refl _
    rw [ha] at hwhole
    exact hwhole
  · have hwhole := h (insertionSort _) id fun _ => .refl _
    rw [hba] at hwhole
    exact (List.pairwise_cons.mp hwhole.2).1 _ List.mem_cons_self (by decide +kernel)

end Witness

end Rhosus.Registry

import Rhosus.Lib.Url
import Rhosus.Registry.Namespace

/-!
# The file of a URL

`HandlePutFile` names a file by the URL as it is written, and all other handlers by its decoded
path, each without the slashes around it. So they mean the same file if and only if the target of
the request is a path that has nothing to decode and no query (`verbs_agree_iff`).
-/

namespace Rhosus.Registry

open Url

/-- The file that `HandlePutFile` registers for `size` bytes. -/
def newFile (u : URL) (uid : Bytes) (size : ℕ) : FileInfo where
  id := uid
  parentID := []
  type := .file
  name := (split (trim u.string)).getLastD []
  path := trim u.string
  fileSize := size
  permission := 0o755
  owner := []
  group := []
  symlink := []
  replication := 2

/-- The path that `HandleGetFile` looks for. -/
def getFilePath (u : URL) : Bytes := trim u.path

/-- The path that `HandleList` looks for: none where it is to list the top. -/
def listPath (u : URL) : Option Bytes := if u.path = [slash] then none else some (trim u.path)

def handleDeleteFile (env : Env) (fate : Fate) (u : URL) (fuel : ℕ) (r : Leader) :
    Option (Except HandlerErr CommonResponse × Leader) :=
  handleRemoveFileOrPath env fate u.path fuel r

/-- The answer to a removal at a path where there is no file. -/
def noSuchFile : CommonResponse := ⟨false, "no such file or directory"⟩

/-- A file that was put to the URL, and is still there after the requests `later`, is found by a
`GET` and by a `DELETE`. -/
def FoundLater (u : URL) : Prop :=
  ∀ (env : Env) (reqs later : List (Request × Fate)) (fate : Fate) (uid : Bytes) (size : ℕ)
    (r r' r'' : Leader),
    Along (serve env) (fun l r => l.1.FreshId r)
        (reqs ++ (.registerFile (newFile u uid size), fate) :: later) .empty →
      runSteps (serve env) reqs .empty = some r →
      registerFile env fate (newFile u uid size) r = (.ok (), r') →
      runSteps (serve env) later r' = some r'' →
      ∀ file, r'.storage.Stored file → file.id = uid → r''.storage.Stored file →
        r''.storage.getFileByPath (getFilePath u) = some file
          ∧ ∀ fate fuel, handleDeleteFile env fate u fuel r'' ≠ some (.ok noSuchFile, r'')

/-- All handlers mean the file that is put to the URL. -/
structure OneFile (u : URL) : Prop where
  get : ∀ uid size, getFilePath u = (newFile u uid size).path
  list : ∀ uid size, ∀ path ∈ listPath u, path = (newFile u uid size).path
  /-- `HandleRemoveFileOrPath` and `HandleMakeDir` get the path decoded, and trim it. -/
  trimmed : ∀ uid size, trim u.path = (newFile u uid size).path
  found : FoundLater u

theorem solid_trim (path : Bytes) : solid (trim path) = solid path := by
  have hdrop : ∀ p : Bytes, solid (p.dropWhile (· = slash)) = solid p := fun p => by
    conv_rhs => rw [← List.takeWhile_append_dropWhile (p := (· = slash)) (l := p)]
    rw [solid_append, Nat.right_eq_add]
    refine List.countP_eq_zero.mpr fun c hc => ?_
    have hslash : c = slash := by simpa using List.mem_takeWhile_imp hc
    rw [hslash]
    decide
  have hrev : ∀ p : Bytes, solid p.reverse = solid p := fun p => List.countP_reverse
  rw [trim, List.rdropWhile, hrev, hdrop, hrev, hdrop]

/-- The rows of the table are in order after any requests. -/
theorem indexed_served {env : Env} {reqs : List (Request × Fate)} {r r' : Leader}
    (hi : Indexed r.storage.files) (hfresh : Along (serve env) (fun l r => l.1.FreshId r) reqs r)
    (hrun : runSteps (serve env) reqs r = some r') : Indexed r'.storage.files :=
  Along.invariant (I := fun r : Leader => Indexed r.storage.files)
    (fun _ _ _ hi hl hstep => hi.step hl hstep) reqs hi hfresh hrun

theorem handleDeleteFile_ne {env : Env} {fate : Fate} {u : URL} {fuel : ℕ} {r : Leader}
    {file : FileInfo} (h : r.storage.getFileByPath (trim u.path) = some file) :
    handleDeleteFile env fate u fuel r ≠ some (.ok noSuchFile, r) := by
  intro hres
  unfold handleDeleteFile handleRemoveFileOrPath at hres
  rw [h] at hres
  dsimp only at hres
  split at hres
  · cases hres
  · cases hres
  · split at hres
    · cases hres
    · split at hres
      · cases hres
      · split at hres <;> cases hres

theorem foundLater_of_trim {u : URL} (h : trim u.path = trim u.string) : FoundLater u := by
  intro env reqs later fate uid size r r' r'' hfresh hrun hput hlater file hfile hid hstill
  have hi := indexed_served indexed_empty hfresh.append_left hrun
  obtain ⟨⟨-, hroot, hnew⟩, hrest⟩ := (hfresh.append_right hrun).imp_left fun h => h _ rfl
  have hstep : serve env (.registerFile (newFile u uid size), fate) r = some r' := by
    rw [serve, Request.step, hput]
  rw [hstep] at hrest
  have hfiles : r'.storage.files = r.storage.create (newFile u uid size) := by
    have := registerFile_files env fate (newFile u uid size) r
    rwa [hput] at this
  have hi' := hi.create hroot hnew hfiles
  have hpath : file.path = trim u.string := by
    rcases (stored_create hnew hfiles).mp hfile with hold | ⟨-, parentID, -, -, rfl⟩
    · rw [Storage.Stored, hid, show r.storage.getFile uid = none from hnew] at hold
      cases hold
    · rfl
  have hfound := (indexed_served hi' hrest hlater).getFileByPath_iff.mpr
    ⟨hstill, hpath.trans h.symm⟩
  exact ⟨hfound, fun fate fuel => handleDeleteFile_ne hfound⟩

/-- For every target of a request, all handlers mean the same file if and only if it is a path
that has nothing to decode and no query. -/
theorem verbs_agree_iff (parseAuthority : Bytes → Option (Option Bytes × Bytes)) (raw : Bytes)
    (u : URL) (h : parseRequestURI parseAuthority raw = some u) : OneFile u ↔ Plain raw := by
  constructor
  · intro hu
    have hkey : trim u.path = trim u.string := hu.get [] 0
    refine plain_of_solid_le h (le_of_eq ?_)
    rw [← solid_trim u.string, ← solid_trim u.path, hkey]
  · intro hraw
    have hkey : trim u.path = trim u.string := by rw [string_of_plain h hraw]
    refine ⟨fun _ _ => hkey, fun _ _ path hpath => ?_, fun _ _ => hkey, foundLater_of_trim hkey⟩
    unfold listPath at hpath
    split_ifs at hpath
    · cases hpath
    · exact (Option.some.inj hpath).symm.trans hkey

section Witness

/-- No target has a user or a host. -/
def noAuthority (_ : Bytes) : Option (Option Bytes × Bytes) := none

theorem verbs_agree_iff_plainPath :
    ∃ u, parseRequestURI noAuthority (bytes "/docs/a-b(1).txt") = some u ∧ OneFile u := by
  obtain ⟨u, hu⟩ : ∃ u, parseRequestURI noAuthority (bytes "/docs/a-b(1).txt") = some u :=
    Option.isSome_iff_exists.mp (by decide +kernel)
  exact ⟨u, hu, (verbs_agree_iff noAuthority _ u hu).mpr (by decide +kernel)⟩

/-- A file is put to a path with a space, and is not found at it. -/
theorem not_oneFile_space : ∃ u, parseRequestURI noAuthority (bytes "/a%20b") = some u
    ∧ (∃ r, registerFile someEnv .fine (newFile u [1] 0) .empty = (.ok (), r)
      ∧ r.storage.getFileByPath (getFilePath u) = none)
    ∧ ¬ OneFile u := by
  have hu : parseRequestURI noAuthority (bytes "/a%20b")
      = some { URL.empty with path := bytes "/a b" } := by decide +kernel
  refine ⟨_, hu, ⟨_, Prod.ext (by decide +kernel) rfl, by decide +kernel⟩, fun h => ?_⟩
  exact absurd (h.get [] 0) (by decide +kernel)

end Witness

end Rhosus.Registry

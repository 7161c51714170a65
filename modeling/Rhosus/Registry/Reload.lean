import Rhosus.Lib.Runs
import Rhosus.Registry.Storage

/-!
# The storage after a restart

The backend has the bytes of the rows in memory, under other keys (`Mirrored`). Of the policies it
has those that are found by their name; an older one of the same name is still a row in memory, but
nothing looks for it there. So a storage loaded from the backend answers as the one that wrote it
(`storage_survives_restart`).
-/

namespace Rhosus.Registry

section Backs

variable {α : Type} {codec : Codec α} {key : α → Bytes} {shown shown' : α → Prop}
variable {bucket : OrdMap Bytes Bytes} {a : α}

/-- The bucket has the bytes of the objects that are shown, each at its key. -/
def Backs (codec : Codec α) (key : α → Bytes) (shown : α → Prop) (bucket : OrdMap Bytes Bytes) :
    Prop :=
  ∀ k v, bucket[k]? = some v ↔ ∃ a, shown a ∧ key a = k ∧ codec.marshal a = v

theorem backs_empty (h : ∀ a, ¬ shown a) : Backs codec key shown ∅ := fun k v => by
  simp [h]

theorem Backs.insert (h : Backs codec key shown bucket)
    (hshown : ∀ b, shown' b ↔ b = a ∨ shown b ∧ key b ≠ key a) :
    Backs codec key shown' (bucket.insert (key a) (codec.marshal a)) := fun k v => by
  rw [OrdMap.get_insert]
  split_ifs with hk
  · rw [Option.some.injEq]
    constructor
    · rintro rfl
      exact ⟨a, (hshown a).mpr (.inl rfl), hk, rfl⟩
    · rintro ⟨b, hb, hkb, rfl⟩
      rcases (hshown b).mp hb with rfl | ⟨-, hne⟩
      · rfl
      · exact absurd (hkb.trans hk.symm) hne
  · rw [h]
    constructor
    · rintro ⟨b, hb, hkb, rfl⟩
      exact ⟨b, (hshown b).mpr (.inr ⟨hb, fun he => hk (he.symm.trans hkb)⟩), hkb, rfl⟩
    · rintro ⟨b, hb, hkb, rfl⟩
      rcases (hshown b).mp hb with rfl | ⟨hb, -⟩
      · exact absurd hkb hk
      · exact ⟨b, hb, hkb, rfl⟩

theorem Backs.erase (h : Backs codec key shown bucket) {k : Bytes}
    (hshown : ∀ b, shown' b ↔ shown b ∧ key b ≠ k) : Backs codec key shown' (bucket.erase k) :=
  fun k' v => by
    rw [OrdMap.get_erase]
    split_ifs with hk
    · simp only [false_iff, not_exists]
      rintro b ⟨hb, hkb, -⟩
      exact ((hshown b).mp hb).2 (hkb.trans hk.symm)
    · rw [h]
      refine exists_congr fun b => ?_
      rw [hshown]
      constructor
      · rintro ⟨hb, rfl, hv⟩
        exact ⟨⟨hb, fun he => hk he.symm⟩, rfl, hv⟩
      · rintro ⟨⟨hb, -⟩, hkb, hv⟩
        exact ⟨hb, hkb, hv⟩

theorem Backs.mem_objects (h : Backs codec key shown bucket) :
    a ∈ bucket.vals.filterMap codec.unmarshal ↔ shown a := by
  rw [List.mem_filterMap]
  constructor
  · rintro ⟨v, hv, ha⟩
    obtain ⟨k, hk⟩ := OrdMap.mem_vals.mp hv
    obtain ⟨b, hb, -, rfl⟩ := (h k v).mp hk
    rw [codec.unmarshal_marshal] at ha
    rwa [← Option.some.inj ha]
  · intro ha
    exact ⟨codec.marshal a, OrdMap.mem_vals.mpr ⟨key a, (h _ _).mpr ⟨a, ha, rfl, rfl⟩⟩,
      codec.unmarshal_marshal a⟩

theorem Backs.sorted_objects (h : Backs codec key shown bucket) :
    (bucket.vals.filterMap codec.unmarshal).Pairwise
      fun a b => compare (key a) (key b) = .lt := by
  have hkey : ∀ e ∈ bucket.toList, ∀ b, codec.unmarshal e.2 = some b → key b = e.1 := by
    intro e he b hb
    obtain ⟨c, -, hkc, hv⟩ := (h e.1 e.2).mp (Std.ExtTreeMap.mem_toList_iff_getElem?_eq_some.mp he)
    rw [← hv, codec.unmarshal_marshal] at hb
    rw [← Option.some.inj hb, hkc]
  rw [OrdMap.vals, List.filterMap_map]
  refine List.pairwise_filterMap.mpr ?_
  refine Std.ExtTreeMap.ordered_keys_toList.imp_of_mem fun {e e'} he he' hlt b hb b' hb' => ?_
  rwa [hkey e he b hb, hkey e' he' b' hb']

theorem Backs.nodup_objects (h : Backs codec key shown bucket) :
    ((bucket.vals.filterMap codec.unmarshal).map key).Nodup := by
  refine List.pairwise_map.mpr (h.sorted_objects.imp fun {a b} hlt heq => ?_)
  cases hlt.symm.trans (Std.LawfulEqCmp.compare_eq_iff_eq.mpr heq)

end Backs

section Mirrored

variable {ι α : Type} {S : Schema ι α} {codec : Codec α} {key : α → Bytes} {t t' : Table ι α}
variable {bucket : OrdMap Bytes Bytes} {a : α}

/-- A table with an entry for every row in every index, whose rows the bucket has. -/
structure Mirrored (S : Schema ι α) (codec : Codec α) (key : α → Bytes) (t : Table ι α)
    (bucket : OrdMap Bytes Bytes) : Prop where
  sound : t.Sound S
  complete : ∀ i, t.Complete S i
  backs : Backs codec key (t.Has S) bucket

theorem mirrored_empty : Mirrored S codec key (.empty : Table ι α) ∅ :=
  ⟨Table.sound_empty, fun _ => Table.complete_empty, backs_empty fun _ => Table.not_has_empty⟩

theorem Mirrored.delete (h : Mirrored S codec key t bucket) (hd : t.delete S a = some t')
    (hkey : ∀ b, t.Has S b → (S.id b = S.id a ↔ key b = key a)) :
    Mirrored S codec key t' (bucket.erase (key a)) where
  sound := h.sound.delete hd
  complete i := (h.complete i).delete h.sound hd
  backs := h.backs.erase fun b => by
    rw [Table.has_delete hd]
    exact and_congr_right fun hb => not_congr (hkey b hb)

theorem Mirrored.deleteAll : ∀ (as : List α) {t t' : Table ι α} {bucket : OrdMap Bytes Bytes},
    Mirrored S codec S.id t bucket → t.deleteAll S as = some t' →
      Mirrored S codec S.id t' ((as.map S.id).foldl (fun m k => m.erase k) bucket)
  | [], t, t', bucket, h, hd => by
    obtain rfl := Option.some.inj hd
    exact h
  | a :: as, t, t', bucket, h, hd => by
    rw [Table.deleteAll, List.foldlM_cons] at hd
    obtain ⟨t₁, h₁, hd⟩ := Option.bind_eq_some_iff.mp hd
    exact deleteAll as (h.delete h₁ fun _ _ => Iff.rfl) hd

variable [Fintype ι]

theorem Mirrored.insert (h : Mirrored S codec key t bucket) (hi : t.insert S a = some t')
    (hkey : ∀ b, t.Has S b → (S.id b = S.id a ↔ key b = key a))
    (hfree : ∀ i b, t.Has S b → S.key i b = S.key i a → S.id b = S.id a) :
    Mirrored S codec key t' (bucket.insert (key a) (codec.marshal a)) where
  sound := h.sound.insert hi
  complete i := (h.complete i).insert h.sound hi (hfree i)
  backs := h.backs.insert fun b => by
    rw [Table.has_insert hi]
    exact or_congr_right (and_congr_right fun hb => not_congr (hkey b hb))

theorem Mirrored.insertAll (hu : ∀ i, S.unique i = false) : ∀ (as : List α) {t t' : Table ι α}
    {bucket : OrdMap Bytes Bytes}, Mirrored S codec S.id t bucket → t.insertAll S as = some t' →
      Mirrored S codec S.id t' ((as.map fun a => (S.id a, codec.marshal a)).foldl
        (fun m e => m.insert e.1 e.2) bucket)
  | [], t, t', bucket, h, hi => by
    obtain rfl := Option.some.inj hi
    exact h
  | a :: as, t, t', bucket, h, hi => by
    rw [Table.insertAll, List.foldlM_cons] at hi
    obtain ⟨t₁, h₁, hi⟩ := Option.bind_eq_some_iff.mp hi
    exact insertAll hu as (h.insert h₁ (fun _ _ => Iff.rfl)
      fun i _ _ hk => Schema.id_eq_of_key (hu i) hk) hi

theorem Mirrored.load_eq (h : Mirrored S codec key t bucket) :
    Table.empty.load S (bucket.vals.filterMap codec.unmarshal) = t := by
  have hmem : ∀ {a}, a ∈ bucket.vals.filterMap codec.unmarshal ↔ t.Has S a := h.backs.mem_objects
  have hnodup := h.backs.nodup_objects.of_map
  obtain ⟨hs, hrows, hc⟩ := Table.load_spec (bucket.vals.filterMap codec.unmarshal)
    Table.sound_empty (fun a ha => h.sound.full (hmem.mp ha))
    (hnodup.map_on fun a ha b hb hid => by
      have ha : t.byId[S.id a]? = some a := hmem.mp ha
      rw [hid, show t.byId[S.id b]? = some b from hmem.mp hb] at ha
      exact (Option.some.inj ha).symm)
    (fun _ _ _ hb => absurd hb Table.not_has_empty)
  refine Table.ext_has hs h.sound (fun i => hc i Table.complete_empty ?_
    fun _ _ _ hb => absurd hb Table.not_has_empty) h.complete fun a => ?_
  · exact hnodup.map_on fun a ha b hb hk => (h.complete i).inj (hmem.mp ha) (hmem.mp hb) hk
  · rw [hrows, hmem, or_iff_right Table.not_has_empty]

end Mirrored

inductive Op
  | storeFile (file : FileInfo)
  | putBlocks (blocks : List BlockInfo)
  | deleteFile (file : FileInfo)
  | deleteFileWithBlocks (file : FileInfo)
  | deleteBlocks (blocks : List BlockInfo)
  | storeToken (token : Token)
  | revokeToken (token : Token)
  | storePolicy (p : Policy)
  | deletePolicy (p : Policy)

namespace Op

/-- The call, where every write to the backend succeeds. -/
def run (pb : Codecs) : Op → Storage → Except Err Unit × Storage
  | .storeFile file => Storage.storeFile pb file true
  | .putBlocks blocks => Storage.putBlocks pb blocks true
  | .deleteFile file => Storage.deleteFile file true
  | .deleteFileWithBlocks file => Storage.deleteFileWithBlocks file true true
  | .deleteBlocks blocks => Storage.deleteBlocks blocks true
  | .storeToken token => Storage.storeToken pb token true
  | .revokeToken token => Storage.revokeToken token true
  | .storePolicy p => Storage.storePolicy pb p true
  | .deletePolicy p => Storage.deletePolicy p true

def step (pb : Codecs) (op : Op) (s : Storage) : Option Storage :=
  match op.run pb s with
  | (.ok _, s') => some s'
  | (.error _, _) => none

/-- A file that is stored is new, by its id and its path; what is deleted is there; the accessor of
a token is its id; a policy that is stored has a new id, and one that is deleted was found by its
name. -/
def Allowed (op : Op) (s : Storage) : Prop :=
  match op with
  | .storeFile file => s.getFile file.id = none ∧ s.getFileByPath file.path = none
  | .putBlocks _ => True
  | .deleteFile file | .deleteFileWithBlocks file => s.getFile file.id = some file
  | .deleteBlocks blocks => ∀ b ∈ blocks, s.blocks.byId[b.id]? = some b
  | .storeToken token => token.accessor = token.id
  | .revokeToken token => s.getToken token.id = some token
  | .storePolicy p => s.policies.byId[p.id]? = none
  | .deletePolicy p => s.getPolicy p.name = some p

instance (op : Op) (s : Storage) : Decidable (op.Allowed s) := by
  unfold Allowed
  split <;> infer_instance

end Op

/-- What holds at every moment. -/
structure Kept (pb : Codecs) (s : Storage) : Prop where
  files : Mirrored filesTable pb.file FileInfo.path s.files (s.backend .file)
  blocks : Mirrored blocksTable pb.block BlockInfo.id s.blocks (s.backend .block)
  tokens : Mirrored tokensTable pb.token Token.id s.tokens (s.backend .token)
  accessor : ∀ t, s.tokens.Has tokensTable t → t.accessor = t.id
  policies : s.policies.Sound policiesTable
  shown : Backs pb.policy Policy.name (fun p => s.getPolicy p.name = some p) (s.backend .policy)

section Kept

variable {pb : Codecs} {s s' : Storage}

theorem kept_empty : Kept pb .empty where
  files := mirrored_empty
  blocks := mirrored_empty
  tokens := mirrored_empty
  accessor _ h := absurd h Table.not_has_empty
  policies := Table.sound_empty
  shown := backs_empty fun p => by simp [Storage.getPolicy, Table.first, Storage.empty, Table.empty]

theorem Kept.storeFile (h : Kept pb s) {file : FileInfo} (hid : s.getFile file.id = none)
    (hpath : s.getFileByPath file.path = none) (hs : Op.step pb (.storeFile file) s = some s') :
    Kept pb s' := by
  have hid' : ∀ b, s.files.Has filesTable b → filesTable.id b ≠ filesTable.id file := by
    intro b hb he
    rw [Table.Has, he, show s.files.byId[filesTable.id file]? = none from hid] at hb
    cases hb
  have hpath' : ∀ b, s.files.Has filesTable b → b.path ≠ file.path := by
    intro b hb he
    have hfirst := (Table.first_iff h.files.sound (h.files.complete .path) rfl).mpr
      ⟨hb, show filesTable.field .path b = file.path from he⟩
    rw [Storage.getFileByPath, hfirst] at hpath
    cases hpath
  rw [Op.step, Op.run, Storage.storeFile] at hs
  rcases hi : s.files.insert filesTable file with _ | files <;> rw [hi] at hs
  · cases hs
  · obtain rfl := Option.some.inj hs
    refine { h with files := h.files.insert hi (fun b hb => ?_) fun i b hb hk => ?_ }
    · exact iff_of_false (hid' b hb) (hpath' b hb)
    · cases i with
      | path => exact absurd (Schema.field_eq_of_key hk) (hpath' b hb)
      | parentId => exact Schema.id_eq_of_key rfl hk

/-- Of a stored file the id and the path go together. -/
theorem Kept.id_iff_path (h : Kept pb s) {file : FileInfo} (hf : s.getFile file.id = some file)
    (b : FileInfo) (hb : s.files.Has filesTable b) :
    filesTable.id b = filesTable.id file ↔ b.path = file.path := by
  constructor
  · intro hid
    rw [Table.Has, hid, show s.files.byId[filesTable.id file]? = some file from hf] at hb
    rw [Option.some.inj hb]
  · intro hpath
    have hkey : filesTable.key .path b = filesTable.key .path file := by
      rw [filesTable_pathKey, filesTable_pathKey, hpath]
    rw [(h.files.complete .path).inj hb hf hkey]

theorem Kept.deleteFile (h : Kept pb s) {file : FileInfo} (hf : s.getFile file.id = some file)
    (hs : Op.step pb (.deleteFile file) s = some s') : Kept pb s' := by
  rw [Op.step, Op.run, Storage.deleteFile] at hs
  rcases hd : s.files.delete filesTable file with _ | files <;> rw [hd] at hs
  · cases hs
  · obtain rfl := Option.some.inj hs
    exact { h with files := h.files.delete hd (h.id_iff_path hf) }

theorem Kept.deleteBlocks (h : Kept pb s) {blocks : List BlockInfo}
    (hs : Op.step pb (.deleteBlocks blocks) s = some s') : Kept pb s' := by
  rw [Op.step, Op.run, Storage.deleteBlocks] at hs
  rcases hd : s.blocks.deleteAll blocksTable blocks with _ | table <;> rw [hd] at hs
  · cases hs
  · obtain rfl := Option.some.inj hs
    exact { h with blocks := Mirrored.deleteAll blocks h.blocks hd }

theorem Kept.deleteFileWithBlocks (h : Kept pb s) {file : FileInfo}
    (hf : s.getFile file.id = some file)
    (hs : Op.step pb (.deleteFileWithBlocks file) s = some s') : Kept pb s' := by
  rw [Op.step, Op.run, Storage.deleteFileWithBlocks] at hs
  rcases hb : s.blocks.deleteAll blocksTable (s.blocks.get .fileId file.id) with _ | table <;>
    rw [hb] at hs
  · cases hs
  rcases hd : s.files.delete filesTable file with _ | files <;> rw [hd] at hs
  · cases hs
  · obtain rfl := Option.some.inj hs
    exact { h with
      files := h.files.delete hd (h.id_iff_path hf)
      blocks := Mirrored.deleteAll _ h.blocks hb }

theorem Kept.putBlocks (h : Kept pb s) {blocks : List BlockInfo}
    (hs : Op.step pb (.putBlocks blocks) s = some s') : Kept pb s' := by
  rw [Op.step, Op.run, Storage.putBlocks] at hs
  rcases hi : s.blocks.insertAll blocksTable blocks with _ | table <;> rw [hi] at hs
  · cases hs
  · obtain rfl := Option.some.inj hs
    exact { h with blocks := Mirrored.insertAll (fun | .fileId => rfl) blocks h.blocks hi }

theorem Kept.storeToken (h : Kept pb s) {token : Token} (hacc : token.accessor = token.id)
    (hs : Op.step pb (.storeToken token) s = some s') : Kept pb s' := by
  rw [Op.step, Op.run, Storage.storeToken] at hs
  rcases hi : s.tokens.insert tokensTable token with _ | tokens <;> rw [hi] at hs
  · cases hs
  · obtain rfl := Option.some.inj hs
    refine { h with
      tokens := h.tokens.insert hi (fun _ _ => Iff.rfl) fun i b hb hk => ?_
      accessor := fun b hb => ?_ }
    · cases i
      have hacc' : b.accessor = token.accessor := Schema.field_eq_of_key hk
      exact (h.accessor b hb).symm.trans (hacc'.trans hacc)
    · rcases (Table.has_insert hi).mp hb with rfl | hb
      · exact hacc
      · exact h.accessor b hb.1

theorem Kept.revokeToken (h : Kept pb s) {token : Token}
    (hs : Op.step pb (.revokeToken token) s = some s') : Kept pb s' := by
  rw [Op.step, Op.run, Storage.revokeToken] at hs
  rcases hd : s.tokens.delete tokensTable token with _ | tokens <;> rw [hd] at hs
  · cases hs
  · obtain rfl := Option.some.inj hs
    exact { h with
      tokens := h.tokens.delete hd fun _ _ => Iff.rfl
      accessor := fun b hb => h.accessor b ((Table.has_delete hd).mp hb).1 }

theorem Kept.storePolicy (h : Kept pb s) {p : Policy} (hid : s.policies.byId[p.id]? = none)
    (hs : Op.step pb (.storePolicy p) s = some s') : Kept pb s' := by
  rw [Op.step, Op.run, Storage.storePolicy] at hs
  rcases hi : s.policies.insert policiesTable p with _ | policies <;> rw [hi] at hs
  · cases hs
  · obtain rfl := Option.some.inj hs
    refine { h with policies := h.policies.insert hi, shown := h.shown.insert fun q => ?_ }
    change (policies.index .name)[[q.name]]? = some q ↔ _
    rw [Table.index_insert hi, policiesTable_nameKey,
      show s.policies.byId[policiesTable.id p]? = none from hid]
    by_cases hname : q.name = p.name
    · rw [if_pos (congrArg (fun n => [n]) hname.symm), Option.some.injEq, eq_comm]
      exact ⟨.inl, fun hq => hq.resolve_right fun hq => hq.2 hname⟩
    · have hne : q ≠ p := fun he => hname (by rw [he])
      rw [if_neg fun he => hname (List.cons.inj he).1.symm, or_iff_right hne, and_iff_left hname]
      rfl

theorem Kept.deletePolicy (h : Kept pb s) {p : Policy} (hp : s.getPolicy p.name = some p)
    (hs : Op.step pb (.deletePolicy p) s = some s') : Kept pb s' := by
  have hhas : s.policies.Has policiesTable p := (h.policies.index hp).1
  rw [Op.step, Op.run, Storage.deletePolicy, Table.delete_of_has hhas] at hs
  obtain rfl := Option.some.inj hs
  refine { h with
    policies := h.policies.delete (Table.delete_of_has hhas)
    shown := h.shown.erase fun q => ?_ }
  change ((s.policies.index .name).erase (policiesTable.key .name p))[[q.name]]? = some q ↔ _
  rw [policiesTable_nameKey, OrdMap.get_erase]
  by_cases hname : q.name = p.name
  · rw [if_pos (congrArg (fun n => [n]) hname.symm)]
    simp [hname]
  · rw [if_neg fun he => hname (List.cons.inj he).1.symm, and_iff_left hname]
    rfl

theorem Kept.step (h : Kept pb s) {op : Op} (hop : op.Allowed s) (hs : op.step pb s = some s') :
    Kept pb s' := by
  cases op with
  | storeFile file => exact h.storeFile hop.1 hop.2 hs
  | putBlocks blocks => exact h.putBlocks hs
  | deleteFile file => exact h.deleteFile hop hs
  | deleteFileWithBlocks file => exact h.deleteFileWithBlocks hop hs
  | deleteBlocks blocks => exact h.deleteBlocks hs
  | storeToken token => exact h.storeToken hop hs
  | revokeToken token => exact h.revokeToken hs
  | storePolicy p => exact h.storePolicy hop hs
  | deletePolicy p => exact h.deletePolicy hop hs

/-- The policies found by their names are the same in the storage loaded from the backend. -/
theorem Kept.policies_load (h : Kept pb s) :
    (Storage.loadFromBackend pb s.backend).policies.index .name = s.policies.index .name := by
  have hmem : ∀ {p}, p ∈ (s.backend .policy).vals.filterMap pb.policy.unmarshal
      ↔ s.getPolicy p.name = some p := h.shown.mem_objects
  have hnodup := h.shown.nodup_objects
  have hhas : ∀ {p}, p ∈ (s.backend .policy).vals.filterMap pb.policy.unmarshal →
      s.policies.Has policiesTable p := fun hp => (h.policies.index (hmem.mp hp)).1
  obtain ⟨hs, hrows, hc⟩ := Table.load_spec (S := policiesTable)
    ((s.backend .policy).vals.filterMap pb.policy.unmarshal) Table.sound_empty
    (fun p hp => h.policies.full (hhas hp))
    (hnodup.of_map.map_on fun p hp q hq hid => by
      have hp := hhas hp
      rw [Table.Has, hid, show s.policies.byId[policiesTable.id q]? = some q from hhas hq] at hp
      exact (Option.some.inj hp).symm)
    (fun _ _ _ hb => absurd hb Table.not_has_empty)
  have hc := hc .name Table.complete_empty
    (hnodup.of_map.map_on fun p hp q hq hk => by
      have hname : p.name = q.name := Schema.field_eq_of_key hk
      have hp := hmem.mp hp
      rw [hname, hmem.mp hq] at hp
      exact (Option.some.inj hp).symm)
    fun _ _ _ hb => absurd hb Table.not_has_empty
  refine Std.ExtTreeMap.ext_getElem? fun k => Option.ext fun p => ?_
  change ((Table.empty.load policiesTable _).index .name)[k]? = some p ↔ _
  rw [hs.index_iff hc, hrows, or_iff_right Table.not_has_empty, hmem, policiesTable_nameKey]
  constructor
  · rintro ⟨hp, rfl⟩
    exact hp
  · intro hk
    obtain ⟨-, rfl⟩ := h.policies.index hk
    exact ⟨hk, rfl⟩

end Kept

/-- Two storages give the same answers. -/
structure SameAnswers (s s' : Storage) : Prop where
  getFile : ∀ id, s.getFile id = s'.getFile id
  getFileByPath : ∀ path, s.getFileByPath path = s'.getFileByPath path
  getFilesByParentId : ∀ id, s.getFilesByParentId id = s'.getFilesByParentId id
  getBlocks : ∀ (sorter sorter' : Sorter) id,
    (s.getBlocks sorter id).Perm (s'.getBlocks sorter' id)
  getToken : ∀ accessor, s.getToken accessor = s'.getToken accessor
  listTokens : s.listTokens = s'.listTokens
  getPolicy : ∀ name, s.getPolicy name = s'.getPolicy name
  listPolicies : s.listPolicies = s'.listPolicies

theorem Kept.sameAnswers {pb : Codecs} {s : Storage} (h : Kept pb s) :
    SameAnswers s (Storage.loadFromBackend pb s.backend) := by
  have hfiles : (Storage.loadFromBackend pb s.backend).files = s.files := h.files.load_eq
  have hblocks : (Storage.loadFromBackend pb s.backend).blocks = s.blocks := h.blocks.load_eq
  have htokens : (Storage.loadFromBackend pb s.backend).tokens = s.tokens := h.tokens.load_eq
  have hpolicies := h.policies_load
  constructor
  · intro id
    rw [Storage.getFile, Storage.getFile, hfiles]
  · intro path
    rw [Storage.getFileByPath, Storage.getFileByPath, hfiles]
  · intro id
    rw [Storage.getFilesByParentId, Storage.getFilesByParentId, hfiles]
  · intro sorter sorter' id
    rw [Storage.getBlocks, Storage.getBlocks, hblocks]
    exact (sorter.perm _ _).trans (sorter'.perm _ _).symm
  · intro accessor
    rw [Storage.getToken, Storage.getToken, htokens]
  · rw [Storage.listTokens, Storage.listTokens, htokens]
  · intro name
    rw [Storage.getPolicy, Storage.getPolicy, Table.first, Table.first, hpolicies]
  · rw [Storage.listPolicies, Storage.listPolicies, hpolicies]

/-- Whatever calls have succeeded on a storage, one loaded from its backend gives
the same answers. -/
theorem storage_survives_restart (pb : Codecs) (ops : List Op) {s : Storage}
    (hops : Along (Op.step pb) Op.Allowed ops .empty)
    (hrun : runSteps (Op.step pb) ops .empty = some s) :
    SameAnswers s (Storage.loadFromBackend pb s.backend) :=
  (Along.invariant (fun _ _ _ h hop hs => Kept.step h hop hs) ops kept_empty hops hrun).sameAnswers

section Witness

/-- A directory with a file of one block, which is removed; a token; and two policies of the same
name. -/
def someOps : List Op :=
  let dir : FileInfo := ⟨[1], [0], .dir, [97], [97], 0, 0, [], [], [], 0⟩
  let file : FileInfo := ⟨[2], [1], .file, [98], [97, 47, 98], 3, 0, [], [], [], 2⟩
  [.storeFile dir, .putBlocks [⟨[3], 1, 0, [2], [⟨[7], [8]⟩]⟩], .storeFile file,
    .storeToken ⟨[4], [], [], [4], 0, 0, [], [], false⟩, .storePolicy ⟨[5], [99], []⟩,
    .storePolicy ⟨[6], [99], []⟩, .deleteFileWithBlocks file]

/-- The newer policy is found by the name, also after a restart. -/
theorem storage_survives_restart_someOps : ∃ s,
    runSteps (Op.step someCodecs) someOps .empty = some s
      ∧ s.getPolicy [99] = some ⟨[6], [99], []⟩ ∧ s.getFileByPath [97, 47, 98] = none
      ∧ SameAnswers s (Storage.loadFromBackend someCodecs s.backend) := by
  obtain ⟨s, hrun⟩ : ∃ s, runSteps (Op.step someCodecs) someOps .empty = some s :=
    Option.isSome_iff_exists.mp (by decide +kernel)
  have hend : (runSteps (Op.step someCodecs) someOps .empty).map
      (fun s => (s.getPolicy [99], s.getFileByPath [97, 47, 98]))
        = some (some ⟨[6], [99], []⟩, none) := by decide +kernel
  rw [hrun, Option.map_some, Option.some.injEq, Prod.mk.injEq] at hend
  exact ⟨s, hrun, hend.1, hend.2,
    storage_survives_restart someCodecs someOps (by decide +kernel) hrun⟩

end Witness

end Rhosus.Registry

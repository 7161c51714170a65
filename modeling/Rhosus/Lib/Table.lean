import Rhosus.Lib.Uvarint
import Mathlib.Data.Fintype.Basic

/-!
# Tables with indexes

A table keeps its rows by their primary key, and in indexes by other fields. An insertion replaces
the row with the same primary key and takes that one's entries out of the indexes. A unique index
has one entry for a value, of the row inserted last; one that is not unique has an entry for each
row. Every entry of an index is of a row of the table (`Sound`); that every row has its entry
(`Complete`) is so as long as rows with equal values do not come together in a unique index. Such a
table is determined by its rows (`Table.ext_has`).

So `go-memdb` documents its tables: `Insert` replaces by the index `id`, `Delete` returns an error
where there is no such row, a `StringFieldIndex` takes an empty string for a missing value and
refuses it, and an iterator goes through the entries in the order of their keys.

Maps are ordered by their keys, which gives the order of iteration.
-/

namespace Rhosus

-- Named, or what lists an index rests on a lemma of `Table.insert`.
instance transOrd_bytes : Std.TransOrd (List Bytes) := inferInstance

abbrev OrdMap (K V : Type) [Ord K] := Std.ExtTreeMap K V compare

namespace OrdMap

variable {K V : Type} [Ord K] [Std.TransOrd K] [Std.LawfulEqOrd K] [DecidableEq K] {m : OrdMap K V}

theorem get_insert (m : OrdMap K V) (k a : K) (v : V) :
    (m.insert k v)[a]? = if k = a then some v else m[a]? := by
  rw [Std.ExtTreeMap.getElem?_insert]
  simp only [Std.LawfulEqCmp.compare_eq_iff_eq]

theorem get_erase (m : OrdMap K V) (k a : K) :
    (m.erase k)[a]? = if k = a then none else m[a]? := by
  rw [Std.ExtTreeMap.getElem?_erase]
  simp only [Std.LawfulEqCmp.compare_eq_iff_eq]

theorem get_modify (m : OrdMap K V) (k a : K) (f : V → V) :
    (m.modify k f)[a]? = if k = a then m[a]?.map f else m[a]? := by
  rw [Std.ExtTreeMap.getElem?_modify]
  by_cases h : k = a
  · rw [if_pos h, if_pos (Std.LawfulEqCmp.compare_eq_iff_eq.mpr h), h]
  · rw [if_neg h, if_neg fun he => h (Std.LawfulEqCmp.compare_eq_iff_eq.mp he)]

theorem get_insert_of_ne {k a : K} (h : k ≠ a) (v : V) : (m.insert k v)[a]? = m[a]? :=
  (get_insert ..).trans (if_neg h)

theorem get_erase_of_ne {k a : K} (h : k ≠ a) : (m.erase k)[a]? = m[a]? :=
  (get_erase ..).trans (if_neg h)

theorem get_modify_of_ne {k a : K} (h : k ≠ a) (f : V → V) : (m.modify k f)[a]? = m[a]? :=
  (get_modify ..).trans (if_neg h)

omit [DecidableEq K] in
theorem erase_erase (m : OrdMap K V) (k k' : K) : (m.erase k).erase k' = (m.erase k').erase k := by
  classical
  refine Std.ExtTreeMap.ext_getElem? fun a => ?_
  simp only [get_erase]
  split_ifs <;> rfl

instance : RightCommutative fun (m : OrdMap K V) (k : K) => m.erase k := ⟨erase_erase⟩

def vals (m : OrdMap K V) : List V := m.toList.map Prod.snd

omit [DecidableEq K] in
theorem mem_vals {v : V} : v ∈ m.vals ↔ ∃ k : K, m[k]? = some v := by
  simp only [vals, List.mem_map, Prod.exists, exists_eq_right,
    Std.ExtTreeMap.mem_toList_iff_getElem?_eq_some]

section Batches

def putAll (m : OrdMap K V) (es : List (K × V)) : OrdMap K V :=
  es.foldl (fun m e => m.insert e.1 e.2) m

def eraseAll (m : OrdMap K V) (ks : List K) : OrdMap K V := ks.foldl (fun m k => m.erase k) m

/-- The value that is put last under a key. -/
def lastPut : List (K × V) → K → Option V
  | [], _ => none
  | e :: es, k => (lastPut es k).or (if e.1 = k then some e.2 else none)

theorem get_putAll {k : K} : ∀ (es : List (K × V)) (m : OrdMap K V),
    (m.putAll es)[k]? = (lastPut es k).or m[k]?
  | [], m => by simp [putAll, lastPut]
  | e :: es, m => by
    have hrest := get_putAll (k := k) es (m.insert e.1 e.2)
    rw [get_insert] at hrest
    rw [lastPut, Option.or_assoc]
    refine hrest.trans (congrArg _ ?_)
    split_ifs <;> rfl

theorem get_eraseAll {k : K} : ∀ (ks : List K) (m : OrdMap K V),
    (m.eraseAll ks)[k]? = if k ∈ ks then none else m[k]?
  | [], m => by simp [eraseAll]
  | k' :: ks, m => by
    have hrest := get_eraseAll (k := k) ks (m.erase k')
    rw [get_erase] at hrest
    refine hrest.trans ?_
    by_cases hk : k' = k
    · simp [hk]
    · simp [hk, Ne.symm hk]

omit [Ord K] [Std.TransOrd K] [Std.LawfulEqOrd K] in
theorem lastPut_eq_none {k : K} : ∀ {es : List (K × V)},
    lastPut es k = none ↔ k ∉ es.map Prod.fst
  | [] => by simp [lastPut]
  | e :: es => by
    rw [lastPut, Option.or_eq_none_iff, lastPut_eq_none, List.map_cons, List.mem_cons, not_or,
      and_comm, ite_eq_right_iff]
    simp [eq_comm]

omit [Ord K] [Std.TransOrd K] [Std.LawfulEqOrd K] in
theorem mem_of_lastPut {k : K} {v : V} : ∀ {es : List (K × V)}, lastPut es k = some v → (k, v) ∈ es
  | e :: es, h => by
    rw [lastPut, Option.or_eq_some_iff] at h
    rcases h with h | ⟨-, h⟩
    · exact List.mem_cons_of_mem _ (mem_of_lastPut h)
    · split_ifs at h with hk
      obtain rfl := hk
      obtain rfl := Option.some.inj h
      exact List.mem_cons_self

omit [Ord K] [Std.TransOrd K] [Std.LawfulEqOrd K] in
/-- Where nothing else is put under a key, it does not matter when. -/
theorem lastPut_of_mem {k : K} {v : V} {es : List (K × V)} (h : (k, v) ∈ es)
    (hall : ∀ v', (k, v') ∈ es → v' = v) : lastPut es k = some v := by
  rcases hv : lastPut es k with _ | v'
  · exact absurd (List.mem_map_of_mem (f := Prod.fst) h) (lastPut_eq_none.mp hv)
  · rw [hall v' (mem_of_lastPut hv)]

/-- Some of the entries are put, where all are to be and what is under the keys `ks` is to go: that
makes no difference if and only if the others have been there before, and nothing was under these
keys but what is replaced. -/
theorem putAll_eq_iff {es es' : List (K × V)} (hsub : es'.Sublist es) {ks : List K} :
    m.putAll es' = (m.eraseAll ks).putAll es
      ↔ (∀ k v, lastPut es k = some v → (lastPut es' k).or m[k]? = some v)
        ∧ ∀ k ∈ ks, k ∈ m → k ∈ es.map Prod.fst := by
  have hnone : ∀ {k : K}, lastPut es k = none → lastPut es' k = none := fun h =>
    lastPut_eq_none.mpr fun hk => lastPut_eq_none.mp h ((hsub.map _).subset hk)
  constructor
  · intro h
    have hget : ∀ k : K, (lastPut es' k).or m[k]?
        = (lastPut es k).or (if k ∈ ks then none else m[k]?) := fun k => by
      rw [← get_putAll, h, get_putAll, get_eraseAll]
    refine ⟨fun k v hv => ?_, fun k hk hmem => ?_⟩
    · rw [hget, hv, Option.some_or]
    · by_contra hno
      have hk' := hget k
      rw [lastPut_eq_none.mpr hno, hnone (lastPut_eq_none.mpr hno), if_pos hk, Option.none_or,
        Option.none_or] at hk'
      rw [Std.ExtTreeMap.mem_iff_isSome_getElem?, hk'] at hmem
      cases hmem
  · rintro ⟨hput, hgone⟩
    refine Std.ExtTreeMap.ext_getElem? fun k => ?_
    rw [get_putAll, get_putAll, get_eraseAll]
    rcases hv : lastPut es k with _ | v
    · rw [hnone hv, Option.none_or, Option.none_or]
      split_ifs with hk
      · exact Std.ExtTreeMap.getElem?_eq_none fun hmem =>
          lastPut_eq_none.mp hv (hgone k hk hmem)
      · rfl
    · rw [hput k v hv, Option.some_or]

theorem eraseAll_eq_iff {ks ks' : List K} :
    m.eraseAll ks = m.eraseAll ks' ↔ ∀ k ∈ m, k ∈ ks ↔ k ∈ ks' := by
  constructor
  · intro h k hk
    have hget := congrArg (fun m : OrdMap K V => m[k]?) h
    obtain ⟨v, hv⟩ := Option.isSome_iff_exists.mp (Std.ExtTreeMap.mem_iff_isSome_getElem?.mp hk)
    simp only [get_eraseAll, hv] at hget
    by_cases hks : k ∈ ks <;> by_cases hks' : k ∈ ks' <;> simp_all
  · intro h
    refine Std.ExtTreeMap.ext_getElem? fun k => ?_
    rw [get_eraseAll, get_eraseAll]
    by_cases hk : k ∈ m
    · simp only [h k hk]
    · rw [Std.ExtTreeMap.getElem?_eq_none hk, ite_self, ite_self]

end Batches

end OrdMap

/-- What a table is indexed by: the primary key, and the fields of the other indexes. -/
structure Schema (ι α : Type) where
  id : α → Bytes
  field : ι → α → Bytes
  unique : ι → Bool

structure Table (ι α : Type) where
  byId : OrdMap Bytes α
  index : ι → OrdMap (List Bytes) α

variable {ι α : Type} (S : Schema ι α)

namespace Schema

/-- The key of a row in an index. Where that is not unique, the primary key makes it so. -/
def key (i : ι) (a : α) : List Bytes := if S.unique i then [S.field i a] else [S.field i a, S.id a]

/-- The row has a value for every index: an empty string counts as none. -/
def Full (a : α) : Prop := S.id a ≠ [] ∧ ∀ i, S.field i a ≠ []

instance [Fintype ι] (a : α) : Decidable (S.Full a) :=
  inferInstanceAs (Decidable (_ ∧ ∀ i, S.field i a ≠ []))

variable {S} {i : ι} {a b : α}

theorem key_of_unique (h : S.unique i = true) : S.key i a = [S.field i a] := by
  rw [key, if_pos h]

theorem field_eq_of_key (h : S.key i a = S.key i b) : S.field i a = S.field i b := by
  unfold key at h
  split_ifs at h
  · exact (List.cons.inj h).1
  · exact (List.cons.inj h).1

theorem id_eq_of_key (hi : S.unique i = false) (h : S.key i a = S.key i b) : S.id a = S.id b := by
  simp only [key, hi, Bool.false_eq_true, if_false, List.cons.injEq, and_true] at h
  exact h.2

end Schema

namespace Table

def empty : Table ι α := ⟨∅, fun _ => ∅⟩

/-- Nothing where the row lacks a value. -/
def insert [Fintype ι] (a : α) (t : Table ι α) : Option (Table ι α) :=
  if S.Full a then
    some
      { byId := t.byId.insert (S.id a) a
        index := fun i =>
          (match t.byId[S.id a]? with
          | some old =>
            if S.key i old = S.key i a then t.index i else (t.index i).erase (S.key i old)
          | none => t.index i).insert (S.key i a) a }
  else none

/-- Nothing where there is no row with this primary key. -/
def delete (a : α) (t : Table ι α) : Option (Table ι α) :=
  match t.byId[S.id a]? with
  | none => none
  | some old =>
    some { byId := t.byId.erase (S.id a), index := fun i => (t.index i).erase (S.key i old) }

def insertAll [Fintype ι] (as : List α) (t : Table ι α) : Option (Table ι α) :=
  as.foldlM (fun t a => t.insert S a) t

def deleteAll (as : List α) (t : Table ι α) : Option (Table ι α) :=
  as.foldlM (fun t a => t.delete S a) t

/-- The rows inserted one after the other, but for those that lack a value. -/
def load [Fintype ι] (as : List α) (t : Table ι α) : Table ι α :=
  as.foldl (fun t a => (t.insert S a).getD t) t

/-- The row with this value in a unique index. -/
def first (i : ι) (v : Bytes) (t : Table ι α) : Option α := (t.index i)[[v]]?

/-- The rows with this value in an index. -/
def get (i : ι) (v : Bytes) (t : Table ι α) : List α :=
  ((t.index i).toList.filter fun e => e.1.head? = some v).map Prod.snd

def Has (t : Table ι α) (a : α) : Prop := t.byId[S.id a]? = some a

structure Sound (t : Table ι α) : Prop where
  id : ∀ {k : Bytes} {a : α}, t.byId[k]? = some a → S.id a = k
  full : ∀ {a : α}, t.Has S a → S.Full a
  index : ∀ {i : ι} {k : List Bytes} {a : α}, (t.index i)[k]? = some a → t.Has S a ∧ S.key i a = k

/-- Every row has its entry in the index. -/
def Complete (t : Table ι α) (i : ι) : Prop :=
  ∀ a, t.Has S a → (t.index i)[S.key i a]? = some a

variable {S} {t t' : Table ι α} {i : ι} {a b : α}

theorem Sound.byId_iff (h : t.Sound S) {k : Bytes} :
    t.byId[k]? = some a ↔ t.Has S a ∧ S.id a = k := by
  constructor
  · intro hk
    have hid := h.id hk
    exact ⟨by rw [Has, hid, hk], hid⟩
  · rintro ⟨ha, rfl⟩
    exact ha

theorem Sound.index_iff (h : t.Sound S) (hc : t.Complete S i) {k : List Bytes} :
    (t.index i)[k]? = some a ↔ t.Has S a ∧ S.key i a = k :=
  ⟨h.index, fun ⟨ha, hk⟩ => hk ▸ hc a ha⟩

theorem Complete.inj (hc : t.Complete S i) (ha : t.Has S a) (hb : t.Has S b)
    (h : S.key i a = S.key i b) : a = b := by
  have := hc a ha
  rw [h, hc b hb] at this
  exact (Option.some.inj this).symm

theorem ext_has (h : t.Sound S) (h' : t'.Sound S) (hc : ∀ i, t.Complete S i)
    (hc' : ∀ i, t'.Complete S i) (hrows : ∀ a, t.Has S a ↔ t'.Has S a) : t = t' := by
  have hid : t.byId = t'.byId := Std.ExtTreeMap.ext_getElem? fun k => Option.ext fun a => by
    rw [h.byId_iff, h'.byId_iff, hrows]
  have hindex : t.index = t'.index := funext fun i => Std.ExtTreeMap.ext_getElem? fun k =>
    Option.ext fun a => by rw [h.index_iff (hc i), h'.index_iff (hc' i), hrows]
  cases t
  cases t'
  simp_all

theorem sound_empty : (empty : Table ι α).Sound S where
  id h := by simp [empty] at h
  full h := by simp [Has, empty] at h
  index h := by simp [empty] at h

theorem not_has_empty : ¬ (empty : Table ι α).Has S a := by simp [Has, empty]

theorem complete_empty : (empty : Table ι α).Complete S i := fun _ h => absurd h not_has_empty

section Delete

theorem delete_of_has (ha : t.Has S a) : t.delete S a
    = some ⟨t.byId.erase (S.id a), fun i => (t.index i).erase (S.key i a)⟩ := by
  unfold delete
  rw [show t.byId[S.id a]? = some a from ha]

theorem delete_eq_some (hd : t.delete S a = some t') : ∃ old, t.byId[S.id a]? = some old
    ∧ t' = ⟨t.byId.erase (S.id a), fun i => (t.index i).erase (S.key i old)⟩ := by
  unfold delete at hd
  split at hd
  · cases hd
  · rename_i old hold
    exact ⟨old, hold, (Option.some.inj hd).symm⟩

theorem has_delete (hd : t.delete S a = some t') :
    t'.Has S b ↔ t.Has S b ∧ S.id b ≠ S.id a := by
  obtain ⟨old, -, rfl⟩ := delete_eq_some hd
  rw [Has, OrdMap.get_erase]
  split_ifs with hid
  · simp [hid.symm]
  · exact ⟨fun hb => ⟨hb, fun he => hid he.symm⟩, fun hb => hb.1⟩

theorem Sound.delete (h : t.Sound S) (hd : t.delete S a = some t') : t'.Sound S where
  id {k b} hk := by
    obtain ⟨old, -, rfl⟩ := delete_eq_some hd
    rw [OrdMap.get_erase] at hk
    split_ifs at hk
    exact h.id hk
  full hb := h.full ((has_delete hd).mp hb).1
  index {i k b} hk := by
    rw [has_delete hd]
    obtain ⟨old, hold, rfl⟩ := delete_eq_some hd
    rw [OrdMap.get_erase] at hk
    split_ifs at hk with hkey
    obtain ⟨hb, rfl⟩ := h.index hk
    -- the row that goes is the one with this primary key
    refine ⟨⟨hb, fun hid => hkey ?_⟩, rfl⟩
    rw [Has, hid, hold] at hb
    rw [Option.some.inj hb]

theorem Complete.delete (h : t.Sound S) (hc : t.Complete S i) (hd : t.delete S a = some t') :
    t'.Complete S i := by
  intro b hb'
  obtain ⟨hb, hid⟩ := (has_delete hd).mp hb'
  obtain ⟨old, hold, rfl⟩ := delete_eq_some hd
  obtain ⟨hhas, hold⟩ := h.byId_iff.mp hold
  rw [OrdMap.get_erase, if_neg, hc b hb]
  intro hkey
  rw [hc.inj hhas hb hkey] at hold
  exact hid hold

end Delete

section Insert

variable [Fintype ι]

theorem insert_of_full (ha : S.Full a) : ∃ t', t.insert S a = some t' := by
  unfold insert
  rw [if_pos ha]
  exact ⟨_, rfl⟩

theorem full_of_insert (hi : t.insert S a = some t') : S.Full a := by
  unfold insert at hi
  split_ifs at hi with ha
  exact ha

theorem has_insert (hi : t.insert S a = some t') :
    t'.Has S b ↔ b = a ∨ t.Has S b ∧ S.id b ≠ S.id a := by
  unfold insert at hi
  split_ifs at hi
  obtain rfl := Option.some.inj hi
  rw [Has, OrdMap.get_insert]
  split_ifs with hid
  · rw [Option.some.injEq, eq_comm]
    simp [hid.symm]
  · have hne : b ≠ a := fun he => hid (by rw [he])
    simp only [hne, false_or]
    exact ⟨fun hb => ⟨hb, fun he => hid he.symm⟩, fun hb => hb.1⟩

theorem index_insert (hi : t.insert S a = some t') (i : ι) (k : List Bytes) :
    (t'.index i)[k]? = if S.key i a = k then some a
      else if (t.byId[S.id a]?).any (fun old => S.key i old = k) then none
      else (t.index i)[k]? := by
  unfold insert at hi
  split_ifs at hi
  obtain rfl := Option.some.inj hi
  rw [OrdMap.get_insert]
  split_ifs with hkey hold
  · rfl
  · rcases hb : t.byId[S.id a]? with _ | old <;> rw [hb] at hold
    · cases hold
    · have hold : S.key i old = k := by simpa using hold
      dsimp only
      rw [if_neg (fun he => hkey (he.symm.trans hold)), OrdMap.get_erase, if_pos hold]
  · rcases hb : t.byId[S.id a]? with _ | old
    · rfl
    · rw [hb] at hold
      have hold : S.key i old ≠ k := by simpa using hold
      by_cases hsame : S.key i old = S.key i a
      · simp only [hsame, if_true]
      · simp only [hsame, if_false, OrdMap.get_erase, if_neg hold]

theorem index_insert_of_new (hi : t.insert S a = some t') (hnew : t.byId[S.id a]? = none) (i : ι)
    (k : List Bytes) :
    (t'.index i)[k]? = if S.key i a = k then some a else (t.index i)[k]? := by
  rw [index_insert hi, hnew]
  rfl

theorem Sound.insert (h : t.Sound S) (hi : t.insert S a = some t') : t'.Sound S where
  id {k b} hk := by
    unfold Table.insert at hi
    split_ifs at hi
    obtain rfl := Option.some.inj hi
    rw [OrdMap.get_insert] at hk
    split_ifs at hk with hid
    · obtain rfl := Option.some.inj hk
      exact hid
    · exact h.id hk
  full {b} hb := by
    rcases (has_insert hi).mp hb with rfl | hb
    · exact full_of_insert hi
    · exact h.full hb.1
  index {i k b} hk := by
    rw [has_insert hi]
    rw [index_insert hi] at hk
    split_ifs at hk with hkey hold
    · obtain rfl := Option.some.inj hk
      exact ⟨.inl rfl, hkey⟩
    · obtain ⟨hb, rfl⟩ := h.index hk
      refine ⟨.inr ⟨hb, fun hid => hold ?_⟩, rfl⟩
      rw [Has, hid] at hb
      simp [hb]

theorem Complete.insert (h : t.Sound S) (hc : t.Complete S i) (hi : t.insert S a = some t')
    (hfree : ∀ b, t.Has S b → S.key i b = S.key i a → S.id b = S.id a) : t'.Complete S i := by
  intro b hb
  rw [index_insert hi]
  rcases (has_insert hi).mp hb with rfl | ⟨hb, hid⟩
  · rw [if_pos rfl]
  · rw [if_neg fun hkey => hid (hfree b hb hkey.symm), if_neg, hc b hb]
    intro hany
    obtain ⟨old, hold, hkey⟩ := (Option.any_eq_true _ _).mp hany
    obtain ⟨hhas, hold⟩ := h.byId_iff.mp hold
    rw [hc.inj hhas hb (by simpa using hkey)] at hold
    exact hid hold

/-- An index that is not unique has an entry for every row whatever is inserted. -/
theorem Complete.insert_of_not_unique (h : t.Sound S) (hc : t.Complete S i)
    (hu : S.unique i = false) (hi : t.insert S a = some t') : t'.Complete S i :=
  hc.insert h hi fun _ _ hkey => Schema.id_eq_of_key hu hkey

end Insert

section Query

theorem first_iff (h : t.Sound S) (hc : t.Complete S i) (hu : S.unique i = true) {v : Bytes} :
    t.first i v = some a ↔ t.Has S a ∧ S.field i a = v := by
  rw [first, h.index_iff hc, Schema.key_of_unique hu]
  simp

theorem mem_get (h : t.Sound S) (hc : t.Complete S i) {v : Bytes} :
    a ∈ t.get i v ↔ t.Has S a ∧ S.field i a = v := by
  have hhead : ∀ b, (S.key i b).head? = some (S.field i b) := fun b => by
    unfold Schema.key
    split_ifs <;> rfl
  simp only [get, List.mem_map, List.mem_filter, Prod.exists, exists_eq_right,
    Std.ExtTreeMap.mem_toList_iff_getElem?_eq_some, h.index_iff hc, decide_eq_true_eq]
  constructor
  · rintro ⟨k, ⟨ha, rfl⟩, hv⟩
    rw [hhead] at hv
    exact ⟨ha, Option.some.inj hv⟩
  · rintro ⟨ha, rfl⟩
    exact ⟨_, ⟨ha, rfl⟩, hhead a⟩

theorem nodup_get (h : t.Sound S) (i : ι) (v : Bytes) : ((t.get i v).map S.id).Nodup := by
  have hpair : ((t.index i).toList.filter fun e => e.1.head? = some v).Pairwise
      fun e e' => S.id e.2 ≠ S.id e'.2 := by
    refine List.Pairwise.filter _ ?_
    have hkeys := Std.ExtTreeMap.distinct_keys_toList (t := t.index i)
    refine hkeys.imp_of_mem fun {e e'} he he' hne hid => hne ?_
    obtain ⟨ha, hk⟩ := h.index (Std.ExtTreeMap.mem_toList_iff_getElem?_eq_some.mp he)
    obtain ⟨ha', hk'⟩ := h.index (Std.ExtTreeMap.mem_toList_iff_getElem?_eq_some.mp he')
    rw [Has, hid, show t.byId[S.id e'.2]? = some e'.2 from ha'] at ha
    rw [Std.LawfulEqCmp.compare_eq_iff_eq, ← hk, ← hk', Option.some.inj ha]
  rw [get, List.map_map]
  exact List.pairwise_map.mpr hpair

end Query

section Lists

theorem deleteAll_spec : ∀ (as : List α) {t : Table ι α}, t.Sound S → (∀ a ∈ as, t.Has S a) →
    (as.map S.id).Nodup → ∃ t', t.deleteAll S as = some t' ∧ t'.Sound S
      ∧ (∀ i, t.Complete S i → t'.Complete S i) ∧ ∀ b, t'.Has S b ↔ t.Has S b ∧ S.id b ∉ as.map S.id
  | [], t, h, _, _ => ⟨t, rfl, h, fun _ hc => hc, by simp⟩
  | a :: as, t, h, has, hnodup => by
    obtain ⟨hnew, hnodup⟩ := List.nodup_cons.mp hnodup
    have hdel := delete_of_has (has a List.mem_cons_self)
    obtain ⟨t', ht', hs', hc', hrows⟩ := deleteAll_spec as (h.delete hdel) (fun b hb =>
      (has_delete hdel).mpr ⟨has b (List.mem_cons_of_mem _ hb), fun he =>
        hnew (he ▸ List.mem_map_of_mem hb)⟩) hnodup
    refine ⟨t', ?_, hs', fun i hc => hc' i (hc.delete h hdel), fun b => ?_⟩
    · rw [deleteAll, List.foldlM_cons, hdel]
      exact ht'
    · rw [hrows, has_delete hdel, List.map_cons, List.mem_cons, and_assoc, not_or]

theorem Sound.deleteAll : ∀ (as : List α) {t t' : Table ι α}, t.Sound S →
    t.deleteAll S as = some t' → t'.Sound S ∧ ∀ i, t.Complete S i → t'.Complete S i
  | [], t, t', h, hd => by
    obtain rfl := Option.some.inj hd
    exact ⟨h, fun _ hc => hc⟩
  | a :: as, t, t', h, hd => by
    rw [Table.deleteAll, List.foldlM_cons] at hd
    obtain ⟨t₁, h₁, hd⟩ := Option.bind_eq_some_iff.mp hd
    obtain ⟨hs, hc⟩ := deleteAll as (h.delete h₁) hd
    exact ⟨hs, fun i hi => hc i (hi.delete h h₁)⟩

theorem deleteAll_singleton : t.deleteAll S [a] = t.delete S a := by
  rw [Table.deleteAll, List.foldlM_cons]
  exact Option.bind_fun_some _

theorem byId_deleteAll : ∀ {as : List α} {t t' : Table ι α} {k : Bytes}, t.byId[k]? = none →
    t.deleteAll S as = some t' → t'.byId[k]? = none
  | [], t, t', k, hk, hd => by
    obtain rfl := Option.some.inj hd
    exact hk
  | a :: as, t, t', k, hk, hd => by
    rw [Table.deleteAll, List.foldlM_cons] at hd
    obtain ⟨t₁, h₁, hd⟩ := Option.bind_eq_some_iff.mp hd
    obtain ⟨old, -, rfl⟩ := delete_eq_some h₁
    refine byId_deleteAll ?_ hd
    rw [OrdMap.get_erase, hk, ite_self]

theorem deleteAll_ne {as : List α} (hd : t.deleteAll S (a :: as) = some t') : t' ≠ t := by
  rintro rfl
  rw [Table.deleteAll, List.foldlM_cons] at hd
  obtain ⟨t₁, h₁, hd⟩ := Option.bind_eq_some_iff.mp hd
  obtain ⟨old, hold, rfl⟩ := delete_eq_some h₁
  have hnone := byId_deleteAll (by rw [OrdMap.get_erase, if_pos rfl]) hd
  rw [hold] at hnone
  cases hnone

theorem deleteAll_perm {as bs : List α} (h : t.Sound S) (hc : ∀ i, t.Complete S i)
    (has : ∀ a ∈ as, t.Has S a) (hnodup : (as.map S.id).Nodup) (hperm : as.Perm bs) :
    t.deleteAll S as = t.deleteAll S bs := by
  obtain ⟨t₁, ht₁, hs₁, hc₁, hrows₁⟩ := deleteAll_spec as h has hnodup
  obtain ⟨t₂, ht₂, hs₂, hc₂, hrows₂⟩ := deleteAll_spec bs h
    (fun b hb => has b (hperm.mem_iff.mpr hb)) ((hperm.map _).nodup_iff.mp hnodup)
  rw [ht₁, ht₂, ext_has hs₁ hs₂ (fun i => hc₁ i (hc i)) (fun i => hc₂ i (hc i)) fun a => ?_]
  rw [hrows₁, hrows₂, (hperm.map _).mem_iff]

variable [Fintype ι]

theorem insertAll_singleton : t.insertAll S [a] = t.insert S a := by
  rw [Table.insertAll, List.foldlM_cons]
  exact Option.bind_fun_some _

theorem Sound.insertAll : ∀ (as : List α) {t t' : Table ι α}, t.Sound S →
    t.insertAll S as = some t' →
      t'.Sound S ∧ ∀ i, S.unique i = false → t.Complete S i → t'.Complete S i
  | [], t, t', h, hi => by
    obtain rfl := Option.some.inj hi
    exact ⟨h, fun _ _ hc => hc⟩
  | a :: as, t, t', h, hi => by
    rw [Table.insertAll, List.foldlM_cons] at hi
    obtain ⟨t₁, h₁, hi⟩ := Option.bind_eq_some_iff.mp hi
    obtain ⟨hs, hc⟩ := insertAll as (h.insert h₁) hi
    exact ⟨hs, fun i hu hti => hc i hu (hti.insert_of_not_unique h hu h₁)⟩

theorem insertAll_spec : ∀ (as : List α) (t : Table ι α), (∀ a ∈ as, S.Full a) →
    (as.map S.id).Nodup → ∃ t', t.insertAll S as = some t'
      ∧ ∀ b, t'.Has S b ↔ b ∈ as ∨ t.Has S b ∧ S.id b ∉ as.map S.id
  | [], t, _, _ => ⟨t, rfl, by simp⟩
  | a :: as, t, hfull, hids => by
    obtain ⟨hnot, hids⟩ := List.nodup_cons.mp hids
    obtain ⟨t₁, hins⟩ := insert_of_full (t := t) (hfull a List.mem_cons_self)
    obtain ⟨t', ht', hrows⟩ :=
      insertAll_spec as t₁ (fun b hb => hfull b (List.mem_cons_of_mem _ hb)) hids
    refine ⟨t', ?_, fun b => ?_⟩
    · rw [insertAll, List.foldlM_cons, hins]
      exact ht'
    · rw [hrows, has_insert hins, List.mem_cons, List.map_cons, List.mem_cons]
      constructor
      · rintro (hb | ⟨rfl | ⟨hb, hne⟩, hnotmem⟩)
        · exact .inl (.inr hb)
        · exact .inl (.inl rfl)
        · exact .inr ⟨hb, not_or.mpr ⟨hne, hnotmem⟩⟩
      · rintro ((rfl | hb) | ⟨hb, hnotmem⟩)
        · exact .inr ⟨.inl rfl, hnot⟩
        · exact .inl hb
        · exact .inr ⟨.inr ⟨hb, (not_or.mp hnotmem).1⟩, (not_or.mp hnotmem).2⟩

theorem load_spec : ∀ (as : List α) {t : Table ι α}, t.Sound S → (∀ a ∈ as, S.Full a) →
    (as.map S.id).Nodup → (∀ a ∈ as, ∀ b, t.Has S b → S.id b ≠ S.id a) →
      (t.load S as).Sound S ∧ (∀ b, (t.load S as).Has S b ↔ t.Has S b ∨ b ∈ as)
        ∧ ∀ i, t.Complete S i → (as.map (S.key i)).Nodup →
          (∀ a ∈ as, ∀ b, t.Has S b → S.key i b ≠ S.key i a) → (t.load S as).Complete S i
  | [], t, h, _, _, _ => ⟨h, by simp [load], fun _ hc _ _ => hc⟩
  | a :: as, t, h, hfull, hids, hnew => by
    obtain ⟨t₁, hins⟩ := insert_of_full (t := t) (hfull a List.mem_cons_self)
    have hload : t.load S (a :: as) = t₁.load S as := by
      rw [load, List.foldl_cons, hins]
      rfl
    have hrows₁ : ∀ b, t₁.Has S b ↔ b = a ∨ t.Has S b := fun b => by
      rw [has_insert hins]
      exact or_congr_right ⟨And.left, fun hb => ⟨hb, hnew a List.mem_cons_self b hb⟩⟩
    obtain ⟨hnot, hids⟩ := List.nodup_cons.mp hids
    obtain ⟨hs, hrows, hcomp⟩ := load_spec as (h.insert hins)
      (fun b hb => hfull b (List.mem_cons_of_mem _ hb)) hids (fun b hb c hc => by
        rcases (hrows₁ c).mp hc with rfl | hc
        · exact fun he => hnot (he ▸ List.mem_map_of_mem hb)
        · exact hnew b (List.mem_cons_of_mem _ hb) c hc)
    rw [hload]
    refine ⟨hs, fun b => ?_, fun i hc hkeys hfree => ?_⟩
    · rw [hrows, hrows₁, List.mem_cons]
      tauto
    · obtain ⟨hnotkey, hkeys⟩ := List.nodup_cons.mp hkeys
      refine hcomp i (hc.insert h hins fun b hb hkey =>
        absurd hkey (hfree a List.mem_cons_self b hb)) hkeys fun b hb c hc => ?_
      rcases (hrows₁ c).mp hc with rfl | hc
      · exact fun he => hnotkey (he ▸ List.mem_map_of_mem hb)
      · exact hfree b (List.mem_cons_of_mem _ hb) c hc

/-- Of rows with the same key in an index, the one that is loaded last has the entry. -/
theorem index_load (i : ι) (k : List Bytes) : ∀ (as : List α) {t : Table ι α},
    (∀ a ∈ as, S.Full a) → (as.map S.id).Nodup → (∀ a ∈ as, t.byId[S.id a]? = none) →
      ((t.load S as).index i)[k]?
        = ((as.filter fun a => S.key i a = k).getLast?).or ((t.index i)[k]?)
  | [], t, _, _, _ => rfl
  | a :: as, t, hfull, hids, hnew => by
    obtain ⟨hnot, hids⟩ := List.nodup_cons.mp hids
    obtain ⟨t₁, hins⟩ := insert_of_full (t := t) (hfull a List.mem_cons_self)
    have hload : t.load S (a :: as) = t₁.load S as := by
      rw [load, List.foldl_cons, hins]
      rfl
    have hentry := index_insert_of_new hins (hnew a List.mem_cons_self) i k
    have hnew₁ : ∀ b ∈ as, t₁.byId[S.id b]? = none := by
      intro b hb
      rw [insert, if_pos (hfull a List.mem_cons_self)] at hins
      rw [← Option.some.inj hins, OrdMap.get_insert, if_neg fun he => hnot ?_]
      · exact hnew b (List.mem_cons_of_mem _ hb)
      · exact he ▸ List.mem_map_of_mem hb
    rw [hload, index_load i k as (fun b hb => hfull b (List.mem_cons_of_mem _ hb)) hids hnew₁,
      hentry, List.filter_cons]
    by_cases hk : S.key i a = k
    · rw [if_pos hk, if_pos (decide_eq_true hk), List.getLast?_cons]
      cases (as.filter fun a => S.key i a = k).getLast? <;> rfl
    · rw [if_neg hk, if_neg fun h => hk (of_decide_eq_true h)]

end Lists

end Table

end Rhosus

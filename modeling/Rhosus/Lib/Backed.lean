import Rhosus.Lib.Table

/-!
# A table over a bucket

The rows of a table are kept in a bucket too, as bytes under a key of each, from which the table is
loaded anew. Writes to the bucket may fail, so that the two need not have the same rows. What holds
of every row that is written holds of all that are in either (`Backed`), and so of the rows after
any load. A row that is in both (`Held`) stays until it is replaced or taken out.
-/

namespace Rhosus

/-- The rows in the table, and those that the bytes in the bucket are read as, all have the
property; the latter are under their keys. -/
structure Backed {ι α : Type} (S : Schema ι α) (read : Bytes → Option α) (key : α → Bytes)
    (P : α → Prop) (t : Table ι α) (b : OrdMap Bytes Bytes) : Prop where
  sound : t.Sound S
  rows : ∀ a, t.Has S a → P a
  bytes : ∀ k v a, b[k]? = some v → read v = some a → key a = k ∧ P a

namespace Table

variable {ι α : Type} {S : Schema ι α} {t t' : Table ι α} {a b : α} [Fintype ι]

theorem byId_insert (hi : t.insert S a = some t') (k : Bytes) :
    t'.byId[k]? = if S.id a = k then some a else t.byId[k]? := by
  unfold insert at hi
  split_ifs at hi
  obtain rfl := Option.some.inj hi
  exact OrdMap.get_insert ..

/-- What is loaded was there or is among the rows. -/
theorem load_has : ∀ (as : List α) {t : Table ι α}, t.Sound S →
    (t.load S as).Sound S ∧ ∀ b, (t.load S as).Has S b → t.Has S b ∨ b ∈ as
  | [], t, h => ⟨h, fun _ hb => .inl hb⟩
  | a :: as, t, h => by
    have hload : t.load S (a :: as) = ((t.insert S a).getD t).load S as := rfl
    rw [hload]
    rcases hi : t.insert S a with _ | t₁
    · obtain ⟨hs, hrows⟩ := load_has as h
      exact ⟨hs, fun b hb => (hrows b hb).imp_right (List.mem_cons_of_mem a)⟩
    · obtain ⟨hs, hrows⟩ := load_has as (h.insert hi)
      refine ⟨hs, fun b hb => ?_⟩
      rcases hrows b hb with hb | hb
      · rcases (has_insert hi).mp hb with rfl | ⟨hb, -⟩
        · exact .inr List.mem_cons_self
        · exact .inl hb
      · exact .inr (List.mem_cons_of_mem a hb)

/-- A row is there after a load that has no other one to replace it. -/
theorem has_load (hfull : S.Full b) : ∀ (as : List α) {t : Table ι α},
    (∀ c ∈ as, S.id c = S.id b → c = b) → t.Has S b ∨ b ∈ as → (t.load S as).Has S b
  | [], _, _, h => h.resolve_right List.not_mem_nil
  | c :: as, t, honly, h => by
    have hload : t.load S (c :: as) = ((t.insert S c).getD t).load S as := rfl
    rw [hload]
    refine has_load hfull as (fun d hd => honly d (List.mem_cons_of_mem c hd)) ?_
    by_cases hc : c = b
    · subst hc
      obtain ⟨t', hi⟩ := insert_of_full (t := t) hfull
      rw [hi]
      exact .inl ((has_insert hi).mpr (.inl rfl))
    · refine h.imp (fun h => ?_) fun h => (List.mem_cons.mp h).resolve_left (Ne.symm hc)
      rcases hi : t.insert S c with _ | t'
      · exact h
      · exact (has_insert hi).mpr (.inr ⟨h, fun he => hc (honly c List.mem_cons_self he.symm)⟩)

end Table

namespace Backed

variable {ι α : Type} {S : Schema ι α} {read : Bytes → Option α} {key : α → Bytes}
variable {P Q : α → Prop} {t t' : Table ι α} {b : OrdMap Bytes Bytes} {a : α}

theorem empty : Backed S read key P .empty ∅ where
  sound := Table.sound_empty
  rows _ h := absurd h Table.not_has_empty
  bytes _ _ _ h := by simp at h

theorem mono (h : Backed S read key P t b) (hPQ : ∀ a, P a → Q a) : Backed S read key Q t b where
  sound := h.sound
  rows a ha := hPQ a (h.rows a ha)
  bytes k v a hv ha := (h.bytes k v a hv ha).imp_right (hPQ a)

theorem insert [Fintype ι] (h : Backed S read key P t b) (hi : t.insert S a = some t')
    (ha : P a) : Backed S read key P t' b where
  sound := h.sound.insert hi
  rows c hc := by
    rcases (Table.has_insert hi).mp hc with rfl | ⟨hc, -⟩
    · exact ha
    · exact h.rows c hc
  bytes := h.bytes

theorem delete (h : Backed S read key P t b) (hd : t.delete S a = some t') :
    Backed S read key P t' b where
  sound := h.sound.delete hd
  rows c hc := h.rows c ((Table.has_delete hd).mp hc).1
  bytes := h.bytes

/-- Bytes are put that are read as a row under its key. -/
theorem put (h : Backed S read key P t b) {v : Bytes} (hv : read v = some a) (ha : P a) :
    Backed S read key P t (b.insert (key a) v) where
  sound := h.sound
  rows := h.rows
  bytes k w c hw hc := by
    rw [OrdMap.get_insert] at hw
    split_ifs at hw with hk
    · obtain rfl := Option.some.inj hw
      obtain rfl := Option.some.inj (hv.symm.trans hc)
      exact ⟨hk, ha⟩
    · exact h.bytes k w c hw hc

theorem putAll : ∀ (es : List (Bytes × Bytes)) {b : OrdMap Bytes Bytes},
    Backed S read key P t b → (∀ e ∈ es, ∃ a, read e.2 = some a ∧ key a = e.1 ∧ P a) →
      Backed S read key P t (b.putAll es)
  | [], _, h, _ => h
  | (k, v) :: es, b, h, hes => by
    obtain ⟨a, hv, rfl, ha⟩ := hes _ List.mem_cons_self
    exact putAll es (h.put hv ha) fun e he => hes e (List.mem_cons_of_mem _ he)

theorem erase (h : Backed S read key P t b) (k : Bytes) : Backed S read key P t (b.erase k) where
  sound := h.sound
  rows := h.rows
  bytes k' v c hv hc := by
    rw [OrdMap.get_erase] at hv
    split_ifs at hv
    exact h.bytes k' v c hv hc

/-- A row that goes from both is in neither. -/
theorem delete_erase (h : Backed S read S.id P t b) (hd : t.delete S a = some t') :
    Backed S read S.id (fun c => P c ∧ S.id c ≠ S.id a) t' (b.erase (S.id a)) where
  sound := h.sound.delete hd
  rows c hc := ((Table.has_delete hd).mp hc).imp_left (h.rows c)
  bytes k v c hv hc := by
    rw [OrdMap.get_erase] at hv
    split_ifs at hv with hk
    obtain ⟨hkey, hP⟩ := h.bytes k v c hv hc
    exact ⟨hkey, hP, fun he => hk (he.symm.trans hkey)⟩

theorem load [Fintype ι] (h : Backed S read key P t b) :
    Backed S read key P (Table.empty.load S (b.vals.filterMap read)) b where
  sound := (Table.load_has _ Table.sound_empty).1
  rows c hc := by
    rcases (Table.load_has _ Table.sound_empty).2 c hc with hc | hc
    · exact absurd hc Table.not_has_empty
    · obtain ⟨v, hv, hc⟩ := List.mem_filterMap.mp hc
      obtain ⟨k, hk⟩ := OrdMap.mem_vals.mp hv
      exact (h.bytes k v c hk hc).2
  bytes := h.bytes

end Backed

/-- The row is in the table, and the bytes in the bucket under its key are read as it. -/
structure Held {ι α : Type} (S : Schema ι α) (read : Bytes → Option α) (a : α) (t : Table ι α)
    (b : OrdMap Bytes Bytes) : Prop where
  row : t.Has S a
  full : S.Full a
  bytes : ∃ v, b[S.id a]? = some v ∧ read v = some a

namespace Held

variable {ι α : Type} {S : Schema ι α} {read : Bytes → Option α} {P : α → Prop}
variable {t t' : Table ι α} {b : OrdMap Bytes Bytes} {a c : α}

theorem insert [Fintype ι] (h : Held S read a t b) (hi : t.insert S c = some t')
    (hne : S.id c ≠ S.id a) : Held S read a t' b :=
  { h with row := (Table.has_insert hi).mpr (.inr ⟨h.row, hne.symm⟩) }

theorem delete (h : Held S read a t b) (hd : t.delete S c = some t') (hne : S.id c ≠ S.id a) :
    Held S read a t' b :=
  { h with row := (Table.has_delete hd).mpr ⟨h.row, hne.symm⟩ }

theorem put (h : Held S read a t b) {k : Bytes} (hne : k ≠ S.id a) (v : Bytes) :
    Held S read a t (b.insert k v) :=
  { h with bytes := by rw [OrdMap.get_insert_of_ne hne]; exact h.bytes }

theorem erase (h : Held S read a t b) {k : Bytes} (hne : k ≠ S.id a) :
    Held S read a t (b.erase k) :=
  { h with bytes := by rw [OrdMap.get_erase_of_ne hne]; exact h.bytes }

theorem load [Fintype ι] (h : Held S read a t b) (hb : Backed S read S.id P t b) :
    Held S read a (Table.empty.load S (b.vals.filterMap read)) b := by
  obtain ⟨v, hv, ha⟩ := h.bytes
  refine { h with row := Table.has_load h.full _ (fun c hc hid => ?_) (.inr ?_) }
  · obtain ⟨w, hw, hc⟩ := List.mem_filterMap.mp hc
    obtain ⟨k, hk⟩ := OrdMap.mem_vals.mp hw
    rw [← (hb.bytes k w c hk hc).1, hid, hv] at hk
    rw [← Option.some.inj hk, ha] at hc
    exact (Option.some.inj hc).symm
  · exact List.mem_filterMap.mpr ⟨v, OrdMap.mem_vals.mpr ⟨_, hv⟩, ha⟩

end Held

end Rhosus

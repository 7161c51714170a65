import Rhosus.Wal.Log

/-!
# How a log is laid out in segments, and in files

A log from index `first` is cut into chunks of consecutive records, one to a segment, and each
chunk is a file. Every chunk but the last holds a record, so their indexes increase, and an index
of the log lies in exactly one of them (`Layout.chunk_of`).

`Holds d fs` says which files of the log a directory has and what is in them; the temporary file
may be there with anything in it.
-/

namespace Rhosus.Wal

structure Chunk where
  index : ℕ
  recs : List Bytes

def records (cs : List Chunk) : List Bytes := cs.flatMap Chunk.recs

@[simp]
theorem records_nil : records [] = [] := rfl

@[simp]
theorem records_cons (c : Chunk) (cs : List Chunk) : records (c :: cs) = c.recs ++ records cs := rfl

@[simp]
theorem records_append (cs ds : List Chunk) : records (cs ++ ds) = records cs ++ records ds := by
  simp [records]

/-- Each chunk starts where the one before it ends. -/
def Follows : ℕ → List Chunk → Prop
  | _, [] => True
  | i, c :: cs => c.index = i ∧ Follows (i + c.recs.length) cs

theorem follows_append : ∀ {i : ℕ} {cs ds : List Chunk},
    Follows i (cs ++ ds) ↔ Follows i cs ∧ Follows (i + (records cs).length) ds
  | i, [], ds => by simp [Follows]
  | i, c :: cs, ds => by
    simp only [List.cons_append, Follows, @follows_append _ cs ds, records_cons,
      List.length_append, and_assoc, add_assoc]

/-- The chunks of a log whose first index is `first`. -/
structure Layout (first : ℕ) (cs : List Chunk) : Prop where
  pos : 1 ≤ first
  ne : cs ≠ []
  follows : Follows first cs
  full : ∀ c ∈ cs.dropLast, c.recs ≠ []
  fits : ∀ c ∈ cs, ∀ d ∈ c.recs, Fits d

theorem split_at {α : Type} {xs : List α} {k : ℕ} {x : α} (h : xs[k]? = some x) :
    xs = xs.take k ++ x :: xs.drop (k + 1) := by
  obtain ⟨hk, rfl⟩ := List.getElem?_eq_some_iff.mp h
  rw [List.getElem_cons_drop, List.take_append_drop]

theorem records_split {cs : List Chunk} {k : ℕ} {c : Chunk} (h : cs[k]? = some c) :
    records cs = records (cs.take k) ++ (c.recs ++ records (cs.drop (k + 1))) := by
  conv_lhs => rw [split_at h]
  rw [records_append, records_cons]

namespace Layout

variable {first : ℕ} {cs : List Chunk}

theorem index_eq (hl : Layout first cs) {k : ℕ} {c : Chunk} (hc : cs[k]? = some c) :
    c.index = first + (records (cs.take k)).length := by
  have hf := hl.follows
  rw [split_at hc, follows_append] at hf
  exact hf.2.1

theorem full_at (hl : Layout first cs) {k : ℕ} {c : Chunk} (hc : cs[k]? = some c)
    (hk : k + 1 < cs.length) : c.recs ≠ [] := by
  apply hl.full
  rw [List.dropLast_eq_take]
  exact List.mem_of_getElem? (i := k) (by rw [List.getElem?_take_of_lt (by omega)]; exact hc)

theorem fits_at (hl : Layout first cs) {k : ℕ} {c : Chunk} (hc : cs[k]? = some c) :
    ∀ d ∈ c.recs, Fits d := hl.fits c (List.mem_of_getElem? hc)

theorem stop_le (hl : Layout first cs) {k k' : ℕ} {c c' : Chunk} (hc : cs[k]? = some c)
    (hc' : cs[k']? = some c') (hk : k < k') : c.index + c.recs.length ≤ c'.index := by
  rw [hl.index_eq hc, hl.index_eq hc']
  have ht : records (cs.take (k + 1)) = records (cs.take k) ++ c.recs := by
    rw [List.take_add_one, hc, records_append]
    simp
  have hp : (records (cs.take (k + 1))).length ≤ (records (cs.take k')).length := by
    obtain ⟨t, ht'⟩ := List.take_prefix_take_left (l := cs) (show k + 1 ≤ k' from hk)
    rw [← ht', records_append, List.length_append]
    omega
  rw [ht, List.length_append] at hp
  omega

theorem index_lt (hl : Layout first cs) {k k' : ℕ} {c c' : Chunk} (hc : cs[k]? = some c)
    (hc' : cs[k']? = some c') (hk : k < k') : c.index < c'.index := by
  have hlen := (List.getElem?_eq_some_iff.mp hc').1
  have hne := hl.full_at hc (by omega)
  have hpos : 0 < c.recs.length := List.length_pos_iff.mpr hne
  have := hl.stop_le hc hc' hk
  omega

theorem first_le (hl : Layout first cs) {k : ℕ} {c : Chunk} (hc : cs[k]? = some c) :
    first ≤ c.index := by
  rw [hl.index_eq hc]
  omega

/-- An index of the log lies in one of its chunks, as the record it has in the log. -/
theorem chunk_of (hl : Layout first cs) {i : ℕ} (h1 : first ≤ i)
    (h2 : i < first + (records cs).length) :
    ∃ (k : ℕ) (c : Chunk), cs[k]? = some c ∧ c.index ≤ i ∧ i < c.index + c.recs.length
      ∧ c.recs[i - c.index]? = (records cs)[i - first]? := by
  have key : ∀ (cs : List Chunk) (j : ℕ), j < (records cs).length →
      ∃ (k : ℕ) (c : Chunk), cs[k]? = some c
      ∧ (records (cs.take k)).length ≤ j ∧ j < (records (cs.take k)).length + c.recs.length
      ∧ c.recs[j - (records (cs.take k)).length]? = (records cs)[j]? := by
    intro cs
    induction cs with
    | nil =>
      intro j hj
      simp at hj
    | cons c cs ih =>
      intro j hj
      rw [records_cons, List.length_append] at hj
      by_cases hjc : j < c.recs.length
      · refine ⟨0, c, rfl, by simp, by simpa using hjc, ?_⟩
        rw [records_cons, List.getElem?_append_left hjc]
        simp
      · obtain ⟨k, c', hk, h1, h2, h3⟩ := ih (j - c.recs.length) (by omega)
        refine ⟨k + 1, c', by simpa using hk, ?_, ?_, ?_⟩
        · simp only [List.take_succ_cons, records_cons, List.length_append]
          omega
        · simp only [List.take_succ_cons, records_cons, List.length_append]
          omega
        · rw [records_cons, List.getElem?_append_right (by omega), ← h3]
          simp only [List.take_succ_cons, records_cons, List.length_append]
          congr 1
          omega
  obtain ⟨k, c, hc, hk1, hk2, hk3⟩ := key cs (i - first) (by omega)
  have hi := hl.index_eq hc
  refine ⟨k, c, hc, by omega, by omega, ?_⟩
  rw [← hk3, hi]
  congr 1
  omega

/-- Only the chunk an index lies in starts at or before it and ends after it. -/
theorem chunk_unique (hl : Layout first cs) {k k' i : ℕ} {c c' : Chunk} (hc : cs[k]? = some c)
    (hc' : cs[k']? = some c') (h1 : c.index ≤ i) (h2 : i < c.index + c.recs.length)
    (h1' : c'.index ≤ i) (h2' : i < c'.index + c'.recs.length) : k = k' := by
  rcases lt_trichotomy k k' with hk | hk | hk
  · have := hl.stop_le hc hc' hk
    omega
  · exact hk
  · have := hl.stop_le hc' hc hk
    omega

theorem stop_le_total (hl : Layout first cs) {k : ℕ} {c : Chunk} (hc : cs[k]? = some c) :
    c.index + c.recs.length ≤ first + (records cs).length := by
  have h := congrArg List.length (records_split hc)
  simp only [List.length_append] at h
  rw [hl.index_eq hc]
  omega

theorem bound (hl : Layout first cs) {b : ℕ} (hb : first + (records cs).length < b) :
    ∀ c ∈ cs, c.index < b := by
  intro c hc
  obtain ⟨k, hk⟩ := List.getElem?_of_mem hc
  have := hl.stop_le_total hk
  omega

theorem getLast (hl : Layout first cs) : ∃ t, cs[cs.length - 1]? = some t
    ∧ t.index + t.recs.length = first + (records cs).length := by
  have hpos : 0 < cs.length := List.length_pos_iff.mpr hl.ne
  obtain ⟨t, ht⟩ : ∃ t, cs[cs.length - 1]? = some t :=
    ⟨_, List.getElem?_eq_getElem (by omega)⟩
  refine ⟨t, ht, ?_⟩
  have h := congrArg List.length (records_split ht)
  rw [List.drop_of_length_le (by omega)] at h
  simp only [records_nil, List.length_append, List.length_nil] at h
  rw [hl.index_eq ht]
  omega

/-- A log whose chunks all hold a record can go on in a new one. -/
theorem snoc (hl : Layout first cs) (hfull : ∀ c ∈ cs, c.recs ≠ []) :
    Layout first (cs ++ [⟨first + (records cs).length, []⟩]) := by
  refine ⟨hl.pos, by simp, follows_append.mpr ⟨hl.follows, rfl, trivial⟩, ?_, ?_⟩
  · rw [List.dropLast_concat]
    exact hfull
  · intro c hc
    rcases List.mem_append.mp hc with hc | hc
    · exact hl.fits c hc
    · simp [List.mem_singleton.mp hc]

theorem full_of_tail (hl : Layout first cs) {t : Chunk} (ht : cs[cs.length - 1]? = some t)
    (hne : t.recs ≠ []) : ∀ c ∈ cs, c.recs ≠ [] := by
  intro c hc
  obtain ⟨k, hk⟩ := List.getElem?_of_mem hc
  by_cases hlast : k + 1 < cs.length
  · exact hl.full_at hk hlast
  · obtain rfl : k = cs.length - 1 := by
      have := (List.getElem?_eq_some_iff.mp hk).1
      omega
    rwa [Option.some.inj (hk.symm.trans ht)]

theorem index_lt_stop (hl : Layout first cs) (hfull : ∀ c ∈ cs, c.recs ≠ []) {c : Chunk}
    (hc : c ∈ cs) : c.index < first + (records cs).length := by
  obtain ⟨k, hk⟩ := List.getElem?_of_mem hc
  have hpos := List.length_pos_iff.mpr (hfull c hc)
  have := hl.stop_le_total hk
  omega

theorem index_lt_tail {init : List Chunk} {t a : Chunk} (hl : Layout first (init ++ [t]))
    (ha : a ∈ init) : a.index < t.index := by
  obtain ⟨k, hk⟩ := List.getElem?_of_mem ha
  have hlt := (List.getElem?_eq_some_iff.mp hk).1
  exact hl.index_lt (by rw [List.getElem?_append_left hlt]; exact hk)
    (List.getElem?_concat_length ..) hlt

theorem extend {init : List Chunk} {t : Chunk} (hl : Layout first (init ++ [t])) {d : Bytes}
    (hd : Fits d) : Layout first (init ++ [⟨t.index, t.recs ++ [d]⟩]) := by
  obtain ⟨hf1, hf2⟩ := follows_append.mp hl.follows
  refine ⟨hl.pos, by simp, follows_append.mpr ⟨hf1, hf2.1, trivial⟩, ?_, ?_⟩
  · have := hl.full
    rw [List.dropLast_concat] at this ⊢
    exact this
  · intro c hc
    rcases List.mem_append.mp hc with hc | hc
    · exact hl.fits c (List.mem_append_left _ hc)
    · obtain rfl := List.mem_singleton.mp hc
      intro d' hd'
      rcases List.mem_append.mp hd' with hd' | hd'
      · exact hl.fits t (by simp) d' hd'
      · rw [List.mem_singleton.mp hd']
        exact hd

theorem pairwise (hl : Layout first cs) : cs.Pairwise (·.index < ·.index) := by
  rw [List.pairwise_iff_getElem]
  intro k k' hk hk' hlt
  exact hl.index_lt (List.getElem?_eq_getElem hk) (List.getElem?_eq_getElem hk') hlt

theorem index_lt_of_take (hl : Layout first cs) {k : ℕ} {a c : Chunk} (hc : cs[k]? = some c)
    (ha : a ∈ cs.take k) : a.index < c.index := by
  obtain ⟨j, hj⟩ := List.getElem?_of_mem ha
  have hjk : j < k := by
    have := (List.getElem?_eq_some_iff.mp hj).1
    simp only [List.length_take] at this
    omega
  rw [List.getElem?_take_of_lt hjk] at hj
  exact hl.index_lt hj hc hjk

theorem stop_le_of_drop (hl : Layout first cs) {k : ℕ} {b c : Chunk} (hc : cs[k]? = some c)
    (hb : b ∈ cs.drop (k + 1)) : c.index + c.recs.length ≤ b.index := by
  obtain ⟨j, hj⟩ := List.getElem?_of_mem hb
  rw [List.getElem?_drop] at hj
  exact hl.stop_le hc hj (by omega)

/-- The log from the index `i` on, which lies in the chunk `c`. -/
theorem dropFront (hl : Layout first cs) {k i : ℕ} {c : Chunk} (hc : cs[k]? = some c)
    (h1 : c.index ≤ i) (h2 : i < c.index + c.recs.length) :
    Layout i (⟨i, c.recs.drop (i - c.index)⟩ :: cs.drop (k + 1)) := by
  have hpos := hl.pos
  have hfirst := hl.first_le hc
  have hf := hl.follows
  rw [split_at hc, follows_append] at hf
  have hstop : i + (c.recs.drop (i - c.index)).length = c.index + c.recs.length := by
    rw [List.length_drop]
    omega
  refine ⟨by omega, by simp, ⟨rfl, ?_⟩, fun a ha => ?_, fun a ha d hd => ?_⟩
  · rw [hstop, hl.index_eq hc]
    exact hf.2.2
  · by_cases hk : k + 1 < cs.length
    · have hne : cs.drop (k + 1) ≠ [] := by
        rw [ne_eq, List.drop_eq_nil_iff]
        omega
      rw [List.dropLast_cons_of_ne_nil hne] at ha
      rcases List.mem_cons.mp ha with rfl | ha
      · change c.recs.drop (i - c.index) ≠ []
        rw [ne_eq, List.drop_eq_nil_iff]
        omega
      · refine hl.full a ?_
        rw [split_at hc, List.dropLast_append_of_ne_nil (by simp), List.dropLast_cons_of_ne_nil hne]
        exact List.mem_append_right _ (List.mem_cons_of_mem _ ha)
    · have hnil : cs.drop (k + 1) = [] := List.drop_of_length_le (by omega)
      rw [hnil] at ha
      simp at ha
  · rcases List.mem_cons.mp ha with rfl | ha
    · exact hl.fits_at hc d (List.mem_of_mem_drop hd)
    · exact hl.fits a (List.mem_of_mem_drop ha) d hd

theorem records_dropFront (hl : Layout first cs) {k i : ℕ} {c : Chunk} (hc : cs[k]? = some c)
    (h1 : c.index ≤ i) (h2 : i < c.index + c.recs.length) :
    records (⟨i, c.recs.drop (i - c.index)⟩ :: cs.drop (k + 1)) =
      (records cs).drop (i - first) := by
  have hi := hl.index_eq hc
  have hle : (records (cs.take k)).length ≤ i - first := by omega
  have hoff : i - first - (records (cs.take k)).length = i - c.index := by omega
  rw [records_split hc, List.drop_append, List.drop_of_length_le hle, List.nil_append, hoff,
    List.drop_append_of_le_length (by omega), records_cons]

/-- The log up to the index `i`, which lies in the chunk `c`. -/
theorem takeBack (hl : Layout first cs) {k i : ℕ} {c : Chunk} (hc : cs[k]? = some c) :
    Layout first (cs.take k ++ [⟨c.index, c.recs.take (i + 1 - c.index)⟩]) := by
  have hf := hl.follows
  rw [split_at hc, follows_append] at hf
  have hk := (List.getElem?_eq_some_iff.mp hc).1
  refine ⟨hl.pos, by simp, follows_append.mpr ⟨hf.1, hf.2.1, trivial⟩, fun a ha => ?_,
    fun a ha d hd => ?_⟩
  · rw [List.dropLast_concat] at ha
    refine hl.full a ?_
    rw [split_at hc, List.dropLast_append_of_ne_nil (by simp)]
    exact List.mem_append_left _ ha
  · rcases List.mem_append.mp ha with ha | ha
    · exact hl.fits a (List.mem_of_mem_take ha) d hd
    · rw [List.mem_singleton.mp ha] at hd
      exact hl.fits_at hc d (List.mem_of_mem_take hd)

theorem records_takeBack (hl : Layout first cs) {k i : ℕ} {c : Chunk} (hc : cs[k]? = some c)
    (h1 : c.index ≤ i) (h2 : i < c.index + c.recs.length) :
    records (cs.take k ++ [⟨c.index, c.recs.take (i + 1 - c.index)⟩])
      = (records cs).take (i + 1 - first) := by
  have hi := hl.index_eq hc
  have hle : (records (cs.take k)).length ≤ i + 1 - first := by omega
  have hoff : i + 1 - first - (records (cs.take k)).length = i + 1 - c.index := by omega
  rw [records_split hc, List.take_append, List.take_of_length_le hle, hoff,
    List.take_append_of_le_length (by omega), records_append, records_cons, records_nil,
    List.append_nil]

end Layout

section Files

/-- The files of the log in `d` are those of `fs`, with their contents. -/
structure Holds (d : Dir Name) (fs : List (FileName × Bytes)) : Prop where
  has : ∀ f b, (f, b) ∈ fs → d.lookup f.name = some b
  only : ∀ n ∈ d, n = tempName ∨ ∃ f b, (f, b) ∈ fs ∧ n = f.name

def segFile (c : Chunk) : FileName × Bytes := (.seg c.index, encode c.recs)

def segFiles (cs : List Chunk) : List (FileName × Bytes) := cs.map segFile

@[simp]
theorem segFiles_append (cs ds : List Chunk) :
    segFiles (cs ++ ds) = segFiles cs ++ segFiles ds := by
  simp [segFiles]

@[simp]
theorem segFiles_nil : segFiles [] = [] := rfl

@[simp]
theorem segFiles_cons (c : Chunk) (cs : List Chunk) :
    segFiles (c :: cs) = segFile c :: segFiles cs := rfl

theorem segFiles_ne {cs : List Chunk} {i : ℕ} (h : ∀ c ∈ cs, c.index ≠ i) {x : FileName × Bytes}
    (hx : x ∈ segFiles cs) : x.1 ≠ .seg i := by
  obtain ⟨c, hc, rfl⟩ := List.mem_map.mp hx
  simpa [segFile] using h c hc

theorem segFiles_own {cs : List Chunk} {x : FileName × Bytes} (hx : x ∈ segFiles cs) :
    x.1.rank = 0 := by
  obtain ⟨c, -, rfl⟩ := List.mem_map.mp hx
  rfl

namespace Holds

variable {d : Dir Name} {fs gs : List (FileName × Bytes)}

theorem lookup_none (h : Holds d fs) {f : FileName} (hf : f ≠ .temp) (hfs : ∀ x ∈ fs, x.1 ≠ f) :
    d.lookup f.name = none := by
  refine AList.lookup_eq_none.mpr fun hn => ?_
  rcases h.only _ hn with hn | ⟨g, b, hgb, hn⟩
  · exact hf (FileName.name_injective hn)
  · exact hfs _ hgb (FileName.name_injective hn).symm

theorem congr (h : Holds d fs) (hfg : ∀ x, x ∈ gs ↔ x ∈ fs) : Holds d gs := by
  refine ⟨fun f b hfb => h.has f b ((hfg _).mp hfb), fun n hn => ?_⟩
  rcases h.only n hn with hn | ⟨f, b, hfb, rfl⟩
  · exact .inl hn
  · exact .inr ⟨f, b, (hfg _).mpr hfb, rfl⟩

theorem insert (h : Holds d fs) {f : FileName} {b : Bytes}
    (hgs : ∀ x, x ∈ gs ↔ x = (f, b) ∨ x ∈ fs ∧ x.1 ≠ f) : Holds (d.insert f.name b) gs := by
  refine ⟨fun g c hgc => ?_, fun n hn => ?_⟩
  · rcases (hgs _).mp hgc with hgc | ⟨hgc, hne⟩
    · cases hgc
      exact AList.lookup_insert _
    · rw [AList.lookup_insert_ne (by simpa using hne)]
      exact h.has g c hgc
  · rcases (AList.mem_insert d).mp hn with rfl | hn
    · exact .inr ⟨f, b, (hgs _).mpr (.inl rfl), rfl⟩
    · rcases h.only n hn with hn | ⟨g, c, hgc, rfl⟩
      · exact .inl hn
      · by_cases hgf : g = f
        · exact .inr ⟨f, b, (hgs _).mpr (.inl rfl), by rw [hgf]⟩
        · exact .inr ⟨g, c, (hgs _).mpr (.inr ⟨hgc, hgf⟩), rfl⟩

theorem erase (h : Holds d fs) {f : FileName} (hgs : ∀ x, x ∈ gs ↔ x ∈ fs ∧ x.1 ≠ f) :
    Holds (d.erase f.name) gs := by
  refine ⟨fun g c hgc => ?_, fun n hn => ?_⟩
  · obtain ⟨hgc, hne⟩ := (hgs _).mp hgc
    rw [AList.lookup_erase_ne (by simpa using hne)]
    exact h.has g c hgc
  · obtain ⟨hne, hn⟩ := AList.mem_erase.mp hn
    rcases h.only n hn with hn | ⟨g, c, hgc, rfl⟩
    · exact .inl hn
    · exact .inr ⟨g, c, (hgs _).mpr ⟨hgc, fun hg => hne (by rw [← hg])⟩, rfl⟩

theorem rename (h : Holds d fs) {f g : FileName} {b : Bytes}
    (hgs : ∀ x, x ∈ gs ↔ x = (g, b) ∨ (x ∈ fs ∧ x.1 ≠ f) ∧ x.1 ≠ g) :
    Holds ((d.erase f.name).insert g.name b) gs := by
  have he : Holds (d.erase f.name) (fs.filter (·.1 ≠ f)) :=
    h.erase fun x => by simp [List.mem_filter]
  exact he.insert fun x => by rw [hgs x]; simp [List.mem_filter]

theorem temp_insert (h : Holds d fs) (hfs : ∀ x ∈ fs, x.1 ≠ .temp) (b : Bytes) :
    Holds (d.insert tempName b) fs := by
  refine ⟨fun f b' hfb => ?_, fun n hn => ?_⟩
  · have hne : f.name ≠ tempName := fun hn => hfs _ hfb (FileName.name_injective hn)
    rw [AList.lookup_insert_ne hne]
    exact h.has f b' hfb
  · rcases (AList.mem_insert d).mp hn with rfl | hn
    · exact .inl rfl
    · exact h.only n hn

theorem rename_temp (h : Holds d fs) (hfs : ∀ x ∈ fs, x.1 ≠ .temp) {f : FileName} {b : Bytes}
    (hgs : ∀ x, x ∈ gs ↔ x = (f, b) ∨ x ∈ fs ∧ x.1 ≠ f) :
    Holds ((d.erase tempName).insert f.name b) gs :=
  h.rename (f := .temp) fun x => by
    rw [hgs x]
    exact or_congr_right (and_congr_left fun _ => ⟨fun hx => ⟨hx, hfs x hx⟩, fun hx => hx.1⟩)

end Holds

end Files

end Rhosus.Wal

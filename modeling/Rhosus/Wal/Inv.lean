import Rhosus.Wal.Layout

/-!
# The invariant of an open log

`Segs` relates the segment objects to the chunks they stand for. The buffer of a segment before
position `n` may be dropped, its file having the records; one from `n` on is loaded. The cache
names only segments before `n`, so dropping what it evicts is safe (`Segs.push`). In an open log
`n` is the position of the tail (`Mem`), and `Good` adds the files.
-/

namespace Rhosus.Wal

/-- The segment's buffer has the chunk's records. -/
def Loaded (s : Segment) (c : Chunk) : Prop := s.ebuf = encode c.recs ∧ s.epos = positions c.recs

/-- The segment stands for the chunk, and is loaded if `full`. -/
structure Held (s : Segment) (c : Chunk) (full : Prop) : Prop where
  path : s.path = segmentName c.index
  index : s.index = c.index
  buf : Loaded s c ∨ ¬ full ∧ s.ebuf = [] ∧ s.epos = []

theorem Held.imp {s : Segment} {c : Chunk} {a b : Prop} (h : Held s c a) (hab : b → a) :
    Held s c b :=
  ⟨h.path, h.index, h.buf.imp_right fun hs => ⟨fun hb => hs.1 (hab hb), hs.2⟩⟩

/-- A segment with nothing in its buffer is loaded only if its chunk has no records. -/
theorem Held.loaded {s : Segment} {c : Chunk} {a : Prop} (h : Held s c a)
    (hs : s.epos.length ≠ 0) : Loaded s c :=
  h.buf.resolve_right fun hb => hs (by rw [hb.2.2, List.length_nil])

structure Segs (w : WAL) (cs : List Chunk) (n : ℕ) : Prop where
  length : w.segments.length = cs.length
  nodup : w.segments.Nodup
  fresh : ∀ p ∈ w.segments, p < w.next
  seg : ∀ (k : ℕ) (p : Ptr) (c : Chunk), w.segments[k]? = some p → cs[k]? = some c →
    Held (w.heap p) c (n ≤ k)
  cached : ∀ (k : ℕ) (p : Ptr), (k, p) ∈ w.scache → w.segments[k]? = some p ∧ k < n
  keys : (w.scache.map Prod.fst).Nodup

structure Mem (w : WAL) (first : ℕ) (cs : List Chunk) : Prop where
  segs : Segs w cs (cs.length - 1)
  corrupt : w.corrupt = false
  closed : w.closed = false
  firstIndex : w.firstIndex = first
  lastIndex : w.lastIndex + 1 = first + (records cs).length
  sfile : ∀ t, cs[cs.length - 1]? = some t → w.sfile = some (segmentName t.index)

/-- An open log, its files, and a plan that fails no operation. -/
structure Good (w : World Name WAL) (first : ℕ) (cs : List Chunk) : Prop where
  layout : Layout first cs
  mem : Mem w.mem first cs
  files : Holds w.dir (segFiles cs)
  plan : NoFail w.plan

theorem Good.withPlan {w : World Name WAL} {first : ℕ} {cs : List Chunk} (h : Good w first cs)
    {p : List Fault} (hp : NoFail p) : Good { w with plan := p } first cs :=
  ⟨h.layout, h.mem, h.files, hp⟩

/-- An open log whose directory has the files `rest` beside the log's own. -/
structure Opened (W : World Name WAL) (first : ℕ) (cs : List Chunk)
    (rest : List (FileName × Bytes)) : Prop where
  layout : Layout first cs
  mem : Mem W.mem first cs
  files : Holds W.dir (segFiles cs ++ rest)
  other : ∀ x ∈ rest, x.1.rank ≠ 0
  plan : NoFail W.plan

theorem Good.opened {w : World Name WAL} {first : ℕ} {cs : List Chunk} (h : Good w first cs) :
    Opened w first cs [] :=
  ⟨h.layout, h.mem, by rw [List.append_nil]; exact h.files, by simp, h.plan⟩

theorem Good.of_opened {w : World Name WAL} {first : ℕ} {cs : List Chunk}
    (h : Opened w first cs []) : Good w first cs :=
  ⟨h.layout, h.mem, by simpa using h.files, h.plan⟩

namespace Segs

variable {w : WAL} {cs : List Chunk} {n : ℕ}

theorem mono (h : Segs w cs n) {m : ℕ} (hnm : n ≤ m) : Segs w cs m :=
  ⟨h.length, h.nodup, h.fresh, fun k p c hp hc => (h.seg k p c hp hc).imp fun hk => by omega,
    fun k p hkp => ⟨(h.cached k p hkp).1, by have := (h.cached k p hkp).2; omega⟩, h.keys⟩

/-- The segments from `m` on are known to be loaded, and none of them is cached. -/
theorem sharpen (h : Segs w cs n) {m : ℕ} (hload : ∀ (k : ℕ) (p : Ptr) (c : Chunk), m ≤ k →
    w.segments[k]? = some p → cs[k]? = some c → Loaded (w.heap p) c)
    (hcache : ∀ kp ∈ w.scache, kp.1 < m) : Segs w cs m := by
  refine ⟨h.length, h.nodup, h.fresh, fun k p c hp hc => ?_,
    fun k p hkp => ⟨(h.cached k p hkp).1, hcache _ hkp⟩, h.keys⟩
  have hs := h.seg k p c hp hc
  refine ⟨hs.path, hs.index, ?_⟩
  by_cases hk : m ≤ k
  · exact .inl (hload k p c hk hp hc)
  · exact hs.buf.imp_right fun hb => ⟨hk, hb.2⟩

theorem inj (h : Segs w cs n) {k k' : ℕ} {p : Ptr} (hk : w.segments[k]? = some p)
    (hk' : w.segments[k']? = some p) : k = k' :=
  (List.getElem?_inj (List.getElem?_eq_some_iff.mp hk).1 h.nodup).mp (hk.trans hk'.symm)

theorem ptr (h : Segs w cs n) {k : ℕ} {c : Chunk} (hc : cs[k]? = some c) :
    ∃ p, w.segments[k]? = some p := by
  have hk := (List.getElem?_eq_some_iff.mp hc).1
  exact ⟨_, List.getElem?_eq_getElem (by rw [h.length]; exact hk)⟩

theorem chunk (h : Segs w cs n) {k : ℕ} {p : Ptr} (hp : w.segments[k]? = some p) :
    ∃ c, cs[k]? = some c := by
  have hk := (List.getElem?_eq_some_iff.mp hp).1
  exact ⟨_, List.getElem?_eq_getElem (by rw [← h.length]; exact hk)⟩

theorem set (h : Segs w cs n) {k : ℕ} {p : Ptr} {c : Chunk} (hp : w.segments[k]? = some p)
    {s : Segment} (hs : Held s c (n ≤ k)) : Segs (w.store p s) (cs.set k c) n := by
  refine ⟨by rw [List.length_set]; exact h.length, h.nodup, h.fresh, fun k' p' c' hp' hc' => ?_,
    h.cached, h.keys⟩
  change Held (Function.update w.heap p s p') c' (n ≤ k')
  have hk := (List.getElem?_eq_some_iff.mp hp).1
  rw [h.length] at hk
  by_cases hpp : p' = p
  · subst hpp
    obtain rfl := h.inj hp hp'
    rw [List.getElem?_set_self hk, Option.some.injEq] at hc'
    rw [Function.update_self, ← hc']
    exact hs
  · have hkk : k ≠ k' := by
      rintro rfl
      exact hpp (Option.some.inj (hp'.symm.trans hp))
    rw [List.getElem?_set_ne hkk] at hc'
    rw [Function.update_of_ne hpp]
    exact h.seg k' p' c' hp' hc'

theorem store (h : Segs w cs n) {k : ℕ} {p : Ptr} {c : Chunk} (hp : w.segments[k]? = some p)
    (hc : cs[k]? = some c) {s : Segment} (hs : Held s c (n ≤ k)) : Segs (w.store p s) cs n := by
  have hset := h.set hp hs
  obtain ⟨hk, rfl⟩ := List.getElem?_eq_some_iff.mp hc
  rwa [List.set_getElem_self] at hset

theorem drop (h : Segs w cs n) {k : ℕ} {p : Ptr} (hp : w.segments[k]? = some p) (hk : k < n) :
    Segs (w.drop p) cs n := by
  obtain ⟨c, hc⟩ := h.chunk hp
  have hs := h.seg k p c hp hc
  exact h.store hp hc ⟨hs.path, hs.index, .inr ⟨by omega, rfl, rfl⟩⟩

/-- The segments from `k` on, with no cache that names them by position. -/
theorem dropSegments (h : Segs w cs n) (hc : w.scache = []) (k : ℕ) :
    Segs { w with segments := w.segments.drop k } (cs.drop k) (n - k) := by
  refine ⟨by simp [h.length], h.nodup.sublist (List.drop_sublist _ _),
    fun p hp => h.fresh p (List.mem_of_mem_drop hp), fun j p c hp hc => ?_,
    by simp [hc], by simp [hc]⟩
  exact (h.seg (k + j) p c (by simpa using hp) (by simpa using hc)).imp fun _ => by omega

theorem takeSegments (h : Segs w cs n) (hc : w.scache = []) (k : ℕ) :
    Segs { w with segments := w.segments.take k } (cs.take k) n := by
  refine ⟨by simp [h.length], h.nodup.sublist (List.take_sublist _ _),
    fun p hp => h.fresh p (List.mem_of_mem_take hp), fun j p c hp hc => ?_,
    by simp [hc], by simp [hc]⟩
  have hj : j < k := by
    have := (List.getElem?_eq_some_iff.mp hc).1
    simp only [List.length_take] at this
    omega
  simp only [List.getElem?_take_of_lt hj] at hp hc
  exact h.seg j p c hp hc

end Segs

section Find

/-- The bisection ends between the segments that start at or before `index` and those after. -/
theorem WAL.bisect_spec (w : WAL) (index : ℕ) {idx : ℕ → ℕ} {n : ℕ}
    (hidx : ∀ k < n, (w.heap (w.segments.getD k 0)).index = idx k)
    (hmono : ∀ k k', k ≤ k' → k' < n → idx k ≤ idx k') :
    ∀ (fuel i j : ℕ), j - i ≤ fuel → i ≤ j → j ≤ n → (∀ k < i, idx k ≤ index) →
      (∀ k, j ≤ k → k < n → index < idx k) →
      (w.bisect index fuel i j ≤ n ∧ ∀ k < w.bisect index fuel i j, idx k ≤ index)
        ∧ ∀ k, w.bisect index fuel i j ≤ k → k < n → index < idx k
  | 0, i, j, hf, hij, hjn, hlo, hhi => by
    obtain rfl : i = j := by omega
    exact ⟨⟨hjn, hlo⟩, hhi⟩
  | fuel + 1, i, j, hf, hij, hjn, hlo, hhi => by
    by_cases hlt : i < j
    · have hh : i + (j - i) / 2 < j := by omega
      simp only [bisect, if_pos hlt, hidx _ (lt_of_lt_of_le hh hjn)]
      split_ifs with hle
      · refine bisect_spec w index hidx hmono fuel _ j (by omega) (by omega) hjn
          (fun k hk => ?_) hhi
        exact (hmono k _ (by omega) (by omega)).trans hle
      · refine bisect_spec w index hidx hmono fuel i _ (by omega) (by omega) (by omega) hlo
          fun k hk hkn => ?_
        exact lt_of_lt_of_le (not_le.mp hle) (hmono _ k hk hkn)
    · obtain rfl : i = j := by omega
      simp only [bisect, if_neg hlt]
      exact ⟨⟨hjn, hlo⟩, hhi⟩

variable {w : WAL} {first n : ℕ} {cs : List Chunk}

/-- `findSegment` finds the chunk that starts at or before `index`, the next one starting after. -/
theorem Segs.findSegment (h : Segs w cs n) (hl : Layout first cs) {k index : ℕ} {c : Chunk}
    (hc : cs[k]? = some c) (hle : c.index ≤ index)
    (hnext : ∀ c', cs[k + 1]? = some c' → index < c'.index) : w.findSegment index = k := by
  set idx : ℕ → ℕ := fun k => (cs[k]?.map Chunk.index).getD 0
  have hidx : ∀ k < w.segments.length, (w.heap (w.segments.getD k 0)).index = idx k := by
    intro k hk
    have hp : w.segments[k]? = some w.segments[k] := List.getElem?_eq_getElem hk
    obtain ⟨c', hc'⟩ := h.chunk hp
    rw [List.getD_eq_getElem?_getD, hp, Option.getD_some, (h.seg k _ c' hp hc').index]
    simp [idx, hc']
  have hmono : ∀ k k', k ≤ k' → k' < w.segments.length → idx k ≤ idx k' := by
    intro k k' hkk hk'
    rw [h.length] at hk'
    have hc1 : cs[k]? = some cs[k] := List.getElem?_eq_getElem (by omega)
    have hc2 : cs[k']? = some cs[k'] := List.getElem?_eq_getElem hk'
    rcases hkk.eq_or_lt with rfl | hlt
    · exact le_rfl
    · simpa [idx, hc1, hc2] using (hl.index_lt hc1 hc2 hlt).le
  obtain ⟨⟨hr, hlo⟩, hhi⟩ := w.bisect_spec index hidx hmono w.segments.length 0
    w.segments.length (by omega) (by omega) le_rfl (by omega) (by omega)
  set r := w.bisect index w.segments.length 0 w.segments.length with hrdef
  have hk := (List.getElem?_eq_some_iff.mp hc).1
  have hik : idx k = c.index := by simp [idx, hc]
  have h1 : k < r := by
    by_contra hkr
    have := hhi k (by omega) (by rw [h.length]; exact hk)
    omega
  have h2 : r ≤ k + 1 := by
    by_contra hkr
    have hk1 : k + 1 < cs.length := by rw [← h.length]; omega
    have hc1 : cs[k + 1]? = some cs[k + 1] := List.getElem?_eq_getElem hk1
    have hle1 := hlo (k + 1) (by omega)
    simp only [idx, hc1, Option.map_some, Option.getD_some] at hle1
    have := hnext _ hc1
    omega
  unfold WAL.findSegment
  rw [← hrdef]
  omega

end Find

section Cache

variable {lru : SetEvicted ℕ Ptr} {w : WAL} {cs : List Chunk} {n : ℕ}
variable {Q : Except Err Unit → World Name WAL → Prop} {C : Dir Name → Prop}

def WAL.push (lru : SetEvicted ℕ Ptr) (w : WAL) (k : ℕ) (p : Ptr) : WAL :=
  match (lru w.opts.segmentCacheSize w.scache k p).2 with
  | some (_, v) => { w with scache := (lru w.opts.segmentCacheSize w.scache k p).1 }.drop v
  | none => { w with scache := (lru w.opts.segmentCacheSize w.scache k p).1 }

@[simp]
theorem WAL.push_segments (k : ℕ) (p : Ptr) : (w.push lru k p).segments = w.segments := by
  unfold push
  split <;> rfl

theorem WAL.push_eq (k : ℕ) (p : Ptr) : w.push lru k p =
    { w with scache := (w.push lru k p).scache, heap := (w.push lru k p).heap } := by
  unfold push
  split <;> rfl

theorem WAL.push_scache (k : ℕ) (p : Ptr) :
    (w.push lru k p).scache = (lru w.opts.segmentCacheSize w.scache k p).1 := by
  unfold push
  split <;> rfl

/-- A segment pushed comes first, as it was, and no segment from `n` on is touched. -/
theorem Segs.push (hlru : lru.Lawful) (h : Segs w cs n) {k : ℕ} {p : Ptr}
    (hp : w.segments[k]? = some p) (hk : k < n) :
    Segs (w.push lru k p) cs n ∧ (k, p) ∈ (w.push lru k p).scache
      ∧ (w.push lru k p).heap p = w.heap p := by
  obtain ⟨rest, hst, hrest⟩ := hlru.stored w.opts.segmentCacheSize w.scache k p
  have hcache : Segs { w with scache := (lru w.opts.segmentCacheSize w.scache k p).1 } cs n := by
    refine ⟨h.length, h.nodup, h.fresh, h.seg, fun k' p' hkp => ?_, hlru.keys _ _ _ _ h.keys⟩
    simp only [hst, List.mem_cons, Prod.mk.injEq] at hkp
    rcases hkp with ⟨rfl, rfl⟩ | hkp
    · exact ⟨hp, hk⟩
    · exact h.cached k' p' (hrest _ hkp).1
  have hmem : (k, p) ∈ (w.push lru k p).scache := by
    rw [WAL.push_scache, hst]
    exact List.mem_cons_self
  unfold WAL.push at hmem ⊢
  rcases hev : (lru w.opts.segmentCacheSize w.scache k p).2 with _ | ⟨k', v⟩
  · rw [hev] at hmem
    exact ⟨hcache, hmem, rfl⟩
  · rw [hev] at hmem
    obtain ⟨-, hv, hne, -⟩ := hlru.evicted _ _ _ _ _ h.keys hev
    obtain ⟨hv', hk'⟩ := h.cached k' v hv
    refine ⟨hcache.drop hv' hk', hmem, Function.update_of_ne ?_ _ _⟩
    rintro rfl
    exact hne (h.inj hv' hp)

/-- A segment before the tail that is in memory is `p`, or in the cache under its position. -/
def TidyBut (w : WAL) (p : Option Ptr) : Prop :=
  ∀ (k : ℕ) (q : Ptr), w.segments[k]? = some q → k + 1 < w.segments.length →
    (w.heap q).epos ≠ [] → p = some q ∨ (k, q) ∈ w.scache

/-- A segment before the tail that is in memory is in the cache under its position. -/
def Tidy (w : WAL) : Prop := TidyBut w none

theorem Tidy.cached (h : Tidy w) {k : ℕ} {p : Ptr} (hp : w.segments[k]? = some p)
    (hk : k + 1 < w.segments.length) (hload : (w.heap p).epos ≠ []) : (k, p) ∈ w.scache :=
  (h k p hp hk hload).resolve_left (by simp)

theorem Tidy.but (h : Tidy w) (p : Option Ptr) : TidyBut w p :=
  fun _ _ hq hk hload => .inr (h.cached hq hk hload)

/-- The segment that is in memory but not in the cache is pushed, and one that is evicted is dropped
from memory. -/
theorem TidyBut.push (hlru : lru.Lawful) (hnd : w.segments.Nodup) {k : ℕ} {p : Ptr}
    (hp : w.segments[k]? = some p) (h : TidyBut w (some p)) : Tidy (w.push lru k p) := by
  obtain ⟨rest, hst, -⟩ := hlru.stored w.opts.segmentCacheSize w.scache k p
  have hself : (k, p) ∈ (w.push lru k p).scache := by
    rw [WAL.push_scache, hst]
    exact List.mem_cons_self
  intro j q hq hj hload
  rw [WAL.push_segments] at hq hj
  refine .inr ?_
  have hbefore : (w.heap q).epos ≠ []
      ∧ ∀ v, (lru w.opts.segmentCacheSize w.scache k p).2 = some v → q ≠ v.2 := by
    unfold WAL.push at hload
    rcases hev : (lru w.opts.segmentCacheSize w.scache k p).2 with _ | ⟨k', v⟩ <;>
      rw [hev] at hload
    · exact ⟨hload, by simp⟩
    · by_cases hqv : q = v
      · refine absurd ?_ hload
        rw [hqv]
        change (Function.update w.heap v _ v).epos = []
        rw [Function.update_self]
        rfl
      · refine ⟨fun he => hload ?_, ?_⟩
        · change (Function.update w.heap v _ q).epos = []
          rw [Function.update_of_ne hqv]
          exact he
        · rintro v' hv'
          cases hv'
          exact hqv
  rcases h j q hq hj hbefore.1 with hqp | hmem
  · cases hqp
    obtain rfl : k = j := (List.getElem?_inj (List.getElem?_eq_some_iff.mp hp).1 hnd).mp
      (hp.trans hq.symm)
    exact hself
  · by_cases hjk : j = k
    · subst hjk
      obtain rfl : p = q := Option.some.inj (hp.symm.trans hq)
      exact hself
    · rw [WAL.push_scache]
      exact hlru.kept _ _ _ _ _ hmem hjk fun he => hbefore.2 _ he rfl

theorem WAL.foldl_drop (l : List (ℕ × Ptr)) (w : WAL) :
    l.foldl (fun w kp => w.drop kp.2) w = { w with
      heap := fun q => if q ∈ l.map Prod.snd then (w.heap q).dropBuffer else w.heap q } := by
  induction l generalizing w with
  | nil => simp
  | cons kp l ih =>
    rw [List.foldl_cons, ih]
    simp only [WAL.drop, WAL.store, List.map_cons, List.mem_cons]
    congr 1
    funext q
    by_cases hq : q = kp.2
    · have hm : q = kp.2 ∨ q ∈ l.map Prod.snd := .inl hq
      rw [if_pos hm, hq, Function.update_self]
      split_ifs <;> rfl
    · rw [Function.update_of_ne hq]
      exact if_congr (by rw [or_iff_right hq]) rfl rfl

/-- Clearing the cache drops the buffers of the segments in it, and nothing else. -/
theorem WAL.clearCache_eq (w : WAL) : w.clearCache = { w with
    scache := []
    heap := fun q => if q ∈ w.scache.map Prod.snd then (w.heap q).dropBuffer else w.heap q } := by
  unfold clearCache
  rw [foldl_drop]

@[simp]
theorem WAL.clearCache_corrupt (w : WAL) : w.clearCache.corrupt = w.corrupt := by
  rw [clearCache_eq]

@[simp]
theorem WAL.clearCache_closed (w : WAL) : w.clearCache.closed = w.closed := by
  rw [clearCache_eq]

@[simp]
theorem WAL.clearCache_segments (w : WAL) : w.clearCache.segments = w.segments := by
  rw [clearCache_eq]

@[simp]
theorem WAL.clearCache_firstIndex (w : WAL) : w.clearCache.firstIndex = w.firstIndex := by
  rw [clearCache_eq]

@[simp]
theorem WAL.clearCache_lastIndex (w : WAL) : w.clearCache.lastIndex = w.lastIndex := by
  rw [clearCache_eq]

/-- A segment's object may as well be stored after the cache is cleared. -/
theorem WAL.clearCache_store (w : WAL) (p : Ptr) (s : Segment) : (w.store p s).clearCache
    = w.clearCache.store p (if p ∈ w.scache.map Prod.snd then s.dropBuffer else s) := by
  rw [clearCache_eq, clearCache_eq]
  simp only [store]
  congr 1
  funext q
  by_cases hq : q = p
  · rw [hq, Function.update_self, Function.update_self]
    exact if_congr Iff.rfl rfl rfl
  · rw [Function.update_of_ne hq, Function.update_of_ne hq]
    exact if_congr Iff.rfl rfl rfl

theorem WAL.clearCache_heap (w : WAL) (p : Ptr) :
    (w.clearCache.heap p).path = (w.heap p).path ∧
      (w.clearCache.heap p).index = (w.heap p).index := by
  rw [clearCache_eq]
  dsimp only
  split_ifs <;> exact ⟨rfl, rfl⟩

theorem Tidy.clearCache (h : Tidy w) {k : ℕ} {p : Ptr} (hp : w.segments[k]? = some p)
    (hk : k + 1 < w.segments.length) : (w.clearCache.heap p).epos = [] := by
  rw [WAL.clearCache_eq]
  by_cases hload : (w.heap p).epos = []
  · dsimp only
    split_ifs
    · rfl
    · exact hload
  · dsimp only
    rw [if_pos (List.mem_map.mpr ⟨_, h.cached hp hk hload, rfl⟩)]
    rfl

theorem Segs.clearCache (h : Segs w cs n) : Segs w.clearCache cs n := by
  rw [WAL.clearCache_eq]
  refine ⟨h.length, h.nodup, h.fresh, fun k p c hp hc => ?_, by simp, by simp⟩
  have hs := h.seg k p c hp hc
  simp only
  split_ifs with hm
  · obtain ⟨⟨k', p'⟩, hkp, rfl⟩ := List.mem_map.mp hm
    obtain ⟨hp', hk'⟩ := h.cached k' p' hkp
    obtain rfl := h.inj hp' hp
    exact ⟨hs.path, hs.index, .inr ⟨by omega, rfl, rfl⟩⟩
  · exact hs

end Cache

end Rhosus.Wal

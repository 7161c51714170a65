import Rhosus.Lib.Traces
import Rhosus.Wal.Inv
import Rhosus.Wal.Spec

/-!
# Reading the log

A read loads the segment of its index, from the tail, from the cache or from the file, and finds
the record there (`read_spec`). It changes no file, and no segment or buffer a later read relies on.
-/

namespace Rhosus.Wal

variable {lru : SetEvicted ℕ Ptr} {W : World Name WAL} {first : ℕ} {cs : List Chunk}
variable {rest : List (FileName × Bytes)}
variable {Q : Except Err Unit → World Name WAL → Prop} {C : Dir Name → Prop}

theorem getLast?_segments {w : WAL} {n : ℕ} (h : Segs w cs n) (hne : cs ≠ []) :
    ∃ p, w.segments.getLast? = some p ∧ w.segments[cs.length - 1]? = some p := by
  have hpos : 0 < cs.length := List.length_pos_iff.mpr hne
  obtain ⟨p, hp⟩ := h.ptr (List.getElem?_eq_getElem (show cs.length - 1 < cs.length by omega))
  exact ⟨p, by rw [List.getLast?_eq_getElem?, h.length, hp], hp⟩

theorem sliceTo?_encode (ds : List Bytes) (i : ℕ) :
    sliceTo? (encode ds) (encode (ds.take i)).length = some (encode (ds.take i)) := by
  rw [sliceTo?, if_pos (length_encode_take_le ds i), take_encode]

theorem sliceFrom?_encode (ds : List Bytes) (i : ℕ) :
    sliceFrom? (encode ds) (encode (ds.take i)).length = some (encode (ds.drop i)) := by
  rw [sliceFrom?, if_pos (length_encode_take_le ds i), drop_encode]

theorem guarded_ends {α : Type} {m : WalM α} {Q : Except Err α → World Name WAL → Prop}
    {C : Dir Name → Prop} (h1 : W.mem.corrupt = false) (h2 : W.mem.closed = false)
    (h : Ends m W Q C) : Ends (guarded m) W Q C := by
  refine .bind (.getMem ?_)
  simp only [h1, h2, Bool.false_eq_true, ↓reduceIte]
  exact h

/-- A file that holds encoded records is loaded as those records. -/
theorem loadSegmentEntries_trace {p : Ptr} {ds : List Bytes}
    (hfile : W.dir.lookup (W.mem.heap p).path = some (encode ds)) (hfits : ∀ d ∈ ds, Fits d) :
    Trace (loadSegmentEntries p) W [.clean W.mem W.dir] (.ok ()) ⟨W.mem.store p
      { W.mem.heap p with ebuf := encode ds, epos := positions ds }, W.dir, W.plan⟩ := by
  refine .getMem (.bind_one (.fileOp (by rw [hfile]; rfl)) ?_)
  simp only [scanSegment_encode hfits]
  exact ⟨by simp, fun _ => rfl⟩

theorem loadSegmentEntries_ends {p : Ptr} {ds : List Bytes} (hplan : NoFail W.plan)
    (hfile : W.dir.lookup (W.mem.heap p).path = some (encode ds)) (hfits : ∀ d ∈ ds, Fits d)
    (hC : C W.dir)
    (h : ∀ pl, NoFail pl → Q (.ok ()) ⟨W.mem.store p
      { W.mem.heap p with ebuf := encode ds, epos := positions ds }, W.dir, pl⟩) :
    Ends (loadSegmentEntries p) W Q C := by
  refine (loadSegmentEntries_trace hfile hfits).ends (r := .ok ()) hplan ?_ h
  simpa [Point.clean] using hC

theorem pushCache_trace {k : ℕ} {p : Ptr} (hp : W.mem.segments[k]? = some p) :
    Trace (pushCache lru k) W [] (.ok ()) ⟨W.mem.push lru k p, W.dir, W.plan⟩ := by
  refine .getMem (.orPanic hp (.modifyMem ?_))
  unfold WAL.push
  rcases (lru W.mem.opts.segmentCacheSize W.mem.scache k p).2 with _ | ⟨k', v⟩
  · exact .pure
  · exact ⟨by simp, fun _ => rfl⟩

/-- How many files `loadSegment` reads: that of the segment, unless it is the tail or loaded. -/
def WAL.loads (w : WAL) (index : ℕ) : ℕ :=
  match w.segments.getLast?, w.recent index, at? w.segments (w.findSegment index) with
  | some lseg, none, some p =>
    if index < (w.heap lseg).index ∧ (w.heap p).epos.length = 0 then 1 else 0
  | _, _, _ => 0

/-- What reading relies on: the segments, and the files of all of them but the tail. The index of
the last record to read may be behind the records in memory. -/
structure Viewed (W : World Name WAL) (first : ℕ) (cs : List Chunk) : Prop where
  layout : Layout first cs
  segs : Segs W.mem cs (cs.length - 1)
  corrupt : W.mem.corrupt = false
  closed : W.mem.closed = false
  firstIndex : W.mem.firstIndex = first
  lastIndex : W.mem.lastIndex < first + (records cs).length
  file : ∀ {k : ℕ} {c : Chunk}, cs[k]? = some c → k + 1 < cs.length →
    W.dir.lookup (segmentName c.index) = some (encode c.recs)
  plan : NoFail W.plan

/-- Only the cache and the buffers differ. -/
structure SameLog (W W' : World Name WAL) : Prop where
  mem : W'.mem = { W.mem with scache := W'.mem.scache, heap := W'.mem.heap }
  dir : W'.dir = W.dir

theorem SameLog.refl (W : World Name WAL) : SameLog W W := ⟨rfl, rfl⟩

theorem SameLog.trans {W₁ W₂ W₃ : World Name WAL} (h : SameLog W₁ W₂) (h' : SameLog W₂ W₃) :
    SameLog W₁ W₃ :=
  ⟨by rw [h'.mem, h.mem], h'.dir.trans h.dir⟩

def readable (W : World Name WAL) (first : ℕ) (cs : List Chunk) : Log :=
  ⟨first, (records cs).take (W.mem.lastIndex + 1 - first)⟩

namespace Viewed

theorem congr {W' : World Name WAL} (h : Viewed W first cs) (hs : SameLog W W')
    (hsegs : Segs W'.mem cs (cs.length - 1)) (hplan : NoFail W'.plan) : Viewed W' first cs := by
  refine ⟨h.layout, hsegs, ?_, ?_, ?_, ?_, fun hc hk => by rw [hs.dir]; exact h.file hc hk, hplan⟩
  · rw [hs.mem]
    exact h.corrupt
  · rw [hs.mem]
    exact h.closed
  · rw [hs.mem]
    exact h.firstIndex
  · rw [hs.mem]
    exact h.lastIndex

theorem withPlan (h : Viewed W first cs) {p : List Fault} (hp : NoFail p) :
    Viewed { W with plan := p } first cs :=
  ⟨h.layout, h.segs, h.corrupt, h.closed, h.firstIndex, h.lastIndex, h.file, hp⟩

/-- The most recently used segment is taken only if it is loaded and holds the index. -/
theorem recent (h : Viewed W first cs) {i : ℕ} {p : Ptr} (hr : W.mem.recent i = some p) :
    ∃ (k : ℕ) (c : Chunk), cs[k]? = some c ∧ W.mem.segments[k]? = some p ∧ (k, p) ∈ W.mem.scache
      ∧ Loaded (W.mem.heap p) c ∧ c.index ≤ i ∧ i < c.index + c.recs.length := by
  unfold WAL.recent at hr
  split at hr
  · cases hr
  · rename_i k p' rest hcache
    simp only [Option.ite_none_right_eq_some, Option.some.injEq] at hr
    obtain ⟨⟨hle, hlt⟩, rfl⟩ := hr
    have hmem : (k, p') ∈ W.mem.scache := by rw [hcache]; exact List.mem_cons_self
    obtain ⟨hp, -⟩ := h.segs.cached k p' hmem
    obtain ⟨c, hc⟩ := h.segs.chunk hp
    have hs := h.segs.seg k p' c hp hc
    have hload := hs.loaded (by omega)
    rw [hs.index] at hle hlt
    rw [hload.2, length_positions] at hlt
    exact ⟨k, c, hc, hp, hmem, hload, hle, hlt⟩

/-- A segment that is loaded only has to be pushed to the front of the cache. -/
theorem push_trace (hlru : lru.Lawful) (h : Viewed W first cs) {k : ℕ} {c : Chunk} {p : Ptr}
    (hp : W.mem.segments[k]? = some p) (hk : k + 1 < cs.length) (hload : Loaded (W.mem.heap p) c) :
    ∃ W', Trace (pushCache lru k >>= fun _ => pure p) W [] (.ok p) W' ∧ Viewed W' first cs
      ∧ SameLog W W' ∧ W'.mem.segments[k]? = some p ∧ Loaded (W'.mem.heap p) c
      ∧ (k, p) ∈ W'.mem.scache ∧ (TidyBut W.mem (some p) → Tidy W'.mem) := by
  obtain ⟨hsegs, hmem, hheap⟩ := h.segs.push hlru hp (by omega)
  have hsame : SameLog W ⟨W.mem.push lru k p, W.dir, W.plan⟩ := ⟨WAL.push_eq k p, rfl⟩
  refine ⟨_, .bind_nil (pushCache_trace hp) .pure, h.congr hsame hsegs h.plan, hsame, ?_, ?_, hmem,
    fun ht => ht.push hlru h.segs.nodup hp⟩
  · rw [WAL.push_segments]
    exact hp
  · rw [hheap]
    exact hload

/-- A segment that is not loaded is loaded from its file, and goes to the front of the cache. -/
theorem reload_push_trace (hlru : lru.Lawful) (h : Viewed W first cs) {k : ℕ} {p : Ptr} {c : Chunk}
    (hp : W.mem.segments[k]? = some p) (hc : cs[k]? = some c) (hk : k + 1 < cs.length) :
    ∃ W', Trace (loadSegmentEntries p >>= fun _ => pushCache lru k >>= fun _ => pure p) W
        [.clean W.mem W.dir] (.ok p) W' ∧ Viewed W' first cs ∧ SameLog W W'
      ∧ W'.mem.segments[k]? = some p ∧ Loaded (W'.mem.heap p) c ∧ (k, p) ∈ W'.mem.scache
      ∧ (Tidy W.mem → Tidy W'.mem) := by
  have hs := h.segs.seg k p c hp hc
  have hfile : W.dir.lookup (W.mem.heap p).path = some (encode c.recs) := by
    rw [hs.path]
    exact h.file hc hk
  have htr := loadSegmentEntries_trace hfile (h.layout.fits_at hc)
  set W₁ : World Name WAL := ⟨W.mem.store p { W.mem.heap p with
    ebuf := encode c.recs, epos := positions c.recs }, W.dir, W.plan⟩
  have hsame₁ : SameLog W W₁ := ⟨rfl, rfl⟩
  have hv₁ : Viewed W₁ first cs := h.congr hsame₁
    (h.segs.store hp hc ⟨hs.path, hs.index, .inl ⟨rfl, rfl⟩⟩) h.plan
  have hload₁ : Loaded (W₁.mem.heap p) c := by
    change Loaded (Function.update W.mem.heap p _ p) c
    rw [Function.update_self]
    exact ⟨rfl, rfl⟩
  have hbut : Tidy W.mem → TidyBut W₁.mem (some p) := by
    intro ht j q hq hj hload
    by_cases hqp : q = p
    · exact .inl (congrArg some hqp.symm)
    · change (Function.update W.mem.heap p _ q).epos ≠ [] at hload
      rw [Function.update_of_ne hqp] at hload
      exact .inr (ht.cached hq hj hload)
  obtain ⟨W', hpush, hv, hsame, hp', hload, hmem, htidy⟩ := hv₁.push_trace hlru hp hk hload₁
  exact ⟨W', .bind_last htr hpush, hv, hsame₁.trans hsame, hp', hload, hmem,
    fun ht => htidy (hbut ht)⟩

/-- `loadSegment` returns the segment of the chunk the index lies in, loaded. -/
theorem loadSegment_trace (hlru : lru.Lawful) (h : Viewed W first cs) {k i : ℕ} {c : Chunk}
    (hc : cs[k]? = some c) (hle : c.index ≤ i) (hlt : i < c.index + c.recs.length) :
    ∃ ps p W', Trace (loadSegment lru i) W ps (.ok p) W' ∧ ps.length = W.mem.loads i
      ∧ (∀ pt ∈ ps, pt = .clean pt.mem W.dir) ∧ Viewed W' first cs ∧ SameLog W W'
      ∧ W'.mem.segments[k]? = some p ∧ Loaded (W'.mem.heap p) c
      ∧ (k + 1 = cs.length ∨ (k, p) ∈ W'.mem.scache) ∧ (Tidy W.mem → Tidy W'.mem) := by
  have hk := (List.getElem?_eq_some_iff.mp hc).1
  obtain ⟨q, hq, hq'⟩ := getLast?_segments h.segs h.layout.ne
  obtain ⟨t, ht, -⟩ := h.layout.getLast
  have htail := h.segs.seg _ q t hq' ht
  have hfind : W.mem.findSegment i = k := by
    refine h.segs.findSegment h.layout hc hle fun c' hc' => ?_
    have := h.layout.stop_le hc hc' (Nat.lt_succ_self k)
    omega
  obtain ⟨p, hp⟩ := h.segs.ptr hc
  have hat : at? W.mem.segments (k : ℤ) = some p := by
    simp [at?, hp]
  by_cases htle : t.index ≤ i
  · -- the index is the tail's
    obtain rfl : k = cs.length - 1 := by
      by_contra hne
      have := h.layout.stop_le hc ht (by omega)
      omega
    obtain rfl : c = t := Option.some.inj (hc.symm.trans ht)
    refine ⟨[], q, W, .getMem (.orPanic hq ?_), ?_, by simp, h, .refl W, hq', ?_,
      .inl (by omega), id⟩
    · simp only [htail.index, if_pos htle]
      exact .pure
    · rw [WAL.loads, hq, hfind, hat]
      rcases W.mem.recent i with _ | p'
      · simp only [htail.index, not_lt.mpr htle, false_and, ↓reduceIte, List.length_nil]
      · rfl
    · exact htail.buf.resolve_right fun hb => hb.1 le_rfl
  · have hk1 : k + 1 < cs.length := by
      by_contra hlast
      obtain rfl : k = cs.length - 1 := by omega
      obtain rfl : c = t := Option.some.inj (hc.symm.trans ht)
      omega
    rcases hr : W.mem.recent i with _ | p'
    · have hs := h.segs.seg k p c hp hc
      have hloads : W.mem.loads i = if (W.mem.heap p).epos.length = 0 then 1 else 0 := by
        rw [WAL.loads, hq, hr, hfind, hat]
        simp only [htail.index, not_le.mp htle, true_and]
      have hgo : ∀ {ps : List (Point Name WAL)} {W' : World Name WAL},
          Trace (if (W.mem.heap p).epos.length = 0
            then loadSegmentEntries p >>= fun _ => pushCache lru k >>= fun _ => pure p
            else pushCache lru k >>= fun _ => pure p) W ps (.ok p) W' →
          Trace (loadSegment lru i) W ps (.ok p) W' := by
        intro ps W' htr
        refine .getMem (.orPanic hq ?_)
        simp only [htail.index, if_neg htle, hr, hfind]
        exact .orPanic hat htr
      by_cases hz : (W.mem.heap p).epos.length = 0
      · obtain ⟨W', hpush, hv, hsame, hp', hload, hmem, htidy⟩ := h.reload_push_trace hlru hp hc hk1
        refine ⟨[.clean W.mem W.dir], p, W', hgo ?_, ?_, ?_, hv, hsame, hp', hload, .inr hmem,
          htidy⟩
        · rw [if_pos hz]
          exact hpush
        · rw [hloads, if_pos hz]
          rfl
        · simp [Point.clean]
      · obtain ⟨W', hpush, hv, hsame, hp', hload, hmem, htidy⟩ :=
          h.push_trace hlru hp hk1 (hs.loaded hz)
        refine ⟨[], p, W', hgo ?_, ?_, by simp, hv, hsame, hp', hload, .inr hmem,
          fun ht => htidy (ht.but _)⟩
        · rw [if_neg hz]
          exact hpush
        · rw [hloads, if_neg hz]
          rfl
    · obtain ⟨k', c', hc', hp', hmem, hload, hle', hlt'⟩ := h.recent hr
      obtain rfl := h.layout.chunk_unique hc hc' hle hlt hle' hlt'
      obtain rfl : c = c' := Option.some.inj (hc.symm.trans hc')
      refine ⟨[], p', W, .getMem (.orPanic hq ?_), ?_, by simp, h, .refl W, hp', hload, .inr hmem,
        id⟩
      · simp only [htail.index, if_neg htle, hr]
        exact .pure
      · rw [WAL.loads, hq, hr]
        rfl

theorem loadSegment_spec (hlru : lru.Lawful) (h : Viewed W first cs) {k i : ℕ} {c : Chunk}
    (hc : cs[k]? = some c) (hle : c.index ≤ i) (hlt : i < c.index + c.recs.length) :
    Ends (loadSegment lru i) W (fun r W' => ∃ p, r = .ok p ∧ Viewed W' first cs ∧ SameLog W W'
      ∧ W'.mem.segments[k]? = some p ∧ Loaded (W'.mem.heap p) c
      ∧ (Tidy W.mem → Tidy W'.mem)) (· = W.dir) := by
  obtain ⟨ps, p, W', htr, -, hps, hv, hsame, hp, hload, -, htidy⟩ :=
    h.loadSegment_trace hlru hc hle hlt
  refine htr.ends (r := .ok p) h.plan (fun pt hpt => by rw [hps pt hpt]; rfl) fun pl hpl => ?_
  exact ⟨p, rfl, hv.withPlan hpl, ⟨hsame.mem, hsame.dir⟩, hp, hload, htidy⟩

theorem read_spec (hlru : lru.Lawful) (h : Viewed W first cs) (i : ℕ) :
    Ends (read lru i) W (fun r W' => r = (readable W first cs).read i ∧ Viewed W' first cs
      ∧ SameLog W W' ∧ (Tidy W.mem → Tidy W'.mem)) (· = W.dir) := by
  refine guarded_ends h.corrupt h.closed (.bind (.getMem ?_))
  have hpos := h.layout.pos
  have hlast := h.lastIndex
  simp only [h.firstIndex]
  split_ifs with hout
  · refine .throw ⟨?_, h, .refl W, id⟩
    have hno : ¬ (readable W first cs).Has i := by
      rw [Log.has_iff]
      simp only [readable, List.length_take]
      omega
    rw [← Log.get?_isSome, Bool.not_eq_true, Option.isSome_eq_false_iff, Option.isNone_iff_eq_none]
      at hno
    rw [Log.read, hno]
  · obtain ⟨k, c, hc, hle, hlt, hrec⟩ := h.layout.chunk_of (i := i) (by omega) (by omega)
    refine .bind_of (h.loadSegment_spec hlru hc hle hlt) (fun d hd => hd) ?_
    rintro r W' ⟨p, rfl, hW', hsame, hp, hload, htidy⟩
    refine ⟨p, rfl, .bind (.getMem ?_)⟩
    have hs := hW'.segs.seg k p c hp hc
    have hoff : i - c.index < c.recs.length := by omega
    have hsub : sub? i (W'.mem.heap p).index = some (i - c.index) := by
      rw [hs.index, sub?, if_pos hle]
    refine .bind (.orPanic hsub (.bind (.orPanic (by rw [hload.2, getElem?_positions hoff]) ?_)))
    have hone : (c.recs.take (i - c.index + 1)).drop (i - c.index) = [c.recs[i - c.index]] := by
      rw [List.take_add_one, List.drop_append_of_le_length (by simp; omega)]
      simp [hoff]
    have hslice := sliceFrom?_encode (c.recs.take (i - c.index + 1)) (i - c.index)
    rw [List.take_take, min_eq_left (Nat.le_succ _), hone] at hslice
    refine .bind (.orPanic (by rw [hload.1, sliceTo?_encode, Option.bind_some, hslice]) ?_)
    simp only [encode_cons, encode_nil, List.append_nil,
      (item_encodeEntry (h.layout.fits_at hc _ (List.getElem_mem hoff))).decode]
    refine .pure ⟨?_, hW', hsame, htidy⟩
    rw [List.getElem?_eq_getElem hoff] at hrec
    have hget : (readable W first cs).get? i = some c.recs[i - c.index] := by
      rw [hrec, readable, Log.get?, if_neg (by simp only; omega)]
      exact List.getElem?_take_of_lt (show i - first < W.mem.lastIndex + 1 - first by omega)
    rw [Log.read, hget]

end Viewed

/-- From `W` the operations `ps` have brought the segment of `i`, which is the one at `k`, into
memory. -/
structure Fetched (W : World Name WAL) (first : ℕ) (cs : List Chunk) (i k : ℕ)
    (ps : List (Point Name WAL)) (p : Ptr) (W' : World Name WAL) : Prop where
  length : ps.length = W.mem.loads i
  clean : ∀ pt ∈ ps, pt = .clean pt.mem W.dir
  good : Good W' first cs
  dir : W'.dir = W.dir
  ptr : W'.mem.segments[k]? = some p
  cached : k + 1 = cs.length ∨ (k, p) ∈ W'.mem.scache
  tidy : Tidy W.mem → Tidy W'.mem

namespace Opened

theorem file (h : Opened W first cs rest) {k : ℕ} {c : Chunk} (hc : cs[k]? = some c) :
    W.dir.lookup (segmentName c.index) = some (encode c.recs) :=
  h.files.has (.seg c.index) _
    (List.mem_append_left _ (List.mem_map_of_mem (List.mem_of_getElem? hc)))

theorem viewed (h : Opened W first cs rest) : Viewed W first cs :=
  ⟨h.layout, h.mem.segs, h.mem.corrupt, h.mem.closed, h.mem.firstIndex,
    by have := h.mem.lastIndex; omega, fun hc _ => h.file hc, h.plan⟩

theorem readable_eq (h : Opened W first cs rest) : readable W first cs = ⟨first, records cs⟩ := by
  rw [readable, List.take_of_length_le]
  have := h.mem.lastIndex
  omega

theorem congr {W' : World Name WAL} (h : Opened W first cs rest) (hs : SameLog W W')
    (hv : Viewed W' first cs) : Opened W' first cs rest := by
  refine ⟨h.layout, ⟨hv.segs, hv.corrupt, hv.closed, hv.firstIndex, ?_, fun t ht => ?_⟩, ?_,
    h.other, hv.plan⟩
  · rw [hs.mem]
    exact h.mem.lastIndex
  · rw [hs.mem]
    exact h.mem.sfile t ht
  · rw [hs.dir]
    exact h.files

theorem read_spec (hlru : lru.Lawful) (h : Opened W first cs rest) (i : ℕ) :
    Ends (read lru i) W (fun r W' => r = (Log.mk first (records cs)).read i
      ∧ Opened W' first cs rest ∧ (Tidy W.mem → Tidy W'.mem)) (· = W.dir) := by
  refine (h.viewed.read_spec hlru i).mono ?_ fun d hd => hd
  rintro r W' ⟨rfl, hv, hs, htidy⟩
  rw [h.readable_eq]
  exact ⟨rfl, h.congr hs hv, htidy⟩

end Opened

namespace Good

theorem file (h : Good W first cs) {k : ℕ} {c : Chunk} (hc : cs[k]? = some c) :
    W.dir.lookup (segmentName c.index) = some (encode c.recs) := h.opened.file hc

theorem viewed (h : Good W first cs) : Viewed W first cs := h.opened.viewed

theorem loadSegment_trace (hlru : lru.Lawful) (h : Good W first cs) {k i : ℕ} {c : Chunk}
    (hc : cs[k]? = some c) (hle : c.index ≤ i) (hlt : i < c.index + c.recs.length) :
    ∃ ps p W', Trace (loadSegment lru i) W ps (.ok p) W' ∧ Fetched W first cs i k ps p W'
      ∧ Loaded (W'.mem.heap p) c := by
  obtain ⟨ps, p, W', htr, hlen, hps, hv, hs, hp, hload, hcase, htidy⟩ :=
    h.viewed.loadSegment_trace hlru hc hle hlt
  exact ⟨ps, p, W', htr, ⟨hlen, hps, of_opened (h.opened.congr hs hv), hs.dir, hp, hcase, htidy⟩,
    hload⟩

end Good

end Rhosus.Wal

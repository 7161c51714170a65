import Rhosus.Wal.Refine

/-!
# What the log has in memory

A segment other than the tail is in memory only as long as it is in the cache, under its position,
and the tail is never in the cache. The first is `Tidy`, the second a part of `Segs`, and both hold
after any operations on an open log. With the bound on the cache, which no operation goes beyond
whatever befalls it (`exec_keeps`), they bound the segments in memory; and what the cache drops is
never the tail (`cache_sound`).
-/

namespace Rhosus.Wal

open Prog (Keeps)

variable {lru : SetEvicted ℕ Ptr} {W : World Name WAL} {l : Log}

section Statement

def Segment.InMemory (s : Segment) : Prop := s.ebuf ≠ [] ∨ s.epos ≠ []

instance (s : Segment) : Decidable s.InMemory := inferInstanceAs (Decidable (_ ∨ _))

/-- What the segment has in memory is what `loadSegmentEntries` reads from its file. -/
def AsOnDisk (W : World Name WAL) (p : Ptr) : Prop := loadSegmentEntries p W = (.ok (), W)

variable (lru)

/-- The cache of a log that was opened with the options `o`. -/
structure CacheSound (o : Options) (W : World Name WAL) : Prop where
  /-- A segment with entries in memory is the last one, or cached under its position. -/
  cached : ∀ (k : ℕ) (p : Ptr), W.mem.segments[k]? = some p → (W.mem.heap p).epos ≠ [] →
    W.mem.segments.getLast? = some p ∨ (k, p) ∈ W.mem.scache
  /-- Each key is the position of its segment, which is not the last one. -/
  keys : ∀ (k : ℕ) (p : Ptr), (k, p) ∈ W.mem.scache →
    W.mem.segments[k]? = some p ∧ W.mem.segments.getLast? ≠ some p
  asOnDisk : ∀ (k : ℕ) (p : Ptr), (k, p) ∈ W.mem.scache → (W.mem.heap p).InMemory → AsOnDisk W p
  /-- At most as many segments before the last one are in memory as the cache may hold. -/
  few : (W.mem.segments.dropLast.filter fun p => (W.mem.heap p).InMemory).length
    ≤ o.segmentCacheSize
  tail : ∀ p ∈ W.mem.segments.getLast?, AsOnDisk W p
  /-- What is evicted when a segment is pushed is not the last one. -/
  evicted : ∀ (k : ℕ) (p : Ptr) (v : ℕ × Ptr),
    (lru W.mem.opts.segmentCacheSize W.mem.scache k p).2 = some v →
      W.mem.segments.getLast? ≠ some v.2
  cleared : ∀ p ∈ W.mem.segments.getLast?, W.mem.clearCache.heap p = W.mem.heap p

end Statement

section Bound

variable {o : Options}

/-- The cache is within its size. -/
def Within (o : Options) (w : WAL) : Prop := w.opts = o ∧ w.scache.length ≤ o.segmentCacheSize

theorem Within.clearCache {w : WAL} (h : Within o w) : Within o w.clearCache := by
  rw [WAL.clearCache_eq]
  exact ⟨h.1, by simp⟩

theorem pushCache_keeps (hlru : lru.Lawful) (ho : 1 ≤ o.segmentCacheSize) (k : ℕ) :
    Keeps (Within o) (pushCache lru k) := by
  intro W h
  rcases hp : W.mem.segments[k]? with _ | p
  · simpa [pushCache, Prog.getMem, Prog.orPanic, Prog.panic, Bind.bind, hp] using h
  · have hpush : Trace (pushCache lru k) W [] _ _ := pushCache_trace hp
    have hrun := hpush.2 W.plan
    rw [Agrees] at hrun
    rw [hrun]
    refine ⟨?_, ?_⟩
    · rw [WAL.push_eq]
      exact h.1
    · rw [WAL.push_scache, h.1]
      exact hlru.size _ _ _ _ ho h.2

theorem loadSegmentEntries_keeps (p : Ptr) : Keeps (Within o) (loadSegmentEntries p) := by
  refine .bind .getMem fun w => .bind .fileOp fun data => ?_
  split
  · exact .throw _
  · exact .modifyMem fun _ h => h

theorem sfileWrite_keeps (bs : Bytes) : Keeps (Within o) (sfileWrite bs) := by
  refine .bind .getMem fun w => ?_
  split
  · exact .throw _
  · exact .fileOp

theorem closeTail_keeps : Keeps (Within o) closeTail := by
  refine .bind .getMem fun w => ?_
  split
  · exact .throw _
  · exact .bind (.modifyMem fun _ h => h) fun _ => .fileOp

theorem openTail_keeps (n : Name) : Keeps (Within o) (openTail n) :=
  .bind (.modifyMem fun _ h => h) fun _ => .bind .fileOp fun _ =>
    .bind (.modifyMem fun _ h => h) fun _ => .bind .fileOp fun _ => .pure _

theorem createSegment_keeps (index : ℕ) : Keeps (Within o) (createSegment index) :=
  .bind (.modifyMem fun _ h => h) fun _ => .bind .fileOp fun _ => .modifyMem fun _ h => h

section Create

theorem within_allocAll : ∀ (found : List (ℕ × Name)) {w : WAL}, Within o w →
    Within o (allocAll found w)
  | [], _, h => h
  | (_, _) :: found, _, h => within_allocAll found h

theorem unsuffix_keeps (p : Ptr) (suffix : Name) : Keeps (Within o) (unsuffix p suffix) :=
  .bind .getMem fun _ => .bind .fileOp fun _ => .modifyMem fun _ h => h

theorem removeSegment_keeps (p : Ptr) : Keeps (Within o) (removeSegment p) :=
  .bind .getMem fun _ => .fileOp

theorem cleanStart_keeps (i : ℕ) : Keeps (Within o) (cleanStart i) :=
  .bind .getMem fun _ => .bind (.each removeSegment_keeps _) fun _ =>
    .bind (.modifyMem fun _ h => h) fun _ => .bind .getMem fun _ => .bind (.orPanic _) fun _ =>
      unsuffix_keeps _ _

theorem cleanEnd_keeps (i : ℕ) : Keeps (Within o) (cleanEnd i) := by
  refine .bind .getMem fun _ => .bind (.each removeSegment_keeps _) fun _ =>
    .bind (.modifyMem fun _ h => h) fun _ => .bind .getMem fun _ => .bind (.orPanic _) fun _ => ?_
  split_ifs
  · exact .bind (.modifyMem fun _ h => h) fun _ => unsuffix_keeps _ _
  · exact unsuffix_keeps _ _

theorem openLog_keeps : Keeps (Within o) openLog :=
  .bind .getMem fun _ => .bind (.orPanic _) fun _ => .bind (.orPanic _) fun _ =>
    .bind (.modifyMem fun _ h => h) fun _ => .bind (openTail_keeps _) fun _ =>
      .bind (loadSegmentEntries_keeps _) fun _ => .modifyMem fun _ h => h

theorem load_keeps : Keeps (Within o) load := by
  refine .bind .fileOp fun names => .bind (.modifyMem fun _ => within_allocAll _) fun _ => ?_
  split
  · exact .bind (.modifyMem fun _ h => h) fun _ => createSegment_keeps _
  · exact .throw _
  · exact .bind (cleanStart_keeps _) fun _ => openLog_keeps
  · exact .bind (cleanEnd_keeps _) fun _ => openLog_keeps
  · exact openLog_keeps

theorem within_create (opts : Options) (W : World Name WAL) :
    Within opts.orDefault (create opts W).2.mem := by
  have hload : Keeps (Within opts.orDefault) (Prog.touch .io >>= fun _ => load : WalM Unit) :=
    .bind .fileOp fun _ => load_keeps
  exact hload { W with mem := WAL.new opts } ⟨rfl, by simp [WAL.new]⟩

end Create

theorem one_le_cacheSize (opts : Options) : 1 ≤ opts.orDefault.segmentCacheSize := by
  simp only [Options.orDefault]
  split_ifs with h
  · decide
  · exact Nat.one_le_iff_ne_zero.mpr h

variable (hlru : lru.Lawful) (ho : 1 ≤ o.segmentCacheSize)
include hlru ho

theorem cycle_keeps : Keeps (Within o) (cycle lru) := by
  refine .bind .getMem fun w => ?_
  split
  · exact .throw _
  · exact .bind .fileOp fun _ => .bind closeTail_keeps fun _ =>
      .bind (pushCache_keeps hlru ho _) fun _ => createSegment_keeps _

theorem writeEntries_keeps : ∀ (es : List BatchEntry) (datas : Bytes) (mark : ℕ),
    Keeps (Within o) (writeEntries lru es datas mark)
  | [], _, _ => .pure _
  | e :: es, datas, mark => by
    refine .bind .getMem fun w => .bind (.orPanic _) fun p => .bind (.orPanic _) fun data =>
      .bind (.modifyMem fun _ h => h) fun _ => ?_
    split_ifs
    · exact .bind (sfileWrite_keeps _) fun _ => .bind (.modifyMem fun _ h => h) fun _ =>
        .bind (cycle_keeps hlru ho) fun _ => writeEntries_keeps es _ _
    · exact writeEntries_keeps es _ _

theorem appendBatch_keeps (b : Batch) : Keeps (Within o) (appendBatch lru b) := by
  refine .bind .getMem fun w => .bind (.orPanic _) fun p =>
    .bind (writeEntries_keeps hlru ho _ _ _) fun mark => .bind .getMem fun w =>
      .bind (.orPanic _) fun p => ?_
  split_ifs
  · exact .bind (sfileWrite_keeps _) fun _ => .bind (.orPanic _) fun _ => .modifyMem fun _ h => h
  · exact .pure _

omit hlru ho in
theorem guarded_keeps {α : Type} {m : WalM α} (hm : Keeps (Within o) m) :
    Keeps (Within o) (guarded m) := by
  refine .bind .getMem fun w => ?_
  split_ifs
  · exact .throw _
  · exact .throw _
  · exact hm

theorem write_keeps (index : ℕ) (data : Bytes) : Keeps (Within o) (write lru index data) := by
  refine guarded_keeps (.bind .getMem fun w => .bind (.orPanic _) fun p => ?_)
  split_ifs
  · exact .bind (cycle_keeps hlru ho) fun _ => appendBatch_keeps hlru ho _
  · exact appendBatch_keeps hlru ho _

theorem loadSegment_keeps (index : ℕ) : Keeps (Within o) (loadSegment lru index) := by
  refine .bind .getMem fun w => .bind (.orPanic _) fun lseg => ?_
  split_ifs
  · exact .pure _
  · split
    · exact .pure _
    · refine .bind (.orPanic _) fun p => ?_
      split_ifs
      · exact .bind (loadSegmentEntries_keeps _) fun _ =>
          .bind (pushCache_keeps hlru ho _) fun _ => .pure _
      · exact .bind (pushCache_keeps hlru ho _) fun _ => .pure _

theorem read_keeps (index : ℕ) : Keeps (Within o) (read lru index) := by
  refine guarded_keeps (.bind .getMem fun w => ?_)
  split_ifs
  · exact .throw _
  · refine .bind (loadSegment_keeps hlru ho _) fun p => .bind .getMem fun w =>
      .bind (.orPanic _) fun off => .bind (.orPanic _) fun epos => .bind (.orPanic _) fun _ => ?_
    split
    · exact .throw _
    · exact .pure _

section Truncate

omit hlru ho

theorem writeTemp_keeps (ebuf : Bytes) : Keeps (Within o) (writeTemp ebuf) :=
  .ignoreErr (.bind .fileOp fun _ => .bind .fileOp fun _ => .bind .fileOp fun _ => .fileOp)

theorem replaceFiles_keeps (ps : List Ptr) (a b : Name) : Keeps (Within o) (replaceFiles ps a b) :=
  .bind (.each removeSegment_keeps _) fun _ => .fileOp

theorem reopenTail_keeps (n : Name) (ebuf : Bytes) : Keeps (Within o) (reopenTail n ebuf) := by
  refine .bind (openTail_keeps _) fun m => ?_
  split_ifs
  · exact .throw _
  · exact .pure _

theorem finishFront_keeps (index segIdx : ℕ) (p : Ptr) (ebuf : Bytes) :
    Keeps (Within o) (finishFront index segIdx p ebuf) := by
  have hrest : Keeps (Within o) (do
      Prog.modifyMem fun w => { w with segments := w.segments.drop segIdx, firstIndex := index }
      Prog.modifyMem WAL.clearCache : WalM Unit) :=
    .bind (.modifyMem fun _ h => h) fun _ => .modifyMem fun _ => Within.clearCache
  refine .recovering (fun _ h => h) (.bind .getMem fun w => ?_)
  dsimp only
  split_ifs
  · exact .bind closeTail_keeps fun _ => .bind (replaceFiles_keeps _ _ _) fun _ =>
      .bind (.modifyMem fun _ h => h) fun _ => .bind (reopenTail_keeps _ _) fun _ =>
        .bind (loadSegmentEntries_keeps _) fun _ => hrest
  · exact .bind (replaceFiles_keeps _ _ _) fun _ => .bind (.modifyMem fun _ h => h) fun _ => hrest

theorem finishBack_keeps (index segIdx : ℕ) (p : Ptr) (ebuf : Bytes) :
    Keeps (Within o) (finishBack index segIdx p ebuf) :=
  .recovering (fun _ h => h) (.bind closeTail_keeps fun _ => .bind .getMem fun _ =>
    .bind (replaceFiles_keeps _ _ _) fun _ => .bind (reopenTail_keeps _ _) fun _ =>
      .bind (.modifyMem fun _ h => h) fun _ => .bind (.modifyMem fun _ h => h) fun _ =>
        .bind (.modifyMem fun _ => Within.clearCache) fun _ => loadSegmentEntries_keeps _)

end Truncate

theorem truncateFront_keeps (index : ℕ) : Keeps (Within o) (truncateFront lru index) := by
  refine guarded_keeps (.bind .getMem fun w => ?_)
  split_ifs
  · exact .throw _
  · exact .pure _
  · exact .bind .getMem fun _ => .bind (loadSegment_keeps hlru ho _) fun _ => .bind .getMem fun _ =>
      .bind (.orPanic _) fun _ => .bind (.orPanic _) fun _ => .bind (.orPanic _) fun _ =>
        .bind (writeTemp_keeps _) fun _ => .bind .fileOp fun _ => finishFront_keeps _ _ _ _

theorem truncateBack_keeps (index : ℕ) : Keeps (Within o) (truncateBack lru index) := by
  refine guarded_keeps (.bind .getMem fun w => ?_)
  split_ifs
  · exact .throw _
  · exact .pure _
  · exact .bind .getMem fun _ => .bind (loadSegment_keeps hlru ho _) fun _ => .bind .getMem fun _ =>
      .bind (.orPanic _) fun _ => .bind (.orPanic _) fun _ => .bind (.orPanic _) fun _ =>
        .bind (writeTemp_keeps _) fun _ => .bind .fileOp fun _ => finishBack_keeps _ _ _ _

/-- No operation takes the cache beyond its size, whatever befalls it. -/
theorem exec_keeps (op : Op) : Keeps (Within o) (op.exec lru) := by
  cases op with
  | append d =>
    exact .bind (guarded_keeps (.bind .getMem fun _ => .pure _)) fun _ =>
      .bind (write_keeps hlru ho _ _) fun _ => .pure _
  | read i => exact .bind (read_keeps hlru ho i) fun _ => .pure _
  | clearCache =>
    exact .bind (guarded_keeps (.modifyMem fun _ => Within.clearCache)) fun _ => .pure _
  | truncateFront i => exact .bind (truncateFront_keeps hlru ho i) fun _ => .pure _
  | truncateBack i => exact .bind (truncateBack_keeps hlru ho i) fun _ => .pure _
  | firstIndex | lastIndex =>
    exact .bind (guarded_keeps (.bind .getMem fun _ => .pure _)) fun _ => .pure _

theorem Within.runOps : ∀ (ops : List Op) {W W' : World Name WAL} {rs : List Res},
    Within o W.mem → runOps lru ops W = some (rs, W') → Within o W'.mem
  | [], W, W', rs, h, hrun => by
    obtain ⟨-, rfl⟩ := Prod.mk.inj (Option.some.inj hrun)
    exact h
  | op :: ops, W, W', rs, h, hrun => by
    have hop := exec_keeps hlru ho op W h
    have hgo : ∀ {W₁ : World Name WAL} {r : Res}, Within o W₁.mem →
        (Wal.runOps lru ops W₁).map (fun s => (r :: s.1, s.2)) = some (rs, W') →
          Within o W'.mem := by
      intro W₁ r h₁ hmap
      obtain ⟨⟨rs', W₂⟩, hrest, heq⟩ := Option.map_eq_some_iff.mp hmap
      obtain ⟨-, rfl⟩ := Prod.mk.inj heq
      exact Within.runOps ops h₁ hrest
    rw [Wal.runOps] at hrun
    rcases hexec : op.exec lru W with ⟨_ | _ | _ | _, W₁⟩ <;> simp only [hexec] at hrun hop
    · exact hgo hop hrun
    · exact hgo hop hrun
    · cases hrun
    · cases hrun

end Bound

section Sound

variable {first : ℕ} {cs : List Chunk}

theorem Good.asOnDisk (h : Good W first cs) (hplan : W.plan = []) {k : ℕ} {p : Ptr} {c : Chunk}
    (hp : W.mem.segments[k]? = some p) (hc : cs[k]? = some c) (hload : Loaded (W.mem.heap p) c) :
    AsOnDisk W p := by
  have hpath := (h.mem.segs.seg k p c hp hc).path
  have hrun := (loadSegmentEntries_trace (W := W) (p := p) (by rw [hpath]; exact h.file hc)
    (h.layout.fits_at hc)).2.runs
  obtain ⟨mem, dir, plan⟩ := W
  obtain rfl : plan = [] := hplan
  rw [← hload.1, ← hload.2, WAL.store, Function.update_eq_self] at hrun
  exact hrun

theorem Held.loaded_of_inMemory {s : Segment} {c : Chunk} {full : Prop} (h : Held s c full)
    (hs : s.InMemory) : Loaded s c := by
  refine h.buf.resolve_right fun hb => ?_
  rcases hs with hs | hs
  · exact hs hb.2.1
  · exact hs hb.2.2

theorem Good.mem_scache (h : Good W first cs) (ht : Tidy W.mem) {p : Ptr}
    (hp : p ∈ W.mem.segments.dropLast) (hs : (W.mem.heap p).InMemory) :
    p ∈ W.mem.scache.map Prod.snd := by
  obtain ⟨k, hk⟩ := List.mem_iff_getElem?.mp hp
  have hlt : k + 1 < W.mem.segments.length := by
    have := (List.getElem?_eq_some_iff.mp hk).1
    rw [List.length_dropLast] at this
    omega
  rw [List.dropLast_eq_take, List.getElem?_take_of_lt (by omega)] at hk
  obtain ⟨c, hc⟩ := h.mem.segs.chunk hk
  have hload := (h.mem.segs.seg k p c hk hc).loaded_of_inMemory hs
  have hrecs := h.layout.full_at hc (by rw [← h.mem.segs.length]; exact hlt)
  refine List.mem_map.mpr ⟨(k, p), ht.cached hk hlt ?_, rfl⟩
  rw [hload.2]
  exact fun he => hrecs (by simpa using congrArg List.length he)

theorem Good.tail (h : Good W first cs) : ∃ p c, W.mem.segments.getLast? = some p
    ∧ W.mem.segments[cs.length - 1]? = some p ∧ cs[cs.length - 1]? = some c
    ∧ Loaded (W.mem.heap p) c := by
  obtain ⟨p, hlast, hp⟩ := getLast?_segments h.mem.segs h.layout.ne
  obtain ⟨c, hc⟩ := h.mem.segs.chunk hp
  have hheld := h.mem.segs.seg _ p c hp hc
  exact ⟨p, c, hlast, hp, hc, hheld.buf.resolve_right fun hb => hb.1 le_rfl⟩

theorem Good.cached (h : Good W first cs) {k : ℕ} {p : Ptr} (hkp : (k, p) ∈ W.mem.scache) :
    W.mem.segments[k]? = some p ∧ W.mem.segments.getLast? ≠ some p := by
  obtain ⟨hp, hk⟩ := h.mem.segs.cached k p hkp
  refine ⟨hp, fun hlast => ?_⟩
  obtain ⟨q, -, hq, hqlast, -⟩ := h.tail
  obtain rfl : q = p := Option.some.inj (hq.symm.trans hlast)
  exact hk.ne (h.mem.segs.inj hp hqlast)

theorem Good.few (h : Good W first cs) (ht : Tidy W.mem) {o : Options} (hw : Within o W.mem) :
    (W.mem.segments.dropLast.filter fun p => (W.mem.heap p).InMemory).length
      ≤ o.segmentCacheSize := by
  have hnodup : (W.mem.segments.dropLast.filter fun p => (W.mem.heap p).InMemory).Nodup :=
    (h.mem.segs.nodup.sublist (List.dropLast_sublist _)).filter _
  have hsub : (W.mem.segments.dropLast.filter fun p => (W.mem.heap p).InMemory)
      ⊆ W.mem.scache.map Prod.snd := by
    intro p hp
    obtain ⟨hp, hs⟩ := List.mem_filter.mp hp
    exact h.mem_scache ht hp (of_decide_eq_true hs)
  calc (W.mem.segments.dropLast.filter fun p => (W.mem.heap p).InMemory).length
      ≤ (W.mem.scache.map Prod.snd).length := (hnodup.subperm hsub).length_le
    _ = W.mem.scache.length := List.length_map _
    _ ≤ o.segmentCacheSize := hw.2

theorem Good.cacheSound (hlru : lru.Lawful) (h : Good W first cs) (ht : Tidy W.mem)
    (hplan : W.plan = []) {o : Options} (hw : Within o W.mem) : CacheSound lru o W := by
  obtain ⟨t, c, hlast, ht', hc, hload⟩ := h.tail
  refine ⟨fun k p hp hepos => ?_, fun k p => h.cached, fun k p hkp hs => ?_, h.few ht hw,
    fun p hp => ?_, fun k p v hv => ?_, fun p hp => ?_⟩
  · by_cases hk : k + 1 < W.mem.segments.length
    · exact .inr (ht.cached hp hk hepos)
    · have := (List.getElem?_eq_some_iff.mp hp).1
      rw [List.getLast?_eq_getElem?, show W.mem.segments.length - 1 = k by omega]
      exact .inl hp
  · have hp := (h.cached hkp).1
    obtain ⟨c, hc⟩ := h.mem.segs.chunk hp
    exact h.asOnDisk hplan hp hc ((h.mem.segs.seg k p c hp hc).loaded_of_inMemory hs)
  · obtain rfl : t = p := Option.some.inj (hlast.symm.trans hp)
    exact h.asOnDisk hplan ht' hc hload
  · exact (h.cached (hlru.evicted _ _ _ _ v h.mem.segs.keys hv).2.1).2
  · rw [WAL.clearCache_eq]
    refine if_neg fun hmem => ?_
    obtain ⟨⟨k, q⟩, hkq, rfl⟩ := List.mem_map.mp hmem
    exact (h.cached hkq).2 hp

/-- Whatever log `Create` opens, and whatever is written, read and truncated then, if no file
operation fails: only segments in the cache are in memory besides the last one, which is whole and
not in the cache; and neither an eviction nor a clear of the cache drops it. -/
theorem cache_sound (hlru : lru.Lawful) (opts : Options) {d : Dir Name} (hd : Recovers d l)
    (hl : l.Wf) (ops : List Op) : ∃ W₀ rs W, create opts ⟨WAL.new opts, d, []⟩ = (.ok (), W₀)
      ∧ runOps lru ops W₀ = some (rs, W) ∧ CacheSound lru opts.orDefault W := by
  obtain ⟨r, W₀, hc, hplan, rfl, hrep, htidy⟩ :=
    (create_rep opts hd NoFail.nil (WAL.new opts)).returns rfl
  obtain ⟨W, hrun, ⟨cs, hgood, -⟩, -, hplan', htidy'⟩ := runOps_spec hlru ops hrep hl hplan
  refine ⟨W₀, _, W, hc, hrun, hgood.cacheSound hlru (htidy' htidy) hplan' ?_⟩
  refine Within.runOps hlru (one_le_cacheSize opts) ops ?_ hrun
  have hwithin := within_create opts ⟨WAL.new opts, d, []⟩
  rwa [hc] at hwithin

/-- Four segments, and a cache of one. -/
theorem cache_sound_lruSet : ∃ W₀ rs W, create ⟨1, 1⟩ ⟨WAL.new ⟨1, 1⟩, ∅, []⟩ = (.ok (), W₀)
    ∧ runOps lruSet [.append ⟨[7], by decide⟩, .append ⟨[8, 9], by decide⟩,
      .append ⟨[], by decide⟩, .read 1, .truncateFront 2, .read 2, .truncateBack 2] W₀
        = some (rs, W)
    ∧ CacheSound lruSet ⟨1, 1⟩ W :=
  cache_sound lruSet_lawful ⟨1, 1⟩ recovers_empty Log.empty_wf _

end Sound

end Rhosus.Wal

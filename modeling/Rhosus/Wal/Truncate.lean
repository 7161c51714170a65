import Rhosus.Wal.Recover

/-!
# Truncating the log

A truncation writes what is left of the segment it cuts to the temporary file, gives that its
`.START` or `.END` name, and from then on the truncated log is the one to recover: it removes the
files that go and gives the segment its plain name. Before that name the log is the old one.
-/

namespace Rhosus.Wal

variable {lru : SetEvicted ℕ Ptr} {W : World Name WAL} {first : ℕ} {cs : List Chunk}
variable {Q : Except Err Unit → World Name WAL → Prop} {C : Dir Name → Prop}

/-- The open log is `l`. -/
def Rep (W : World Name WAL) (l : Log) : Prop := ∃ cs, Good W l.first cs ∧ records cs = l.entries

/-- The log `l` can be recovered from `d`. -/
def Recovers (d : Dir Name) (l : Log) : Prop :=
  ∃ cs, Layout l.first cs ∧ records cs = l.entries ∧ Recov d cs

theorem Clean.recovers {d : Dir Name} {l : Log} (h : Clean d l)
    (hb : l.first + l.entries.length < 2 ^ 64) : Recovers d l := by
  obtain ⟨cs, hl, hrecs, hd⟩ := h
  exact ⟨cs, hl, hrecs, _, hd, hl.listed (hl.bound (hrecs ▸ hb)), .clean cs⟩

theorem Segs.paths {w : WAL} {n : ℕ} (h : Segs w cs n) :
    List.Forall₂ (fun p o => (w.heap p).path = o.1.name) w.segments (segFiles cs) := by
  rw [segFiles, List.forall₂_map_right_iff, List.forall₂_iff_get]
  refine ⟨h.length, fun k hk hk' => ?_⟩
  exact (h.seg k _ _ (List.getElem?_eq_getElem hk) (List.getElem?_eq_getElem hk')).path

theorem segFiles_nodup {first : ℕ} (hl : Layout first cs) : ((segFiles cs).map Prod.fst).Nodup := by
  rw [segFiles, List.map_map, List.nodup_iff_pairwise_ne, List.pairwise_map]
  exact hl.pairwise.imp fun h he => h.ne (by simpa [segFile] using he)

theorem writeTemp_ends {fs : List (FileName × Bytes)} {b : Bytes} (hplan : NoFail W.plan)
    (hd : Holds W.dir fs) (hfs : ∀ x ∈ fs, x.1 ≠ .temp) (hC : ∀ d, Holds d fs → C d)
    (hQ : ∀ d pl, Holds d fs → d.lookup tempName = some b → NoFail pl → Q (.ok ()) ⟨W.mem, d, pl⟩) :
    Ends (writeTemp b) W Q C := by
  have h1 := hd.temp_insert hfs []
  have h2 := h1.temp_insert hfs b
  refine .ignoreErr (.bind (.fileOp hplan rfl (hC _ hd) fun pl hpl => ?_))
  refine .bind (.fileOp hpl (a := ())
    (d := (W.dir.insert tempName []).insert tempName b) ?_ (hC _ h1)
    fun pl hpl => .bind (.touch hpl (hC _ h2) fun pl hpl => .touch hpl (hC _ h2) fun pl hpl => ?_))
  · simp
  · exact hQ _ pl h2 (AList.lookup_insert _) hpl

/-- A truncation once its segment is in memory: what is left of it is written to the temporary file
and gets the name `n`, and `m` finishes. -/
def swap (ebuf : Bytes) (n : Name) (m : WalM Unit) : WalM Unit := do
  writeTemp ebuf
  Prog.rename .io tempName n
  m

theorem swap_ends {fs : List (FileName × Bytes)} {b : Bytes} {n : Name} {m : WalM Unit}
    (hplan : NoFail W.plan) (hd : Holds W.dir fs) (hfs : ∀ x ∈ fs, x.1 ≠ .temp)
    (hC : ∀ d, Holds d fs → C d)
    (hm : ∀ d pl, Holds d fs → NoFail pl →
      Ends m ⟨W.mem, (d.erase tempName).insert n b, pl⟩ Q C) : Ends (swap b n m) W Q C := by
  refine .bind (writeTemp_ends hplan hd hfs hC fun d pl hd htemp hpl => ?_)
  exact .bind (.fileOp hpl (by rw [htemp]; rfl) (hC d hd) fun pl hpl => hm d pl hd hpl)

/-- The files `os` go, and then a file of the rest gets another name. -/
theorem replaceFiles_trace {ps : List Ptr} {os rest : List (FileName × Bytes)} {f : FileName}
    {b : Bytes} {n : Name}
    (hps : List.Forall₂ (fun p o => (W.mem.heap p).path = o.1.name) ps os)
    (hd : Holds W.dir (os ++ rest)) (hnd : ((os ++ rest).map Prod.fst).Nodup)
    (hf : (f, b) ∈ rest) :
    ∃ qs d, Trace (replaceFiles ps f.name n) W qs (.ok ())
        ⟨W.mem, (d.erase f.name).insert n b, W.plan⟩
      ∧ Holds d rest ∧ qs.length = os.length + 1 ∧ ∀ {j : ℕ} {pt : Point Name WAL},
        qs[j]? = some pt → pt = .clean W.mem pt.dir ∧ Holds pt.dir (os.drop j ++ rest) := by
  obtain ⟨qs, d, htr, hend, hlen, hpts⟩ := removeAll_trace rest hps hd hnd
  have hrename : Trace (Prog.rename Err.io f.name n) (⟨W.mem, d, W.plan⟩ : World Name WAL)
      [.clean W.mem d] (.ok ()) ⟨W.mem, (d.erase f.name).insert n b, W.plan⟩ :=
    .fileOp (by rw [hend.has f b hf]; rfl)
  refine ⟨qs ++ [.clean W.mem d], d, htr.bind hrename, hend, by simp [hlen], fun {j pt} hj => ?_⟩
  by_cases hlt : j < qs.length
  · rw [List.getElem?_append_left hlt] at hj
    exact hpts hj
  · rw [List.getElem?_append_right (not_lt.mp hlt), List.getElem?_singleton] at hj
    split_ifs at hj
    cases hj
    rw [List.drop_of_length_le (by omega)]
    exact ⟨rfl, hend⟩

theorem reopenTail_trace {n : Name} {b : Bytes} (hfile : W.dir.lookup n = some b) :
    Trace (reopenTail n b) W [.clean { W.mem with sfile := none } W.dir,
      .clean { W.mem with sfile := some n } W.dir] (.ok ())
      ⟨{ W.mem with sfile := some n }, W.dir, W.plan⟩ := by
  refine (openTail_trace hfile).bind_last ?_
  rw [if_neg (not_not.mpr rfl)]
  exact .pure

theorem segFiles_ne_temp : ∀ x ∈ segFiles cs, x.1 ≠ .temp := fun x hx he => by
  simpa [he, FileName.rank] using segFiles_own hx

section Front

/-- What is left of the chunk `c` from the index `i` on. -/
def Chunk.from (c : Chunk) (i : ℕ) : Chunk := ⟨i, c.recs.drop (i - c.index)⟩

variable {k i : ℕ} {p : Ptr} {c : Chunk}

theorem WAL.not_cached {w : WAL} {n : ℕ} (h : Segs w cs n) (hp : w.segments[k]? = some p)
    (hk : n ≤ k) : p ∉ w.scache.map Prod.snd := by
  intro hm
  obtain ⟨⟨k', p'⟩, hkp, rfl⟩ := List.mem_map.mp hm
  obtain ⟨hp', hk'⟩ := h.cached k' p' hkp
  have := h.inj hp hp'
  omega

/-- The segments once the log starts in the segment at `k`: that one's buffer is dropped with the
cache, unless it is the tail and holds what is left. -/
theorem Segs.dropFront {w : WAL} (h : Segs w cs (cs.length - 1)) (hc : cs[k]? = some c)
    (hp : w.segments[k]? = some p) {s : Segment} (hpath : s.path = segmentName i)
    (hindex : s.index = i)
    (hcase : k + 1 = cs.length ∧ Loaded s (c.from i) ∨ (k, p) ∈ w.scache) :
    Segs { w.clearCache.store p (if p ∈ w.scache.map Prod.snd then s.dropBuffer else s) with
      segments := w.segments.drop k } (c.from i :: cs.drop (k + 1)) (cs.length - 1 - k) := by
  have hclear := h.clearCache
  have hcache : w.clearCache.scache = [] := by rw [WAL.clearCache_eq]
  have hsegs := w.clearCache_segments
  have hk := (List.getElem?_eq_some_iff.mp hc).1
  have hheld : Held (if p ∈ w.scache.map Prod.snd then s.dropBuffer else s) (c.from i)
      (cs.length - 1 ≤ k) := by
    rcases hcase with ⟨hlast, hload⟩ | hmem
    · rw [if_neg (WAL.not_cached h hp (by omega))]
      exact ⟨hpath, hindex, .inl hload⟩
    · have hlt := (h.cached k p hmem).2
      rw [if_pos (List.mem_map.mpr ⟨(k, p), hmem, rfl⟩)]
      exact ⟨hpath, hindex, .inr ⟨by omega, rfl, rfl⟩⟩
  have hset := (hclear.set (hsegs ▸ hp) hheld).dropSegments hcache k
  have hdrop : (cs.set k (c.from i)).drop k = c.from i :: cs.drop (k + 1) := by
    rw [List.set_eq_take_append_cons_drop, if_pos hk, List.drop_left' (by simp; omega)]
  rw [hdrop] at hset
  rw [← hsegs]
  exact hset

/-- The files once the truncated segment has its `.START` name. -/
def frontFiles (cs : List Chunk) (k : ℕ) (c : Chunk) : List (FileName × Bytes) :=
  segFiles (cs.take (k + 1)) ++ (.start c.index, encode c.recs) :: segFiles (cs.drop (k + 1))

theorem frontFiles_listed (hl : Layout first cs) (hb : first + (records cs).length < 2 ^ 64)
    (hc : cs[k]? = some c) (h1 : c.index ≤ i) (h2 : i < c.index + c.recs.length) :
    Listed (frontFiles cs k (c.from i)) := by
  have hall := hl.listed (hl.bound hb)
  have hfirst := hl.first_le hc
  have hpos := hl.pos
  have hbi : i < 2 ^ 64 := by
    have := hl.stop_le_total hc
    omega
  have hmem : ∀ f ∈ frontFiles cs k (c.from i), f = (.start i, encode (c.from i).recs)
      ∨ f ∈ segFiles cs := by
    intro f hf
    have hcs : segFiles cs = segFiles (cs.take (k + 1)) ++ segFiles (cs.drop (k + 1)) := by
      rw [← segFiles_append, List.take_append_drop]
    rw [hcs, List.mem_append]
    simp only [frontFiles, List.mem_append, List.mem_cons] at hf
    exact or_left_comm.mp hf
  refine ⟨?_, fun f hf => ?_, fun f hf => ?_, fun f hf => ?_⟩
  · refine List.pairwise_append.mpr ⟨?_, List.pairwise_cons.mpr ⟨?_, ?_⟩, ?_⟩
    · exact hall.sorted.sublist ((List.take_sublist _ _).map _)
    · refine List.forall_mem_map.mpr fun b hb => .inl ?_
      exact lt_of_lt_of_le h2 (hl.stop_le_of_drop hc hb)
    · exact hall.sorted.sublist ((List.drop_sublist _ _).map _)
    · -- a file before the `.START` one may have its index, but not its suffix
      refine List.forall_mem_map.mpr fun a ha f hf => ?_
      have hai : a.index ≤ i := by
        rw [List.take_add_one, hc, List.mem_append] at ha
        rcases ha with ha | ha
        · exact (hl.index_lt_of_take hc ha).le.trans h1
        · simp only [Option.toList_some, List.mem_singleton] at ha
          rwa [ha]
      rcases List.mem_cons.mp hf with rfl | hf
      · exact hai.lt_or_eq.imp_right fun he => ⟨he, by simp [segFile, FileName.rank]⟩
      · obtain ⟨b, hb, rfl⟩ := List.mem_map.mp hf
        exact .inl (hai.trans_lt (lt_of_lt_of_le h2 (hl.stop_le_of_drop hc hb)))
  · rcases hmem f hf with rfl | hf
    · simp
    · exact hall.own f hf
  · rcases hmem f hf with rfl | hf
    · change i ≠ 0
      omega
    · exact hall.pos f hf
  · rcases hmem f hf with rfl | hf
    · exact hbi
    · exact hall.bound f hf

theorem frontFiles_nodup (hl : Layout first cs) : 
    ((frontFiles cs k (c.from i)).map Prod.fst).Nodup := by
  have hperm : (frontFiles cs k (c.from i)).Perm
      ((.start i, encode (c.from i).recs) :: segFiles cs) := by
    refine List.perm_middle.trans ?_
    rw [← segFiles_append, List.take_append_drop]
    exact .refl _
  refine (hperm.map _).nodup_iff.mpr (List.nodup_cons.mpr ⟨fun hm => ?_, segFiles_nodup hl⟩)
  obtain ⟨x, hx, he⟩ := List.mem_map.mp hm
  simpa [he, FileName.rank] using segFiles_own hx

theorem Mem.dropFront {w : WAL} (h : Mem w first cs) (hl : Layout first cs) (hc : cs[k]? = some c)
    (h1 : c.index ≤ i) (h2 : i < c.index + c.recs.length) (hp : w.segments[k]? = some p)
    {s : Segment} (hpath : s.path = segmentName i) (hindex : s.index = i) {sf : Option Name}
    (hcase : k + 1 = cs.length ∧ Loaded s (c.from i) ∧ sf = some (segmentName i)
      ∨ (k, p) ∈ w.scache ∧ sf = w.sfile) :
    Mem (WAL.clearCache { w.store p s with
      segments := w.segments.drop k
      firstIndex := i
      sfile := sf }) i (c.from i :: cs.drop (k + 1)) := by
  have hk := (List.getElem?_eq_some_iff.mp hc).1
  have hfirst := hl.first_le hc
  have hlen : (c.from i :: cs.drop (k + 1)).length - 1 = cs.length - 1 - k := by
    rw [List.length_cons, List.length_drop]
    omega
  have heq : WAL.clearCache { w.store p s with
      segments := w.segments.drop k
      firstIndex := i
      sfile := sf } =
      { w.clearCache.store p (if p ∈ w.scache.map Prod.snd then s.dropBuffer else s) with
        segments := w.segments.drop k
        firstIndex := i
        sfile := sf } := by
    rw [← WAL.clearCache_store, WAL.clearCache_eq, WAL.clearCache_eq]
  have hsegs := h.segs.dropFront (i := i) hc hp hpath hindex
    (hcase.imp (fun hh => ⟨hh.1, hh.2.1⟩) fun hh => hh.1)
  have hrecs := congrArg List.length (hl.records_dropFront hc h1 h2)
  have hstop := hl.stop_le_total hc
  have hlast := h.lastIndex
  rw [List.length_drop] at hrecs
  rw [heq]
  refine ⟨?_, ?_, ?_, rfl, ?_, fun t ht => ?_⟩
  · rw [hlen]
    exact ⟨hsegs.length, hsegs.nodup, hsegs.fresh, hsegs.seg, hsegs.cached, hsegs.keys⟩
  · exact w.clearCache_corrupt.trans h.corrupt
  · exact w.clearCache_closed.trans h.closed
  · rw [WAL.clearCache_eq]
    change w.lastIndex + 1 =
      i + (records (⟨i, c.recs.drop (i - c.index)⟩ :: cs.drop (k + 1))).length
    omega
  · change sf = _
    rw [hlen] at ht
    rcases hcase with ⟨hk', -, hsf⟩ | ⟨hmem, hsf⟩
    · obtain rfl : c.from i = t := by simpa [show cs.length - 1 - k = 0 by omega] using ht
      exact hsf
    · have hlt := (h.segs.cached k p hmem).2
      obtain ⟨j, hj⟩ : ∃ j, cs.length - 1 - k = j + 1 := ⟨cs.length - 2 - k, by omega⟩
      rw [hj, List.getElem?_cons_succ, List.getElem?_drop,
        show k + 1 + j = cs.length - 1 by omega] at ht
      rw [hsf, h.sfile t ht]

/-- The cut clears the cache, and leaves nothing before the tail in memory. -/
theorem Tidy.dropFront {w : WAL} (h : Tidy w) (hnd : w.segments.Nodup)
    (hp : w.segments[k]? = some p) (s : Segment) (sf : Option Name)
    (hcase : k + 1 = w.segments.length ∨ (k, p) ∈ w.scache) :
    Tidy (WAL.clearCache { w.store p s with
      segments := w.segments.drop k
      firstIndex := i
      sfile := sf }) := by
  rw [WAL.clearCache_eq]
  intro j q hq hj hload
  change (w.segments.drop k)[j]? = some q at hq
  change j + 1 < (w.segments.drop k).length at hj
  change (if q ∈ w.scache.map Prod.snd then (Function.update w.heap p s q).dropBuffer
    else Function.update w.heap p s q).epos ≠ [] at hload
  rw [List.getElem?_drop] at hq
  rw [List.length_drop] at hj
  have hq' : q ∉ w.scache.map Prod.snd := fun hm => hload (by rw [if_pos hm]; rfl)
  have hqp : q ≠ p := by
    rintro rfl
    have hkj := (List.getElem?_inj (List.getElem?_eq_some_iff.mp hp).1 hnd).mp (hp.trans hq.symm)
    exact hq' (List.mem_map_of_mem (hcase.resolve_left (by omega)))
  rw [if_neg hq', Function.update_of_ne hqp] at hload
  exact absurd (List.mem_map_of_mem (h.cached hq (by omega) hload)) hq'

/-- Once the truncated segment has its `.START` name, the truncated log is the one to recover
whichever of the files to go are left. -/
theorem frontFiles_recov {d : Dir Name} {os : List (FileName × Bytes)} (hl : Layout first cs)
    (hb : first + (records cs).length < 2 ^ 64) (hc : cs[k]? = some c) (h1 : c.index ≤ i)
    (h2 : i < c.index + c.recs.length) (hos : os <:+ segFiles (cs.take (k + 1)))
    (hd : Holds d (os ++ (.start i, encode (c.from i).recs) :: segFiles (cs.drop (k + 1)))) :
    Recov d (c.from i :: cs.drop (k + 1)) := by
  refine ⟨_, hd, (frontFiles_listed hl hb hc h1 h2).sublist (hos.sublist.append_right _), ?_⟩
  obtain ⟨os, rfl⟩ := exists_plainFiles (segFiles_eq_plainFiles _ ▸ hos.sublist)
  exact .front os (c.from i) _

theorem dropFront_recov {d : Dir Name} (hl : Layout first cs)
    (hb : first + (records cs).length < 2 ^ 64) (hc : cs[k]? = some c) (h1 : c.index ≤ i)
    (h2 : i < c.index + c.recs.length) (hd : Holds d (segFiles (c.from i :: cs.drop (k + 1)))) :
    Recov d (c.from i :: cs.drop (k + 1)) := by
  have hl' : Layout i (c.from i :: cs.drop (k + 1)) := hl.dropFront hc h1 h2
  refine ⟨_, hd, hl'.listed (hl'.bound ?_), .clean _⟩
  have hrecs := congrArg List.length (hl.records_dropFront hc h1 h2)
  have hstop := hl.stop_le_total hc
  have hfirst := hl.first_le hc
  rw [List.length_drop] at hrecs
  change i + (records (⟨i, c.recs.drop (i - c.index)⟩ :: cs.drop (k + 1))).length < 2 ^ 64
  omega

def WAL.renamed (w : WAL) (p : Ptr) (i : ℕ) : WAL :=
  w.store p { w.heap p with path := segmentName i, index := i }

/-- Cutting the log before its tail: the files go, and the segment gets its name. It is not read
again, whatever its file holds. -/
theorem finishFront_inner {b b' : Bytes} (hl : Layout first cs) (hm : Mem W.mem first cs)
    (hd : Holds W.dir
      (segFiles (cs.take (k + 1)) ++ (.start i, b') :: segFiles (cs.drop (k + 1))))
    (hk : k + 1 ≠ cs.length) :
    ∃ qs d, Trace (finishFront i k p b) W qs (.ok ())
        ⟨WAL.clearCache { W.mem.renamed p i with
          segments := W.mem.segments.drop k
          firstIndex := i }, (d.erase (startName i)).insert (segmentName i) b', W.plan⟩
      ∧ Holds d ((.start i, b') :: segFiles (cs.drop (k + 1)))
      ∧ qs.length = (cs.take (k + 1)).length + 1
      ∧ ∀ {j : ℕ} {pt : Point Name WAL}, qs[j]? = some pt → pt = .clean W.mem pt.dir
        ∧ Holds pt.dir ((segFiles (cs.take (k + 1))).drop j
          ++ (.start i, b') :: segFiles (cs.drop (k + 1))) := by
  have hps := List.forall₂_take (k + 1) hm.segs.paths
  rw [segFiles, ← List.map_take] at hps
  have hnd : ((segFiles (cs.take (k + 1)) ++ (.start i, b') :: segFiles (cs.drop (k + 1))).map
      Prod.fst).Nodup := by
    have := frontFiles_nodup (k := k) (c := ⟨0, []⟩) (i := i) hl
    simpa [frontFiles, Chunk.from] using this
  obtain ⟨qs, d, htr, hend, hlen, hpts⟩ :=
    replaceFiles_trace (n := segmentName i) hps hd hnd List.mem_cons_self
  refine ⟨qs, d, .recovering (o := .ok ()) (.getMem ?_) (by simp) fun _ => rfl, hend,
    by simpa [segFiles] using hlen, hpts⟩
  rw [← hm.segs.length] at hk
  dsimp only
  rw [if_neg hk, if_neg hk]
  exact htr.bind_last (.modifyMem (.modifyMem ⟨by simp, fun _ => rfl⟩))

/-- Cutting the log in its tail, which is closed first and opened again from its new file. -/
theorem finishFront_tail (hl : Layout first cs) (hm : Mem W.mem first cs)
    (hc : cs[k]? = some c) (h1 : c.index ≤ i) (h2 : i < c.index + c.recs.length)
    (hd : Holds W.dir (frontFiles cs k (c.from i))) (hk : k + 1 = cs.length) :
    ∃ qs d, Trace (finishFront i k p (encode (c.from i).recs)) W qs (.ok ())
        ⟨WAL.clearCache { W.mem.store p ⟨segmentName i, i, encode (c.from i).recs,
            positions (c.from i).recs⟩ with
          segments := W.mem.segments.drop k
          firstIndex := i
          sfile := some (segmentName i) }, d, W.plan⟩
      ∧ Holds d (segFiles (c.from i :: cs.drop (k + 1)))
      ∧ ∀ pt ∈ qs, (∃ j, pt = .clean { W.mem with sfile := none } pt.dir
          ∧ Holds pt.dir ((segFiles (cs.take (k + 1))).drop j
            ++ (.start i, encode (c.from i).recs) :: segFiles (cs.drop (k + 1))))
        ∨ ∃ sf, pt = .clean { W.mem.renamed p i with sfile := sf } pt.dir
          ∧ Holds pt.dir (segFiles (c.from i :: cs.drop (k + 1)))
          ∧ (sf = none ∨ sf = some (segmentName i)) := by
  have hl' : Layout i (c.from i :: cs.drop (k + 1)) := hl.dropFront hc h1 h2
  have hlater : ∀ r ∈ cs.drop (k + 1), r.index ≠ i := fun r hr =>
    (lt_of_lt_of_le h2 (hl.stop_le_of_drop hc hr)).ne'
  have hps := List.forall₂_take (k + 1) hm.segs.paths
  rw [segFiles, ← List.map_take] at hps
  obtain ⟨t, ht, -⟩ := hl.getLast
  have hclose := closeTail_trace (hm.sfile t ht)
  obtain ⟨qs, d, hreplace, hstart, hlen, hpts⟩ := replaceFiles_trace (n := segmentName i)
    (W := ⟨{ W.mem with sfile := none }, W.dir, W.plan⟩) hps hd (frontFiles_nodup hl)
    List.mem_cons_self
  have hend := hstart.finish_front hlater
  set d' := (d.erase (startName i)).insert (segmentName i) (encode (c.from i).recs)
  have hfile : d'.lookup (segmentName i) = some (encode (c.from i).recs) :=
    hend.has (.seg i) _ List.mem_cons_self
  -- the tail's object, with its new name and then with its new entries
  set w₁ : WAL := { W.mem.renamed p i with sfile := some (segmentName i) }
  set w₂ : WAL := { W.mem.store p ⟨segmentName i, i, encode (c.from i).recs,
    positions (c.from i).recs⟩ with sfile := some (segmentName i) }
  have hself : w₁.heap p = { W.mem.heap p with path := segmentName i, index := i } :=
    Function.update_self ..
  have hstore : w₁.store p { w₁.heap p with
      ebuf := encode (c.from i).recs
      epos := positions (c.from i).recs } = w₂ := by
    rw [hself]
    simp only [w₁, w₂, WAL.renamed, WAL.store, Function.update_idem]
  have hopen : Trace (reopenTail (segmentName i) (encode (c.from i).recs))
      ⟨{ W.mem.renamed p i with sfile := none }, d', W.plan⟩
      [.clean { W.mem.renamed p i with sfile := none } d', .clean w₁ d'] (.ok ())
      ⟨w₁, d', W.plan⟩ := reopenTail_trace hfile
  have hload := loadSegmentEntries_trace (p := p) (W := ⟨w₁, d', W.plan⟩)
    (by rw [hself]; exact hfile) (hl'.fits _ List.mem_cons_self)
  rw [hstore] at hload
  refine ⟨.clean { W.mem with sfile := none } W.dir :: (qs ++
    [.clean { W.mem.renamed p i with sfile := none } d', .clean w₁ d', .clean w₁ d']), d',
    .recovering (o := .ok ()) (.getMem ?_) (by simp) fun _ => rfl, hend, fun pt hpt => ?_⟩
  · rw [← hm.segs.length] at hk
    dsimp only
    rw [if_pos hk, if_pos hk]
    refine .bind_one hclose (.bind hreplace (.modifyMem (.bind hopen (hload.bind_last ?_))))
    exact .modifyMem ⟨by simp, fun q => rfl⟩
  · simp only [List.mem_cons, List.mem_append, List.not_mem_nil, or_false] at hpt
    rcases hpt with rfl | hpt | rfl | rfl | rfl
    · exact .inl ⟨0, rfl, hd⟩
    · obtain ⟨j, hj⟩ := List.getElem?_of_mem hpt
      exact .inl ⟨j, hpts hj⟩
    · exact .inr ⟨none, rfl, hend, .inl rfl⟩
    all_goals exact .inr ⟨_, rfl, hend, .inr rfl⟩

/-- From the `.START` name on, the log to recover is the truncated one. -/
theorem finishFront_spec (hl : Layout first cs) (hm : Mem W.mem first cs) (hplan : NoFail W.plan)
    (hc : cs[k]? = some c) (h1 : c.index ≤ i) (h2 : i < c.index + c.recs.length)
    (hd : Holds W.dir (frontFiles cs k (c.from i))) (hp : W.mem.segments[k]? = some p)
    (hcase : k + 1 = cs.length ∨ (k, p) ∈ W.mem.scache) :
    Ends (finishFront i k p (encode (c.from i).recs)) W
      (fun r W' => r = .ok () ∧ Good W' i (c.from i :: cs.drop (k + 1))
        ∧ (Tidy W.mem → Tidy W'.mem))
      (fun d => first + (records cs).length < 2 ^ 64 → Recov d (c.from i :: cs.drop (k + 1))) := by
  have hl' : Layout i (c.from i :: cs.drop (k + 1)) := hl.dropFront hc h1 h2
  by_cases htail : k + 1 = cs.length
  · obtain ⟨qs, d, htr, hend, hpts⟩ := finishFront_tail hl hm hc h1 h2 hd htail
    refine htr.ends (r := .ok ()) hplan (fun pt hpt hb => ?_)
      fun pl hpl => ⟨rfl, ⟨hl', ?_, hend, hpl⟩, fun ht => ?_⟩
    · rcases hpts pt hpt with ⟨j, -, hd'⟩ | ⟨sf, -, hd', -⟩
      · exact frontFiles_recov hl hb hc h1 h2 (List.drop_suffix j _) hd'
      · exact dropFront_recov hl hb hc h1 h2 hd'
    · exact hm.dropFront hl hc h1 h2 hp rfl rfl (.inl ⟨htail, ⟨rfl, rfl⟩, rfl⟩)
    · exact ht.dropFront hm.segs.nodup hp _ _ (hm.segs.length ▸ hcase)
  · obtain ⟨qs, d, htr, hstart, -, hpts⟩ := finishFront_inner hl hm hd htail
    have hlater : ∀ r ∈ cs.drop (k + 1), r.index ≠ i := fun r hr =>
      (lt_of_lt_of_le h2 (hl.stop_le_of_drop hc hr)).ne'
    refine htr.ends (r := .ok ()) hplan (fun pt hpt hb => ?_)
      fun pl hpl => ⟨rfl, ⟨hl', ?_, hstart.finish_front hlater, hpl⟩, fun ht => ?_⟩
    · obtain ⟨j, hj⟩ := List.getElem?_of_mem hpt
      exact frontFiles_recov hl hb hc h1 h2 (List.drop_suffix j _) (hpts hj).2
    · exact hm.dropFront hl hc h1 h2 hp rfl rfl (.inr ⟨hcase.resolve_left htail, rfl⟩)
    · exact ht.dropFront hm.segs.nodup hp _ _ (hm.segs.length ▸ hcase)

/-- A file of its own beside those of the log, under the name that says how it was cut. -/
theorem Holds.startFile {d : Dir Name} (hd : Holds d (segFiles cs)) (k i : ℕ) (b : Bytes) :
    Holds ((d.erase tempName).insert (startName i) b)
      (segFiles (cs.take (k + 1)) ++ (.start i, b) :: segFiles (cs.drop (k + 1))) := by
  refine hd.rename_temp segFiles_ne_temp (f := .start i) (b := b) fun x => ?_
  have hstart : x ∈ segFiles cs → x.1 ≠ .start i := fun hx he => by
    simpa [he, FileName.rank] using segFiles_own hx
  have hcs : x ∈ segFiles cs ↔ x ∈ segFiles (cs.take (k + 1)) ∨ x ∈ segFiles (cs.drop (k + 1)) := by
    rw [← List.mem_append, ← segFiles_append, List.take_append_drop]
  rw [List.mem_append, List.mem_cons]
  grind

/-- The segment is loaded, and what is left of it swapped in. -/
theorem truncateFrontAt_leads (hlru : lru.Lawful) (h : Good W first cs) (hc : cs[k]? = some c)
    (h1 : c.index ≤ i) (h2 : i < c.index + c.recs.length) :
    ∃ ps p W', Fetched W first cs i k ps p W' ∧ Leads (truncateFrontAt lru i) W ps fun q =>
      swap (encode (c.from i).recs) (startName i)
        (finishFront i k p (encode (c.from i).recs)) { W' with plan := q } := by
  have hfind : W.mem.findSegment i = k := by
    refine h.mem.segs.findSegment h.layout hc h1 fun c' hc' => ?_
    exact lt_of_lt_of_le h2 (h.layout.stop_le hc hc' (Nat.lt_succ_self k))
  obtain ⟨ps, p, W', htr, hf, hload⟩ := h.loadSegment_trace hlru hc h1 h2
  refine ⟨ps, p, W', hf, .getMem ?_⟩
  have hs := hf.good.mem.segs.seg k p c hf.ptr hc
  have hsub : sub? i (W'.mem.heap p).index = some (i - c.index) := by
    rw [hs.index, sub?, if_pos h1]
  have hoff : i - c.index < c.recs.length := by omega
  have hpos : (sliceFrom? (W'.mem.heap p).epos (i - c.index)).bind List.head?
      = some ⟨(encode (c.recs.take (i - c.index))).length,
        (encode (c.recs.take (i - c.index + 1))).length⟩ := by
    rw [hload.2, sliceFrom?, length_positions, if_pos hoff.le, Option.bind_some, List.head?_drop,
      getElem?_positions hoff]
  have hbuf : sliceFrom? (W'.mem.heap p).ebuf (encode (c.recs.take (i - c.index))).length
      = some (encode (c.from i).recs) := by
    rw [hload.1, sliceFrom?_encode]
    rfl
  dsimp only
  rw [hfind]
  exact htr.leads (.getMem (.orPanic hsub (.orPanic hpos (.orPanic hbuf (.refl _ _)))))

theorem truncateFrontAt_spec (hlru : lru.Lawful) (h : Good W first cs) (hc : cs[k]? = some c)
    (h1 : c.index ≤ i) (h2 : i < c.index + c.recs.length) :
    Ends (truncateFrontAt lru i) W
      (fun r W' => r = .ok () ∧ Good W' i (c.from i :: cs.drop (k + 1))
        ∧ (Tidy W.mem → Tidy W'.mem))
      (fun d => Holds d (segFiles cs)
        ∨ (first + (records cs).length < 2 ^ 64 → Recov d (c.from i :: cs.drop (k + 1)))) := by
  obtain ⟨ps, p, W', hf, hleads⟩ := truncateFrontAt_leads hlru h hc h1 h2
  refine hleads.ends h.plan (fun pt hpt => .inl ?_) fun pl hpl => ?_
  · rw [hf.clean pt hpt]
    exact h.files
  · refine swap_ends hpl hf.good.files segFiles_ne_temp (fun d hd => .inl hd) fun d pl hd hpl => ?_
    refine .mono (finishFront_spec h.layout hf.good.mem hpl hc h1 h2 (hd.startFile k i _) hf.ptr
      hf.cached) (fun r W hr => ⟨hr.1, hr.2.1, fun ht => hr.2.2 (hf.tidy ht)⟩) fun d hd => .inr hd

theorem truncateFront_spec (hlru : lru.Lawful) {l : Log} (h : Rep W l) (i : ℕ) :
    Ends (truncateFront lru i) W
      (fun r W' => (if l.Has i then r = .ok () ∧ Rep W' (l.dropBefore i)
        else r = .error .outOfRange ∧ Rep W' l) ∧ (Tidy W.mem → Tidy W'.mem))
      (fun d => l.first + l.entries.length < 2 ^ 64 →
        Recovers d l ∨ l.Has i ∧ Recovers d (l.dropBefore i)) := by
  obtain ⟨first, entries⟩ := l
  obtain ⟨cs, h, hrecs⟩ := h
  simp only at h hrecs
  subst hrecs
  have hpos := h.layout.pos
  have hlast := h.mem.lastIndex
  have hhas := Log.has_iff (l := ⟨first, records cs⟩) (i := i)
  simp only at hhas
  refine guarded_ends h.mem.corrupt h.mem.closed (.bind (.getMem ?_))
  have hout : outOfRange W.mem i ↔ ¬ (Log.mk first (records cs)).Has i := by
    rw [hhas, outOfRange, h.mem.firstIndex]
    omega
  by_cases hi : (Log.mk first (records cs)).Has i
  · simp only [hout, hi, not_true_eq_false, ↓reduceIte]
    split_ifs with heq
    · refine .pure ⟨⟨rfl, cs, ?_, ?_⟩, id⟩
      · rw [heq, h.mem.firstIndex]
        exact h
      · rw [heq, h.mem.firstIndex]
        simp [Log.dropBefore]
    · obtain ⟨k, c, hc, h1, h2, -⟩ := h.layout.chunk_of (hhas.mp hi).1 (hhas.mp hi).2
      have hrecs := h.layout.records_dropFront hc h1 h2
      refine .mono (truncateFrontAt_spec hlru h hc h1 h2) ?_ ?_
      · rintro r W' ⟨rfl, hW', htidy⟩
        exact ⟨⟨rfl, _, hW', hrecs⟩, htidy⟩
      · rintro d (hd | hd) hb
        · exact .inl (Clean.recovers ⟨cs, h.layout, rfl, hd⟩ hb)
        · exact .inr ⟨trivial, _, h.layout.dropFront hc h1 h2, hrecs, hd hb⟩
  · simp only [hout, hi, not_false_eq_true, ↓reduceIte]
    exact .throw ⟨⟨rfl, cs, h, rfl⟩, id⟩

end Front

section Back

/-- What is left of the chunk `c` up to the index `i`. -/
def Chunk.upTo (c : Chunk) (i : ℕ) : Chunk := ⟨c.index, c.recs.take (i + 1 - c.index)⟩

variable {k i : ℕ} {p : Ptr} {c : Chunk}

/-- The segments once the log ends in the segment at `k`, which holds what is left. -/
theorem Segs.takeBack {w : WAL} {n : ℕ} (h : Segs w cs n) (hn : n ≤ cs.length)
    (hc : cs[k]? = some c) (hp : w.segments[k]? = some p) {s : Segment}
    (hpath : s.path = segmentName c.index) (hindex : s.index = c.index)
    (hload : Loaded s (c.upTo i)) :
    Segs { w.clearCache.store p s with segments := w.segments.take (k + 1) }
      (cs.take k ++ [c.upTo i]) k := by
  have hcache : w.clearCache.scache = [] := by rw [WAL.clearCache_eq]
  have hsegs := w.clearCache_segments
  have hk := (List.getElem?_eq_some_iff.mp hc).1
  have hset := (h.clearCache.mono hn).set (c := c.upTo i) (hsegs ▸ hp)
    ⟨hpath, hindex, .inl hload⟩
  have htake : (cs.set k (c.upTo i)).take (k + 1) = cs.take k ++ [c.upTo i] := by
    rw [List.set_eq_take_append_cons_drop, if_pos hk, List.take_append,
      List.take_of_length_le (by simp)]
    simp [hk.le]
  have hcut := hset.takeSegments hcache (k + 1)
  rw [htake] at hcut
  rw [← hsegs]
  refine hcut.sharpen (fun j q c' hj hq hc' => ?_) (by simp [WAL.store, hcache])
  obtain rfl : j = k := by
    have := (List.getElem?_eq_some_iff.mp hc').1
    simp only [List.length_append, List.length_take, List.length_singleton] at this
    omega
  have hq' : w.segments[j]? = some q := by
    rw [← hsegs, ← hq]
    exact (List.getElem?_take_of_lt (Nat.lt_succ_self j)).symm
  obtain rfl : p = q := Option.some.inj (hp.symm.trans hq')
  have hget : (cs.take j ++ [c.upTo i])[j]? = some (c.upTo i) := by
    rw [List.getElem?_append_right (by simp)]
    simp [hk.le]
  obtain rfl : c.upTo i = c' := Option.some.inj (hget.symm.trans hc')
  change Loaded (Function.update w.clearCache.heap p s p) _
  rw [Function.update_self]
  exact hload

/-- The files once the truncated segment has its `.END` name: `os` are still to go. -/
def backFiles (cs : List Chunk) (k : ℕ) (c : Chunk) (os : List (FileName × Bytes)) :
    List (FileName × Bytes) :=
  os ++ (segFiles (cs.take k) ++ [(.fin c.index, encode c.recs)])

theorem backFiles_nodup (hl : Layout first cs) :
    ((backFiles cs k (c.upTo i) (segFiles (cs.drop k))).map Prod.fst).Nodup := by
  have hperm : (backFiles cs k (c.upTo i) (segFiles (cs.drop k))).Perm
      ((.fin c.index, encode (c.upTo i).recs) :: segFiles cs) := by
    rw [backFiles, ← List.append_assoc]
    refine (List.perm_append_singleton _ _).trans (.cons _ ?_)
    refine List.perm_append_comm.trans ?_
    rw [← segFiles_append, List.take_append_drop]
  refine (hperm.map _).nodup_iff.mpr (List.nodup_cons.mpr ⟨fun hm => ?_, segFiles_nodup hl⟩)
  obtain ⟨x, hx, he⟩ := List.mem_map.mp hm
  simpa [he, FileName.rank] using segFiles_own hx

/-- Whichever of the files to go are left, the truncated log is the one to recover. -/
theorem backFiles_recov {d : Dir Name} {os : List (FileName × Bytes)} (hl : Layout first cs)
    (hb : first + (records cs).length < 2 ^ 64) (hc : cs[k]? = some c) (h1 : c.index ≤ i)
    (h2 : i < c.index + c.recs.length) (hos : os <:+ segFiles (cs.drop k))
    (hd : Holds d (backFiles cs k (c.upTo i) os)) : Recov d (cs.take k ++ [c.upTo i]) := by
  have hall := hl.listed (hl.bound hb)
  have hk := (List.getElem?_eq_some_iff.mp hc).1
  have hcs : segFiles cs = segFiles (cs.take k) ++ segFile c :: segFiles (cs.drop (k + 1)) := by
    conv_lhs => rw [split_at hc]
    rw [segFiles_append, segFiles_cons]
  have hdrop : segFiles (cs.drop k) = segFile c :: segFiles (cs.drop (k + 1)) := by
    rw [List.drop_eq_getElem_cons hk, segFiles_cons, (List.getElem?_eq_some_iff.mp hc).2]
  have hsorted := hall.sorted
  rw [hcs, List.pairwise_append, List.pairwise_cons] at hsorted
  obtain ⟨hs1, ⟨hs2, hs3⟩, hs4⟩ := hsorted
  -- all of them, in order
  have hlist : Listed (segFiles (cs.take k) ++ segFile c :: (.fin c.index, encode (c.upTo i).recs)
      :: segFiles (cs.drop (k + 1))) := by
    have hmem : ∀ f ∈ segFiles (cs.take k) ++ segFile c :: (.fin c.index, encode (c.upTo i).recs)
        :: segFiles (cs.drop (k + 1)), f = (.fin c.index, encode (c.upTo i).recs)
          ∨ f ∈ segFiles cs := by
      intro f hf
      rw [hcs]
      simp only [List.mem_append, List.mem_cons] at hf ⊢
      grind
    have hmc : segFile c ∈ segFiles cs := List.mem_map_of_mem (List.mem_of_getElem? hc)
    refine ⟨?_, fun f hf => ?_, fun f hf => ?_, fun f hf => ?_⟩
    · refine List.pairwise_append.mpr ⟨hs1, List.pairwise_cons.mpr ⟨fun x hx => ?_,
        List.pairwise_cons.mpr ⟨?_, hs3⟩⟩, fun x hx y hy => ?_⟩
      · rcases List.mem_cons.mp hx with rfl | hx
        · exact .inr ⟨rfl, by simp [segFile, FileName.rank]⟩
        · exact hs2 x hx
      · refine List.forall_mem_map.mpr fun b hb => .inl ?_
        have hstop := hl.stop_le_of_drop hc hb
        change c.index < b.index
        omega
      · rcases List.mem_cons.mp hy with rfl | hy
        · exact hs4 x hx _ List.mem_cons_self
        · rcases List.mem_cons.mp hy with rfl | hy
          · obtain ⟨a, ha, rfl⟩ := List.mem_map.mp hx
            exact .inl (hl.index_lt_of_take hc ha)
          · exact hs4 x hx y (List.mem_cons_of_mem _ hy)
    · rcases hmem f hf with rfl | hf
      · simp
      · exact hall.own f hf
    · rcases hmem f hf with rfl | hf
      · exact hall.pos (segFile c) hmc
      · exact hall.pos f hf
    · rcases hmem f hf with rfl | hf
      · exact hall.bound (segFile c) hmc
      · exact hall.bound f hf
  rw [hdrop, List.suffix_cons_iff] at hos
  rcases hos with rfl | hos
  · refine ⟨_, hd.congr fun x => ?_, hlist, ?_⟩
    · simp only [backFiles, List.mem_append, List.mem_cons, List.not_mem_nil, Chunk.upTo]
      grind
    · have := Shape.back (cs.take k) (c.upTo i) [(c.index, encode c.recs)]
        ((cs.drop (k + 1)).map fun c => (c.index, encode c.recs)) (by simp [Chunk.upTo])
      rw [← segFiles_eq_plainFiles] at this
      exact this
  · obtain ⟨os', hos'⟩ := exists_plainFiles (segFiles_eq_plainFiles _ ▸ hos.sublist)
    refine ⟨_, hd.congr fun x => ?_, hlist.sublist ?_,
      .back (cs.take k) (c.upTo i) [] os' (by simp)⟩
    · rw [← hos']
      simp only [backFiles, plainFiles, List.map_nil, List.nil_append, List.mem_append,
        List.mem_cons, List.not_mem_nil]
      grind
    · rw [← hos']
      refine List.Sublist.append_left ?_ _
      exact (List.Sublist.cons_cons _ hos.sublist).trans (List.sublist_cons_self _ _)

theorem Mem.takeBack {w : WAL} (h : Mem w first cs) (hl : Layout first cs) (hc : cs[k]? = some c)
    (h1 : c.index ≤ i) (h2 : i < c.index + c.recs.length) (hp : w.segments[k]? = some p)
    {s : Segment} (hpath : s.path = segmentName c.index) (hindex : s.index = c.index)
    (hload : Loaded s (c.upTo i)) :
    Mem { w.clearCache.store p s with
      segments := w.segments.take (k + 1)
      lastIndex := i
      sfile := some (segmentName c.index) } first (cs.take k ++ [c.upTo i]) := by
  have hk := (List.getElem?_eq_some_iff.mp hc).1
  have hfirst := hl.first_le hc
  have hlen : (cs.take k ++ [c.upTo i]).length - 1 = k := by
    simp [hk.le]
  have hsegs := h.segs.takeBack (i := i) (by omega) hc hp hpath hindex hload
  have hrecs := congrArg List.length (hl.records_takeBack hc h1 h2)
  have hstop := hl.stop_le_total hc
  rw [List.length_take] at hrecs
  refine ⟨?_, ?_, ?_, ?_, ?_, fun t ht => ?_⟩
  · rw [hlen]
    exact ⟨hsegs.length, hsegs.nodup, hsegs.fresh, hsegs.seg, hsegs.cached, hsegs.keys⟩
  · exact w.clearCache_corrupt.trans h.corrupt
  · exact w.clearCache_closed.trans h.closed
  · rw [WAL.clearCache_eq]
    exact h.firstIndex
  · change i + 1 =
      first + (records (cs.take k ++ [⟨c.index, c.recs.take (i + 1 - c.index)⟩])).length
    omega
  · rw [hlen, List.getElem?_append_right (by simp)] at ht
    simp only [List.length_take, min_eq_left hk.le, Nat.sub_self, List.getElem?_cons_zero,
      Option.some.injEq] at ht
    rw [← ht]
    rfl

theorem Tidy.takeBack {w : WAL} (h : Tidy w) (hnd : w.segments.Nodup)
    (hp : w.segments[k]? = some p) (s : Segment) (sf : Option Name) :
    Tidy { w.clearCache.store p s with
      segments := w.segments.take (k + 1)
      lastIndex := i
      sfile := sf } := by
  intro j q hq hj hload
  change (w.segments.take (k + 1))[j]? = some q at hq
  change j + 1 < (w.segments.take (k + 1)).length at hj
  rw [List.length_take] at hj
  rw [List.getElem?_take_of_lt (by omega)] at hq
  have hqp : q ≠ p := by
    rintro rfl
    have := (List.getElem?_inj (List.getElem?_eq_some_iff.mp hp).1 hnd).mp (hp.trans hq.symm)
    omega
  change (Function.update w.clearCache.heap p s q).epos ≠ [] at hload
  rw [Function.update_of_ne hqp] at hload
  exact absurd (h.clearCache hq (by omega)) hload

/-- Loading a segment whose object was changed before the cache was cleared. -/
theorem reload_trace {w : WAL} {s : Segment} {ds : List Bytes} {d : Dir Name} {l : List Fault}
    (hfile : d.lookup s.path = some (encode ds)) (hfits : ∀ b ∈ ds, Fits b) :
    Trace (loadSegmentEntries p) ⟨(w.store p s).clearCache, d, l⟩
      [.clean (w.store p s).clearCache d] (.ok ()) ⟨w.clearCache.store p
        { s with ebuf := encode ds, epos := positions ds }, d, l⟩ := by
  obtain ⟨hpath, hindex⟩ := WAL.clearCache_heap (w.store p s) p
  have hself : (w.store p s).heap p = s := Function.update_self ..
  rw [hself] at hpath hindex
  have hload := loadSegmentEntries_trace (W := ⟨(w.store p s).clearCache, d, l⟩) (p := p)
    (by rw [← hfile, ← hpath]) hfits
  simp only [hpath, hindex] at hload
  rw [WAL.clearCache_store] at hload ⊢
  simpa [WAL.store] using hload

theorem takeBack_recov {d : Dir Name} (hl : Layout first cs)
    (hb : first + (records cs).length < 2 ^ 64) (hc : cs[k]? = some c) (h1 : c.index ≤ i)
    (h2 : i < c.index + c.recs.length) (hd : Holds d (segFiles (cs.take k ++ [c.upTo i]))) :
    Recov d (cs.take k ++ [c.upTo i]) := by
  have hl' : Layout first (cs.take k ++ [c.upTo i]) := hl.takeBack hc
  refine ⟨_, hd, hl'.listed (hl'.bound ?_), .clean _⟩
  have hrecs := congrArg List.length (hl.records_takeBack hc h1 h2)
  rw [List.length_take] at hrecs
  change
    first + (records (cs.take k ++ [⟨c.index, c.recs.take (i + 1 - c.index)⟩])).length < 2 ^ 64
  omega

/-- Cutting the log at the back: the tail is closed, the files go, and the segment gets its name
and is opened as the tail. -/
theorem finishBack_trace (hl : Layout first cs) (hm : Mem W.mem first cs) (hc : cs[k]? = some c)
    (hd : Holds W.dir (backFiles cs k (c.upTo i) (segFiles (cs.drop k))))
    (hp : W.mem.segments[k]? = some p) :
    ∃ qs d, Trace (finishBack i k p (encode (c.upTo i).recs)) W qs (.ok ())
        ⟨{ W.mem.clearCache.store p ⟨segmentName c.index, c.index, encode (c.upTo i).recs,
            positions (c.upTo i).recs⟩ with
          segments := W.mem.segments.take (k + 1)
          lastIndex := i
          sfile := some (segmentName c.index) }, d, W.plan⟩
      ∧ Holds d (segFiles (cs.take k ++ [c.upTo i]))
      ∧ ∀ pt ∈ qs, (∃ j, pt = .clean { W.mem with sfile := none } pt.dir
          ∧ Holds pt.dir (backFiles cs k (c.upTo i) ((segFiles (cs.drop k)).drop j)))
        ∨ pt = .clean pt.mem pt.dir ∧ Holds pt.dir (segFiles (cs.take k ++ [c.upTo i]))
          ∧ (pt.mem = { W.mem with sfile := none }
            ∨ pt.mem = { W.mem with sfile := some (segmentName c.index) }
            ∨ pt.mem = WAL.clearCache { W.mem.store p { W.mem.heap p with
                path := segmentName c.index } with
              segments := W.mem.segments.take (k + 1)
              lastIndex := i
              sfile := some (segmentName c.index) }) := by
  have hl' : Layout first (cs.take k ++ [c.upTo i]) := hl.takeBack hc
  have hindex := (hm.segs.seg k p c hp hc).index
  have hps := List.forall₂_drop k hm.segs.paths
  rw [segFiles, ← List.map_drop] at hps
  obtain ⟨t, ht, -⟩ := hl.getLast
  have hclose := closeTail_trace (hm.sfile t ht)
  obtain ⟨qs, d, hreplace, hfin, -, hpts⟩ := replaceFiles_trace (n := segmentName c.index)
    (W := ⟨{ W.mem with sfile := none }, W.dir, W.plan⟩) (f := .fin c.index)
    (b := encode (c.upTo i).recs) hps hd (backFiles_nodup hl)
    (List.mem_append_right _ (List.mem_singleton_self _))
  have hend := Holds.finish_back (fun a ha => hl.index_lt_of_take hc ha) [] (by simp) hfin
  set d' := (d.erase (endName c.index)).insert (segmentName c.index) (encode (c.upTo i).recs)
  have hfile : d'.lookup (segmentName c.index) = some (encode (c.upTo i).recs) :=
    hend.has (.seg c.index) _ (List.mem_append_right _ (List.mem_singleton_self _))
  have hopen : Trace (reopenTail (segmentName c.index) (encode (c.upTo i).recs))
      ⟨{ W.mem with sfile := none }, d', W.plan⟩
      [.clean { W.mem with sfile := none } d',
        .clean { W.mem with sfile := some (segmentName c.index) } d'] (.ok ())
      ⟨{ W.mem with sfile := some (segmentName c.index) }, d', W.plan⟩ := reopenTail_trace hfile
  set w₁ : WAL := { W.mem with
    segments := W.mem.segments.take (k + 1)
    lastIndex := i
    sfile := some (segmentName c.index) }
  set s₁ : Segment := { W.mem.heap p with path := segmentName c.index }
  have hload := reload_trace (w := w₁) (p := p) (s := s₁) (l := W.plan) hfile
    (hl'.fits (c.upTo i) (List.mem_append_right _ (List.mem_singleton_self _)))
  have hfinal : w₁.clearCache.store p { s₁ with
      ebuf := encode (c.upTo i).recs
      epos := positions (c.upTo i).recs } =
      { W.mem.clearCache.store p ⟨segmentName c.index, c.index, encode (c.upTo i).recs,
          positions (c.upTo i).recs⟩ with
        segments := W.mem.segments.take (k + 1)
        lastIndex := i
        sfile := some (segmentName c.index) } := by
    dsimp only [s₁]
    rw [hindex, WAL.clearCache_eq, WAL.clearCache_eq]
    rfl
  rw [hfinal] at hload
  have hend' : Holds d' (segFiles (cs.take k ++ [c.upTo i])) := by
    rw [segFiles_append]
    exact hend
  refine ⟨.clean { W.mem with sfile := none } W.dir :: (qs ++
    [.clean { W.mem with sfile := none } d',
      .clean { W.mem with sfile := some (segmentName c.index) } d',
      .clean (w₁.store p s₁).clearCache d']), d',
    .recovering (o := .ok ()) (.bind_one hclose (.getMem ?_)) (by simp) fun _ => rfl, hend',
    fun pt hpt => ?_⟩
  · dsimp only
    rw [hindex]
    refine .bind hreplace (.bind hopen (.modifyMem (.modifyMem (.modifyMem ?_))))
    exact hload
  · simp only [List.mem_cons, List.mem_append, List.not_mem_nil, or_false] at hpt
    rcases hpt with rfl | hpt | rfl | rfl | rfl
    · exact .inl ⟨0, rfl, hd⟩
    · obtain ⟨j, hj⟩ := List.getElem?_of_mem hpt
      exact .inl ⟨j, hpts hj⟩
    · exact .inr ⟨rfl, hend', .inl rfl⟩
    · exact .inr ⟨rfl, hend', .inr (.inl rfl)⟩
    · exact .inr ⟨rfl, hend', .inr (.inr rfl)⟩

theorem finishBack_spec (hl : Layout first cs) (hm : Mem W.mem first cs) (hplan : NoFail W.plan)
    (hc : cs[k]? = some c) (h1 : c.index ≤ i) (h2 : i < c.index + c.recs.length)
    (hd : Holds W.dir (backFiles cs k (c.upTo i) (segFiles (cs.drop k))))
    (hp : W.mem.segments[k]? = some p) :
    Ends (finishBack i k p (encode (c.upTo i).recs)) W
      (fun r W' => r = .ok () ∧ Good W' first (cs.take k ++ [c.upTo i])
        ∧ (Tidy W.mem → Tidy W'.mem))
      (fun d => first + (records cs).length < 2 ^ 64 → Recov d (cs.take k ++ [c.upTo i])) := by
  obtain ⟨qs, d, htr, hend, hpts⟩ := finishBack_trace hl hm hc hd hp
  refine htr.ends (r := .ok ()) hplan (fun pt hpt hb => ?_) fun pl hpl =>
    ⟨rfl, ⟨hl.takeBack hc, hm.takeBack hl hc h1 h2 hp rfl rfl ⟨rfl, rfl⟩, hend, hpl⟩,
      fun ht => ht.takeBack hm.segs.nodup hp _ _⟩
  rcases hpts pt hpt with ⟨j, -, hd'⟩ | ⟨-, hd', -⟩
  · exact backFiles_recov hl hb hc h1 h2 (List.drop_suffix j _) hd'
  · exact takeBack_recov hl hb hc h1 h2 hd'

theorem Holds.endFile {d : Dir Name} (hd : Holds d (segFiles cs)) (k n : ℕ) (b : Bytes) :
    Holds ((d.erase tempName).insert (endName n) b)
      (segFiles (cs.drop k) ++ (segFiles (cs.take k) ++ [(.fin n, b)])) := by
  refine hd.rename_temp segFiles_ne_temp (f := .fin n) (b := b) fun x => ?_
  have hfin : x ∈ segFiles cs → x.1 ≠ .fin n := fun hx he => by
    simpa [he, FileName.rank] using segFiles_own hx
  have hcs : x ∈ segFiles cs ↔ x ∈ segFiles (cs.take k) ∨ x ∈ segFiles (cs.drop k) := by
    rw [← List.mem_append, ← segFiles_append, List.take_append_drop]
  rw [List.mem_append, List.mem_append, List.mem_singleton]
  grind

theorem truncateBackAt_leads (hlru : lru.Lawful) (h : Good W first cs) (hc : cs[k]? = some c)
    (h1 : c.index ≤ i) (h2 : i < c.index + c.recs.length) :
    ∃ ps p W', Fetched W first cs i k ps p W' ∧ Leads (truncateBackAt lru i) W ps fun q =>
      swap (encode (c.upTo i).recs) (endName c.index)
        (finishBack i k p (encode (c.upTo i).recs)) { W' with plan := q } := by
  have hfind : W.mem.findSegment i = k := by
    refine h.mem.segs.findSegment h.layout hc h1 fun c' hc' => ?_
    exact lt_of_lt_of_le h2 (h.layout.stop_le hc hc' (Nat.lt_succ_self k))
  obtain ⟨ps, p, W', htr, hf, hload⟩ := h.loadSegment_trace hlru hc h1 h2
  refine ⟨ps, p, W', hf, .getMem ?_⟩
  have hs := hf.good.mem.segs.seg k p c hf.ptr hc
  have hsub : sub? i (W'.mem.heap p).index = some (i - c.index) := by
    rw [hs.index, sub?, if_pos h1]
  have hoff : i - c.index < c.recs.length := by omega
  have hpos : (sliceTo? (W'.mem.heap p).epos (i - c.index + 1)).bind List.getLast?
      = some ⟨(encode (c.recs.take (i - c.index))).length,
        (encode (c.recs.take (i - c.index + 1))).length⟩ := by
    rw [hload.2, sliceTo?, length_positions, if_pos (by omega), Option.bind_some,
      List.take_add_one, getElem?_positions hoff, Option.toList_some, List.getLast?_concat]
  have hbuf : sliceTo? (W'.mem.heap p).ebuf (encode (c.recs.take (i - c.index + 1))).length
      = some (encode (c.upTo i).recs) := by
    rw [hload.1, sliceTo?_encode, Chunk.upTo, Nat.succ_sub h1]
  dsimp only
  rw [hfind]
  refine htr.leads (.getMem (.orPanic hsub (.orPanic hpos (.orPanic hbuf ?_))))
  rw [hs.index]
  exact .refl _ _

theorem truncateBackAt_spec (hlru : lru.Lawful) (h : Good W first cs) (hc : cs[k]? = some c)
    (h1 : c.index ≤ i) (h2 : i < c.index + c.recs.length) :
    Ends (truncateBackAt lru i) W
      (fun r W' => r = .ok () ∧ Good W' first (cs.take k ++ [c.upTo i])
        ∧ (Tidy W.mem → Tidy W'.mem))
      (fun d => Holds d (segFiles cs)
        ∨ (first + (records cs).length < 2 ^ 64 → Recov d (cs.take k ++ [c.upTo i]))) := by
  obtain ⟨ps, p, W', hf, hleads⟩ := truncateBackAt_leads hlru h hc h1 h2
  refine hleads.ends h.plan (fun pt hpt => .inl ?_) fun pl hpl => ?_
  · rw [hf.clean pt hpt]
    exact h.files
  · refine swap_ends hpl hf.good.files segFiles_ne_temp (fun d hd => .inl hd) fun d pl hd hpl => ?_
    refine .mono (finishBack_spec h.layout hf.good.mem hpl hc h1 h2 (hd.endFile k c.index _) hf.ptr)
      (fun r W hr => ⟨hr.1, hr.2.1, fun ht => hr.2.2 (hf.tidy ht)⟩) fun d hd => .inr hd

theorem truncateBack_spec (hlru : lru.Lawful) {l : Log} (h : Rep W l) (i : ℕ) :
    Ends (truncateBack lru i) W
      (fun r W' => (if l.Has i then r = .ok () ∧ Rep W' (l.dropAfter i)
        else r = .error .outOfRange ∧ Rep W' l) ∧ (Tidy W.mem → Tidy W'.mem))
      (fun d => l.first + l.entries.length < 2 ^ 64 →
        Recovers d l ∨ l.Has i ∧ Recovers d (l.dropAfter i)) := by
  obtain ⟨first, entries⟩ := l
  obtain ⟨cs, h, hrecs⟩ := h
  simp only at h hrecs
  subst hrecs
  have hpos := h.layout.pos
  have hlast := h.mem.lastIndex
  have hhas := Log.has_iff (l := ⟨first, records cs⟩) (i := i)
  simp only at hhas
  refine guarded_ends h.mem.corrupt h.mem.closed (.bind (.getMem ?_))
  have hout : outOfRange W.mem i ↔ ¬ (Log.mk first (records cs)).Has i := by
    rw [hhas, outOfRange, h.mem.firstIndex]
    omega
  by_cases hi : (Log.mk first (records cs)).Has i
  · simp only [hout, hi, not_true_eq_false, ↓reduceIte]
    split_ifs with heq
    · refine .pure ⟨⟨rfl, cs, h, ?_⟩, id⟩
      simp only [Log.dropAfter]
      rw [List.take_of_length_le (by omega)]
    · obtain ⟨k, c, hc, h1, h2, -⟩ := h.layout.chunk_of (hhas.mp hi).1 (hhas.mp hi).2
      have hrecs := h.layout.records_takeBack hc h1 h2
      refine .mono (truncateBackAt_spec hlru h hc h1 h2) ?_ ?_
      · rintro r W' ⟨rfl, hW', htidy⟩
        exact ⟨⟨rfl, _, hW', hrecs⟩, htidy⟩
      · rintro d (hd | hd) hb
        · exact .inl (Clean.recovers ⟨cs, h.layout, rfl, hd⟩ hb)
        · exact .inr ⟨trivial, _, h.layout.takeBack hc, hrecs, hd hb⟩
  · simp only [hout, hi, not_false_eq_true, ↓reduceIte]
    exact .throw ⟨⟨rfl, cs, h, rfl⟩, id⟩

end Back

end Rhosus.Wal

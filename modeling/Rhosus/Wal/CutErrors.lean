import Rhosus.Wal.CutFailures
import Rhosus.Wal.Failures

/-!
# Errors late in a truncation

Once what is left of a segment has its `.START` or `.END` name, a truncation returns the error of
each file operation it makes, and no such error sets the corrupt flag. The open log goes on from
where the truncation stopped: its tail may be closed, and files its segments are read from may be
gone. It is as it was only if nothing has been done since the rename, that is if the operation is
the first removal of a cut before the tail (`truncate_contained_iff`).
-/

namespace Rhosus.Wal

variable {lru : SetEvicted ℕ Ptr} {W V : World Name WAL} {l : Log} {first : ℕ} {cs : List Chunk}

section Contained

/-- The tail's file holds what the tail has in memory. -/
def TailOnDisk (W : World Name WAL) : Prop :=
  ∃ p, W.mem.segments.getLast? = some p
    ∧ W.dir.lookup (W.mem.heap p).path = some (W.mem.heap p).ebuf

variable (lru)

/-- The log answers as `l` does, whatever is done to it but truncations, and what is written is in
the tail's file. -/
def Unchanged (W : World Name WAL) (l : Log) : Prop :=
  ∀ ops : List Op, (∀ op ∈ ops, op.Keeps) →
    ∃ W', runOps lru ops W = some ((l.run ops).1, W') ∧ TailOnDisk W'

/-- Every operation returns `ErrCorrupt`. -/
def Refuses (W : World Name WAL) : Prop :=
  ∀ ops : List Op, (runOps lru ops W).map Prod.fst = some (ops.map fun _ => .error .corrupt)

def Contained (W : World Name WAL) (l : Log) : Prop := Unchanged lru W l ∨ Refuses lru W

variable {lru}

theorem Unchanged.tailOnDisk (h : Unchanged lru W l) : TailOnDisk W := by
  obtain ⟨W', hrun, htail⟩ := h [] (by simp)
  cases hrun
  exact htail

theorem RepBeside.tailOnDisk {rest : List (FileName × Bytes)} (h : RepBeside W l rest) :
    TailOnDisk W := by
  obtain ⟨cs, ho, -⟩ := h
  obtain ⟨t, p, ht, hp, hp', hload⟩ := ho.tail
  refine ⟨p, hp', ?_⟩
  rw [(ho.mem.segs.seg _ p t hp ht).path, hload.1]
  exact ho.file ht

/-- Other files in the directory do not matter. -/
theorem RepBeside.unchanged (hlru : lru.Lawful) {rest : List (FileName × Bytes)}
    (h : RepBeside W l rest) (hl : l.Wf) (hp : W.plan = []) : Unchanged lru W l := by
  intro ops hops
  obtain ⟨W', hrun, hW', -⟩ := runOps_rule lru
    (I := fun W l => RepBeside W l rest ∧ l.Wf ∧ W.plan = []) (P := Op.Keeps) (by
      rintro W l op hop ⟨h, hl, hp⟩
      obtain ⟨r, W', hrun, hp', hr, hW', -⟩ := (h.exec hlru hl hop).returns hp
      exact ⟨r, W', hrun, hr, hW', hl.step op, hp'⟩) ops ⟨h, hl, hp⟩ hops
  exact ⟨W', hrun, hW'.tailOnDisk⟩

theorem exec_lastIndex (lru : SetEvicted ℕ Ptr) (h1 : W.mem.corrupt = false)
    (h2 : W.mem.closed = false) :
    Op.exec lru .lastIndex W = (.ok (.index W.mem.lastIndex), W) := by
  simp only [Op.exec, lastIndex, guarded, Bind.bind, Prog.getMem, h1, h2, Bool.false_eq_true,
    ↓reduceIte, Pure.pure]

theorem not_contained (h1 : W.mem.corrupt = false) (h2 : W.mem.closed = false)
    (h : ¬ Unchanged lru W l) : ¬ Contained lru W l := by
  rintro (hu | hr)
  · exact h hu
  · have := hr [.lastIndex]
    simp [runOps, exec_lastIndex lru h1 h2] at this

theorem not_unchanged_of_lastIndex (h1 : W.mem.corrupt = false) (h2 : W.mem.closed = false)
    (h : W.mem.lastIndex ≠ l.lastIndex) : ¬ Unchanged lru W l := by
  intro hu
  obtain ⟨W', hrun, -⟩ := hu [.lastIndex] (by simp [Op.Keeps])
  simp only [runOps, exec_lastIndex lru h1 h2, Option.map_some, Log.run, Log.step,
    Option.some.injEq, Prod.mk.injEq, List.cons.injEq, Res.index.injEq, and_true] at hrun
  exact h hrun.1

theorem not_unchanged_of_closed (h1 : W.mem.corrupt = false) (h2 : W.mem.closed = false)
    (hplan : W.plan = []) {t : Chunk} {p : Ptr} (hp : W.mem.segments.getLast? = some p)
    (hload : Loaded (W.mem.heap p) t) (hs : W.mem.sfile = none) : ¬ Unchanged lru W l := by
  intro hu
  obtain ⟨W', hrun, -⟩ := hu [.append ⟨[], by decide⟩] (by simp [Op.Keeps])
  obtain ⟨W'', hw⟩ : ∃ W'', write lru (W.mem.lastIndex + 1) [] W = (.err .io, W'') := by
    have hW : { W with plan := [] } = W := by rw [← hplan]
    rcases write_closed lru h1 h2 hp hload hs (W.mem.lastIndex + 1) [] with hw | hw
    · exact ⟨_, hW ▸ hw.2.runs⟩
    · exact ⟨_, hW ▸ hw.2.runs⟩
  have hexec : Op.exec lru (.append ⟨[], by decide⟩) W = (.err .io, W'') := by
    simp only [Op.exec, lastIndex, guarded, Bind.bind, Prog.getMem, h1, h2, Bool.false_eq_true,
      ↓reduceIte, Pure.pure, hw]
  simp [runOps, hexec, Log.run, Log.step] at hrun

theorem loadSegment_lost (lru : SetEvicted ℕ Ptr) {i k : ℕ} {p q : Ptr}
    (hq : W.mem.segments.getLast? = some q) (hi : i < (W.mem.heap q).index)
    (hrecent : W.mem.recent i = none) (hfind : W.mem.findSegment i = k)
    (hp : W.mem.segments[k]? = some p) (hepos : (W.mem.heap p).epos = [])
    (hfile : W.dir.lookup (W.mem.heap p).path = none) (hplan : W.plan = []) :
    loadSegment lru i W = (.err .io, W) := by
  have hat : at? W.mem.segments (k : ℤ) = some p := by simp [at?, hp]
  have hread : (Prog.readFile .io (W.mem.heap p).path : WalM Bytes) W = (.err .io, W) := by
    simp only [Prog.readFile, Prog.fileOp, hplan, List.headD_nil, hfile, Option.map_none,
      List.tail_nil]
    rw [← hplan]
  simp only [loadSegment, Bind.bind, Prog.getMem, hq, Prog.orPanic, Pure.pure, not_le.mpr hi,
    ↓reduceIte, hrecent, hfind, hat, hepos, List.length_nil, loadSegmentEntries, hread]

/-- The file of the first segment is gone, which is not the tail: it cannot be loaded once the cache
is cleared. -/
theorem Good.loadSegment_first_lost (lru : SetEvicted ℕ Ptr) (h : Good V first cs)
    (ht : Tidy V.mem) (hlen : 1 < cs.length) {d : Dir Name}
    (hd : d.lookup (segmentName first) = none) (sf : Option Name) :
    loadSegment lru first ⟨WAL.clearCache { V.mem with sfile := sf }, d, []⟩
      = (.err .io, ⟨WAL.clearCache { V.mem with sfile := sf }, d, []⟩) := by
  have hm := h.mem
  set w : WAL := { V.mem with sfile := sf }
  have hsegs : Segs w cs (cs.length - 1) := ⟨hm.segs.length, hm.segs.nodup, hm.segs.fresh,
    hm.segs.seg, hm.segs.cached, hm.segs.keys⟩
  have hc : cs[0]? = some cs[0] := List.getElem?_eq_getElem (by omega)
  have hindex : cs[0].index = first := by
    simpa using h.layout.index_eq hc
  have hfull := List.length_pos_iff.mpr (h.layout.full_at hc (by omega))
  obtain ⟨t, htail, -⟩ := h.layout.getLast
  have hstop := h.layout.stop_le hc htail (by omega)
  obtain ⟨q, hq, hq'⟩ := getLast?_segments hsegs h.layout.ne
  obtain ⟨p, hp⟩ := hsegs.ptr hc
  have hsame := w.clearCache_segments
  refine loadSegment_lost lru (k := 0) (p := p) (q := q) (by rw [hsame]; exact hq) ?_ ?_ ?_
    (by rw [hsame]; exact hp) ?_ ?_ rfl
  · rw [(WAL.clearCache_heap w q).2, (hsegs.seg _ q t hq' htail).index]
    omega
  · rw [WAL.clearCache_eq]
    rfl
  · refine hsegs.clearCache.findSegment h.layout hc hindex.le fun c' hc' => ?_
    have := h.layout.stop_le hc hc' (Nat.lt_succ_self 0)
    omega
  · exact Tidy.clearCache (w := w) ht hp (by rw [hsegs.length]; omega)
  · rw [(WAL.clearCache_heap w p).1, (hsegs.seg 0 p _ hp hc).path, hindex]
    exact hd

theorem not_unchanged_of_lost (h : Good V first cs) (ht : Tidy V.mem) (hlen : 1 < cs.length)
    {d : Dir Name} (hd : d.lookup (segmentName first) = none) (sf : Option Name) :
    ¬ Unchanged lru ⟨{ V.mem with sfile := sf }, d, []⟩ ⟨first, records cs⟩ := by
  intro hu
  have hlost := h.loadSegment_first_lost lru ht hlen hd sf
  have hm := h.mem
  have hc : cs[0]? = some cs[0] := List.getElem?_eq_getElem (by omega)
  have hfull := List.length_pos_iff.mpr (h.layout.full_at hc (by omega))
  have hfirst := h.layout.first_le hc
  have htotal := h.layout.stop_le_total hc
  have hpos := h.layout.pos
  set w : WAL := { V.mem with sfile := sf }
  have h1 : w.corrupt = false := hm.corrupt
  have h2 : w.closed = false := hm.closed
  have h3 : w.firstIndex = first := hm.firstIndex
  have h4 : w.lastIndex + 1 = first + (records cs).length := hm.lastIndex
  have hcached : Op.exec lru .clearCache ⟨w, d, []⟩ = (.ok .done, ⟨w.clearCache, d, []⟩) := by
    simp only [Op.exec, Wal.clearCache, guarded, Bind.bind, Prog.getMem, Prog.modifyMem, h1, h2,
      Bool.false_eq_true, ↓reduceIte, Pure.pure]
  have hin : ¬ (first = 0 ∨ first < w.firstIndex ∨ w.lastIndex < first) := by omega
  have hread : Op.exec lru (.read first) ⟨w.clearCache, d, []⟩
      = (.err .io, ⟨w.clearCache, d, []⟩) := by
    simp only [Op.exec, Wal.read, guarded, Bind.bind, Prog.getMem, WAL.clearCache_corrupt,
      WAL.clearCache_closed, WAL.clearCache_firstIndex, WAL.clearCache_lastIndex, h1, h2,
      Bool.false_eq_true, ↓reduceIte, hin, hlost]
  obtain ⟨b, hb⟩ : ∃ b, (Log.mk first (records cs)).get? first = some b :=
    Option.isSome_iff_exists.mp (Log.get?_isSome.mpr (Log.has_iff.mpr
      ⟨le_rfl, show first < first + (records cs).length by omega⟩))
  obtain ⟨W'', hrun, -⟩ := hu [.clearCache, .read first] (by simp [Op.Keeps])
  simp [runOps, hcached, hread, Log.run, Log.step, Log.read, hb] at hrun

end Contained

section Late

variable {b : Bytes} {n : Name} {fin m : WalM Unit} {ps qs : List (Point Name WAL)}

/-- The world once what is left of the segment has the name `n`. -/
def swapped (b : Bytes) (n : Name) (W : World Name WAL) : World Name WAL :=
  ⟨W.mem, (((W.dir.insert tempName []).insert tempName b).erase tempName).insert n b, W.plan⟩

theorem swap_leads (b : Bytes) (n : Name) (fin : WalM Unit) (W : World Name WAL) :
    ∃ ps, ps.length = 5
      ∧ Leads (swap b n fin) W ps fun q => fin { swapped b n W with plan := q } := by
  obtain ⟨ps, hlen, htr⟩ := writeTemp_trace b W
  have hrename : Trace (Prog.rename Err.io tempName n)
      (⟨W.mem, (W.dir.insert tempName []).insert tempName b, W.plan⟩ : World Name WAL)
      [.clean W.mem ((W.dir.insert tempName []).insert tempName b)] (.ok ()) (swapped b n W) :=
    .fileOp (by rw [AList.lookup_insert]; rfl)
  exact ⟨ps ++ [_], by simp [hlen], htr.leads_bind.trans hrename.leads_bind⟩

theorem fails_late {o : Outcome Err Unit} {V' : World Name WAL}
    (h : Leads m W ps fun q => swap b n fin { V with plan := q })
    (hfin : Trace fin (swapped b n V) qs o V') (hclean : ∀ pt ∈ qs, pt = .clean pt.mem pt.dir)
    {k : ℕ} (hk : ps.length + 5 ≤ k) (hmade : (m { W with plan := faultAt k .crash }).1 = .crash)
    (x : ℕ) : ∃ pt e, qs[k - (ps.length + 5)]? = some pt
      ∧ m { W with plan := faultAt k (.fail x) } = (.err e, ⟨pt.mem, pt.dir, []⟩) := by
  obtain ⟨ps', hlen, hswap⟩ := swap_leads b n fin V
  have hall := (h.trans hswap).trans hfin.2
  have hlt := Trace.lt_of_stops ⟨hfin.1, hall⟩ hmade
  have hget := List.getElem?_eq_getElem hlt
  have hsplit := hget
  rw [List.getElem?_append_right (by simp; omega), List.length_append, hlen] at hsplit
  obtain ⟨e, hrun⟩ := hall.fails (n := x) hget
    (congrArg Point.left (hclean _ (List.mem_of_getElem? hsplit)))
  exact ⟨_, e, hsplit, hrun⟩

variable {k i j : ℕ} {p : Ptr} {c : Chunk} {d : Dir Name}

/-- A cut before the tail: the log is as it was as long as none of its files is gone. -/
theorem contained_front_iff (hlru : lru.Lawful) (h : Good V first cs) (ht : Tidy V.mem)
    (hl : (Log.mk first (records cs)).Wf) (hk : k + 1 < cs.length)
    (hd : Holds d ((segFiles (cs.take (k + 1))).drop j
      ++ (.start i, b) :: segFiles (cs.drop (k + 1)))) :
    Contained lru ⟨V.mem, d, []⟩ ⟨first, records cs⟩ ↔ j = 0 := by
  constructor
  · intro hcont
    by_contra hj
    have hc : cs[0]? = some cs[0] := List.getElem?_eq_getElem (by omega)
    have hindex : cs[0].index = first := by
      simpa using h.layout.index_eq hc
    have hfull := List.length_pos_iff.mpr (h.layout.full_at hc (by omega))
    have hother : ∀ a ∈ cs.drop 1, a.index ≠ first := fun a ha => by
      have := h.layout.stop_le_of_drop hc ha
      omega
    have hgone : d.lookup (segmentName first) = none := by
      refine hd.lookup_none (f := .seg first) (by simp) fun x hx => ?_
      rcases List.mem_append.mp hx with hx | hx
      · rw [segFiles, ← List.map_drop] at hx
        refine segFiles_ne (fun a ha => hother a ?_) hx
        have hsub := List.drop_sublist_drop_left (cs.take (k + 1)) (Nat.one_le_iff_ne_zero.mpr hj)
        have hmem := hsub.subset ha
        rw [List.drop_take] at hmem
        exact List.mem_of_mem_take hmem
      · rcases List.mem_cons.mp hx with rfl | hx
        · simp
        · refine segFiles_ne (fun a ha => hother a ?_) hx
          exact (List.drop_sublist_drop_left cs (Nat.le_add_left 1 k)).subset ha
    exact not_contained (W := ⟨V.mem, d, []⟩) h.mem.corrupt h.mem.closed
      (not_unchanged_of_lost h ht (by omega) hgone V.mem.sfile) hcont
  · rintro rfl
    refine .inl (RepBeside.unchanged hlru (?_ : RepBeside _ _ [(.start i, b)]) hl rfl)
    refine ⟨cs, ⟨h.layout, h.mem, ?_, ?_, NoFail.nil⟩, rfl⟩
    · refine hd.congr fun x => ?_
      conv_lhs => rw [← List.take_append_drop (k + 1) cs]
      simp only [segFiles_append, List.mem_append, List.mem_cons, List.not_mem_nil, or_false,
        List.drop_zero]
      tauto
    · simp [FileName.rank]

/-- A cut in the tail closes it first. Once it is open again the segment has its new index, and
the segments before it are gone. -/
theorem not_contained_front_tail (h : Good V first cs) (ht : Tidy V.mem) (hc : cs[k]? = some c)
    (h1 : c.index ≤ i) (h2 : i < c.index + c.recs.length) (hp : V.mem.segments[k]? = some p)
    (hk : k + 1 = cs.length) (hi : i ≠ first) {w : WAL}
    (hw : w = { V.mem with sfile := none }
      ∨ ∃ sf, w = { V.mem.renamed p i with sfile := sf }
        ∧ Holds d (segFiles (c.from i :: cs.drop (k + 1)))
        ∧ (sf = none ∨ sf = some (segmentName i))) :
    ¬ Contained lru ⟨w, d, []⟩ ⟨first, records cs⟩ := by
  have hs := h.mem.segs.seg k p c hp hc
  have hload : Loaded (V.mem.heap p) c := hs.buf.resolve_right fun hb => hb.1 (by omega)
  have hlast : V.mem.segments.getLast? = some p := by
    rw [List.getLast?_eq_getElem?, h.mem.segs.length, ← hk, Nat.add_sub_cancel]
    exact hp
  rcases hw with rfl | ⟨sf, rfl, hd, hsf⟩
  · exact not_contained h.mem.corrupt h.mem.closed
      (not_unchanged_of_closed h.mem.corrupt h.mem.closed rfl hlast hload rfl)
  · have hself : (V.mem.renamed p i).heap p
        = { V.mem.heap p with path := segmentName i, index := i } := Function.update_self ..
    refine not_contained h.mem.corrupt h.mem.closed ?_
    rcases hsf with rfl | rfl
    · refine not_unchanged_of_closed (t := c) h.mem.corrupt h.mem.closed rfl hlast ?_ rfl
      change Loaded ((V.mem.renamed p i).heap p) c
      rw [hself]
      exact hload
    · by_cases hci : i = c.index
      · -- the tail keeps its name, but not the segments before it
        have hsame : V.mem.renamed p i = V.mem := by
          have hseg : { V.mem.heap p with path := segmentName i, index := i } = V.mem.heap p := by
            rw [hci, ← hs.path, ← hs.index]
          rw [WAL.renamed, hseg, WAL.store, Function.update_eq_self]
        have hlen : 1 < cs.length := by
          by_contra hone
          obtain rfl : k = 0 := by omega
          exact hi (hci.trans (by simpa using h.layout.index_eq hc))
        rw [hsame]
        refine not_unchanged_of_lost h ht hlen (hd.lookup_none (f := .seg first) (by simp) ?_) _
        intro x hx
        rw [hk, List.drop_length, segFiles_cons, segFiles_nil, List.mem_singleton] at hx
        rw [hx]
        simpa [segFile, Chunk.from] using hi
      · intro hu
        obtain ⟨q, hq, hfile⟩ := hu.tailOnDisk
        obtain rfl : p = q := Option.some.inj (hlast.symm.trans hq)
        change d.lookup ((V.mem.renamed p i).heap p).path
          = some ((V.mem.renamed p i).heap p).ebuf at hfile
        rw [hself] at hfile
        have hcut := hd.has (.seg i) _ List.mem_cons_self
        rw [show FileName.name (.seg i) = segmentName i from rfl] at hcut
        simp only [hcut, Option.some.injEq, hload.1] at hfile
        exact encode_drop_ne (by omega) (by omega) hfile

/-- A cut at the back closes the tail first. Once the segment is open as the tail, the file of the
old one is gone or has lost its last entries. -/
theorem not_contained_back (h : Good V first cs) (hc : cs[k]? = some c) (h1 : c.index ≤ i)
    (hi : i + 1 < first + (records cs).length) {w : WAL}
    (hw : w = { V.mem with sfile := none }
      ∨ Holds d (segFiles (cs.take k ++ [c.upTo i]))
        ∧ (w = { V.mem with sfile := some (segmentName c.index) }
          ∨ ∃ w', w = WAL.clearCache { V.mem.store p w' with
              segments := V.mem.segments.take (k + 1)
              lastIndex := i
              sfile := some (segmentName c.index) })) :
    ¬ Contained lru ⟨w, d, []⟩ ⟨first, records cs⟩ := by
  obtain ⟨t, q, ht, hq, hq', hload⟩ := h.opened.tail
  have hs := h.mem.segs.seg _ q t hq ht
  rcases hw with rfl | ⟨hd, rfl | ⟨w', rfl⟩⟩
  · exact not_contained h.mem.corrupt h.mem.closed
      (not_unchanged_of_closed h.mem.corrupt h.mem.closed rfl hq' hload rfl)
  · refine not_contained h.mem.corrupt h.mem.closed fun hu => ?_
    obtain ⟨q', hlast, hfile⟩ := hu.tailOnDisk
    obtain rfl : q = q' := Option.some.inj (hq'.symm.trans hlast)
    change d.lookup (V.mem.heap q).path = some (V.mem.heap q).ebuf at hfile
    rw [hs.path, hload.1] at hfile
    by_cases hk : k + 1 = cs.length
    · obtain ⟨t', ht', hstop⟩ := h.layout.getLast
      obtain rfl : t = t' := Option.some.inj (ht.symm.trans ht')
      obtain rfl : c = t := by
        rw [← hk, Nat.add_sub_cancel] at ht
        exact Option.some.inj (hc.symm.trans ht)
      have hcut := hd.has (.seg c.index) (encode (c.upTo i).recs)
        (by rw [segFiles_append]; exact List.mem_append_right _ (List.mem_singleton_self _))
      rw [show FileName.name (.seg c.index) = segmentName c.index from rfl, hfile] at hcut
      exact encode_take_ne (by omega) (Option.some.inj hcut).symm
    · have hlen := (List.getElem?_eq_some_iff.mp hc).1
      have hct := h.layout.index_lt hc ht (by omega)
      have hne : ∀ a ∈ cs.take k ++ [c.upTo i], a.index ≠ t.index := by
        intro a ha
        rcases List.mem_append.mp ha with ha | ha
        · exact ((h.layout.index_lt_of_take hc ha).trans hct).ne
        · rw [List.mem_singleton.mp ha]
          exact hct.ne
      have hgone := hd.lookup_none (f := .seg t.index) (by simp) fun x hx => segFiles_ne hne hx
      rw [show FileName.name (.seg t.index) = segmentName t.index from rfl, hfile] at hgone
      cases hgone
  · rw [WAL.clearCache_eq]
    refine not_contained h.mem.corrupt h.mem.closed
      (not_unchanged_of_lastIndex h.mem.corrupt h.mem.closed ?_)
    change i ≠ first + (records cs).length - 1
    omega

/-- The index lies before the tail. -/
def WAL.BeforeTail (w : WAL) (i : ℕ) : Prop :=
  ∃ p, w.segments.getLast? = some p ∧ i < (w.heap p).index

theorem Good.beforeTail_iff (h : Good W first cs) (hc : cs[k]? = some c) (h1 : c.index ≤ i)
    (h2 : i < c.index + c.recs.length) : W.mem.BeforeTail i ↔ k + 1 < cs.length := by
  have hlen := (List.getElem?_eq_some_iff.mp hc).1
  obtain ⟨t, q, ht, hq, hq', -⟩ := h.opened.tail
  have hindex := (h.mem.segs.seg _ q t hq ht).index
  constructor
  · rintro ⟨q', hlast, hlt⟩
    obtain rfl : q = q' := Option.some.inj (hq'.symm.trans hlast)
    by_contra hk
    obtain rfl : k = cs.length - 1 := by omega
    obtain rfl : c = t := Option.some.inj (hc.symm.trans ht)
    omega
  · intro hk
    have := h.layout.stop_le hc ht (by omega)
    exact ⟨q, hq', by omega⟩

theorem truncateFrontAt_late (hlru : lru.Lawful) (h : Good W first cs) (ht : Tidy W.mem)
    (hl : (Log.mk first (records cs)).Wf) (hc : cs[j]? = some c) (h1 : c.index ≤ i)
    (h2 : i < c.index + c.recs.length) (hi : i ≠ first) (hk : W.mem.loads i + 5 ≤ k)
    (hin : ∀ {ps g}, Leads (truncateFrontAt lru i) W ps g → Leads m W ps g)
    (hmade : (m { W with plan := faultAt k .crash }).1 = .crash) (x : ℕ) :
    ∃ e W', m { W with plan := faultAt k (.fail x) } = (.err e, W')
      ∧ (Contained lru W' ⟨first, records cs⟩ ↔ j + 1 < cs.length ∧ k = W.mem.loads i + 5) := by
  have hlen := (List.getElem?_eq_some_iff.mp hc).1
  obtain ⟨ps, p, V, hf, hleads⟩ := truncateFrontAt_leads hlru h hc h1 h2
  rw [← hf.length] at hk ⊢
  have hd := ((hf.good.files.temp_insert segFiles_ne_temp []).temp_insert segFiles_ne_temp
    (encode (c.from i).recs)).startFile j i (encode (c.from i).recs)
  by_cases htail : j + 1 = cs.length
  · obtain ⟨qs, d, htr, -, hpts⟩ := finishFront_tail (p := p)
      (W := swapped (encode (c.from i).recs) (startName i) V) h.layout hf.good.mem hc h1 h2 hd htail
    obtain ⟨pt, e, hget, hrun⟩ := fails_late (hin hleads) htr (fun pt hpt => by
      rcases hpts pt hpt with ⟨j, hpt, -⟩ | ⟨sf, hpt, -⟩ <;> exact Point.eq_clean hpt)
      hk hmade x
    refine ⟨e, _, hrun, iff_of_false ?_ (by omega)⟩
    refine not_contained_front_tail hf.good (hf.tidy ht) hc h1 h2 hf.ptr htail hi ?_
    rcases hpts pt (List.mem_of_getElem? hget) with ⟨j, hpt, -⟩ | ⟨sf, hpt, hd, hsf⟩
    · exact .inl (congrArg Point.mem hpt)
    · exact .inr ⟨sf, congrArg Point.mem hpt, hd, hsf⟩
  · obtain ⟨qs, d, htr, -, -, hpts⟩ := finishFront_inner (p := p)
      (W := swapped (encode (c.from i).recs) (startName i) V) (b := encode (c.from i).recs)
      h.layout hf.good.mem hd htail
    obtain ⟨pt, e, hget, hrun⟩ := fails_late (hin hleads) htr (fun pt hpt => by
      obtain ⟨j, hj⟩ := List.getElem?_of_mem hpt
      exact Point.eq_clean (hpts hj).1) hk hmade x
    have hmem : pt.mem = V.mem := congrArg Point.mem (hpts hget).1
    refine ⟨e, _, hrun, ?_⟩
    rw [hmem, contained_front_iff hlru hf.good (hf.tidy ht) hl (by omega) (hpts hget).2]
    omega

theorem truncateBackAt_late (hlru : lru.Lawful) (h : Good W first cs) (hc : cs[j]? = some c)
    (h1 : c.index ≤ i) (h2 : i < c.index + c.recs.length)
    (hi : i + 1 < first + (records cs).length) (hk : W.mem.loads i + 5 ≤ k)
    (hin : ∀ {ps g}, Leads (truncateBackAt lru i) W ps g → Leads m W ps g)
    (hmade : (m { W with plan := faultAt k .crash }).1 = .crash) (x : ℕ) :
    ∃ e W', m { W with plan := faultAt k (.fail x) } = (.err e, W')
      ∧ ¬ Contained lru W' ⟨first, records cs⟩ := by
  obtain ⟨ps, p, V, hf, hleads⟩ := truncateBackAt_leads hlru h hc h1 h2
  rw [← hf.length] at hk
  have hd := ((hf.good.files.temp_insert segFiles_ne_temp []).temp_insert segFiles_ne_temp
    (encode (c.upTo i).recs)).endFile j c.index (encode (c.upTo i).recs)
  obtain ⟨qs, d, htr, -, hpts⟩ := finishBack_trace (i := i)
    (W := swapped (encode (c.upTo i).recs) (endName c.index) V) h.layout hf.good.mem hc hd hf.ptr
  obtain ⟨pt, e, hget, hrun⟩ := fails_late (hin hleads) htr (fun pt hpt => by
    rcases hpts pt hpt with ⟨j, hpt, -⟩ | ⟨hpt, -⟩
    · exact Point.eq_clean hpt
    · exact hpt) hk hmade x
  refine ⟨e, _, hrun, not_contained_back (p := p) hf.good hc h1 hi ?_⟩
  rcases hpts pt (List.mem_of_getElem? hget) with ⟨j, hpt, -⟩ | ⟨-, hd, hmem | hmem | hmem⟩
  · exact .inl (congrArg Point.mem hpt)
  · exact .inl hmem
  · exact .inr ⟨hd, .inl hmem⟩
  · exact .inr ⟨hd, .inr ⟨_, hmem⟩⟩

end Late

section Main

/-- Let a file operation of a truncation fail after the rename to `.START` or `.END`. The truncation
returns an error, and the log is then as it was, or returns `ErrCorrupt` from there on, if and only
if the operation is the first one after the rename, in a cut at the front before the tail. -/
theorem truncate_contained_iff (hlru : lru.Lawful) (h : Reached lru W l) (side : Side) (i k n : ℕ)
    (hk : W.mem.loads i + 5 ≤ k)
    (hmade : (side.truncate lru i { W with plan := cut k }).1 = .crash) :
    (∃ e, (side.truncate lru i { W with plan := faultAt k (.fail n) }).1 = .err e)
      ∧ (Contained lru (side.truncate lru i { W with plan := faultAt k (.fail n) }).2 l
        ↔ side = .front ∧ W.mem.BeforeTail i ∧ k = W.mem.loads i + 5) := by
  obtain ⟨hrep, hwf, -, htidy⟩ := h.inv hlru
  rcases side.truncate_cases lru hrep i with ⟨o, htr⟩ | ⟨hi, hkeep, hin⟩
  · simpa using htr.lt_of_stops hmade
  obtain ⟨first, entries⟩ := l
  obtain ⟨cs, hg, hrecs⟩ := hrep
  simp only at hg hrecs
  subst hrecs
  obtain ⟨j, c, hc, h1, h2, -⟩ := hg.layout.chunk_of (i := i) hi.2.1 hi.lt
  have hbefore := hg.beforeTail_iff hc h1 h2
  cases side with
  | front =>
    have hne : i ≠ first := by
      rintro rfl
      exact hkeep (by simp [Side.keep, Log.dropBefore])
    obtain ⟨e, W', hrun, hiff⟩ :=
      truncateFrontAt_late hlru hg htidy hwf hc h1 h2 hne hk hin hmade n
    rw [hrun]
    exact ⟨⟨e, rfl⟩, by rw [hiff, hbefore]; simp⟩
  | back =>
    have hlt : i + 1 < first + (records cs).length := by
      have := hi.lt
      by_contra hle
      refine hkeep ?_
      simp only [Side.keep, Log.dropAfter]
      rw [List.take_of_length_le (by omega)]
    obtain ⟨e, W', hrun, hno⟩ := truncateBackAt_late hlru hg hc h1 h2 hlt hk hin hmade n
    rw [hrun]
    exact ⟨⟨e, rfl⟩, iff_of_false hno (by simp)⟩

/-- The segment before the cut cannot be removed. -/
theorem truncate_contained_iff_remove : ∃ W, runFresh lruSet ⟨1, 1⟩ [.append ⟨[7], by decide⟩,
    .append ⟨[8, 9], by decide⟩] = some ([.done, .done], W)
    ∧ (truncateFront lruSet 2 { W with plan := cut 5 }).1 = .crash
    ∧ Contained lruSet (truncateFront lruSet 2 { W with plan := faultAt 5 (.fail 0) }).2
      ⟨1, [[7], [8, 9]]⟩ := by
  obtain ⟨W, hrun, -⟩ := runFresh_spec lruSet_lawful ⟨1, 1⟩
    [.append ⟨[7], by decide⟩, .append ⟨[8, 9], by decide⟩]
  have hmade : (runFresh lruSet ⟨1, 1⟩ [.append ⟨[7], by decide⟩, .append ⟨[8, 9], by decide⟩]).map
      (fun s => ((truncateFront lruSet 2 { s.2 with plan := cut 5 }).1, s.2.mem.loads 2,
        s.2.mem.segments.getLast?.map fun p => (s.2.mem.heap p).index))
      = some (.crash, 0, some 3) := by decide +kernel
  rw [hrun, Option.map_some, Option.some.injEq, Prod.mk.injEq, Prod.mk.injEq] at hmade
  have hloads : W.mem.loads 2 = 0 := hmade.2.1
  obtain ⟨p, hp, htail⟩ := Option.map_eq_some_iff.mp hmade.2.2
  have hindex : (W.mem.heap p).index = 3 := htail
  refine ⟨W, hrun, hmade.1, ?_⟩
  exact (truncate_contained_iff lruSet_lawful (runFresh_reached hrun) .front 2 5 0 (by omega)
    hmade.1).2.mpr ⟨rfl, ⟨p, hp, by omega⟩, by omega⟩

/-- The close of the tail fails in a cut at the back: no later write succeeds, and nothing says that
the log is corrupt. -/
theorem not_contained_close : ∃ W, runFresh lruSet ⟨100, 1⟩ [.append ⟨[7], by decide⟩,
    .append ⟨[8], by decide⟩] = some ([.done, .done], W)
    ∧ W.mem.loads 1 = 0
    ∧ (truncateBack lruSet 1 { W with plan := cut 5 }).1 = .crash
    ∧ (truncateBack lruSet 1 { W with plan := faultAt 5 (.fail 0) }).1 = .err .io
    ∧ (write lruSet 3 [9] (truncateBack lruSet 1 { W with plan := faultAt 5 (.fail 0) }).2).1
      = .err .io
    ∧ ¬ Contained lruSet (truncateBack lruSet 1 { W with plan := faultAt 5 (.fail 0) }).2
      ⟨1, [[7], [8]]⟩ := by
  obtain ⟨W, hrun, -⟩ := runFresh_spec lruSet_lawful ⟨100, 1⟩
    [.append ⟨[7], by decide⟩, .append ⟨[8], by decide⟩]
  have hfail : (runFresh lruSet ⟨100, 1⟩ [.append ⟨[7], by decide⟩, .append ⟨[8], by decide⟩]).map
      (fun s =>
      let r := truncateBack lruSet 1 { s.2 with plan := faultAt 5 (.fail 0) }
      (s.2.mem.loads 1, (truncateBack lruSet 1 { s.2 with plan := cut 5 }).1, r.1,
        (write lruSet 3 [9] r.2).1)) = some (0, .crash, .err .io, .err .io) := by decide +kernel
  have hlater : (runFresh lruSet ⟨100, 1⟩ [.append ⟨[7], by decide⟩,
      .append ⟨[8], by decide⟩]).map (fun s => (runOps lruSet [.append ⟨[9], by decide⟩]
        (truncateBack lruSet 1 { s.2 with plan := faultAt 5 (.fail 0) }).2).map Prod.fst)
      = some (some [.error .io]) := by decide +kernel
  rw [hrun, Option.map_some, Option.some.injEq] at hfail hlater
  simp only [Prod.mk.injEq] at hfail
  obtain ⟨hloads, hmade, herr, hwrite⟩ := hfail
  refine ⟨W, hrun, hloads, hmade, herr, hwrite, ?_⟩
  rintro (hu | hr)
  · obtain ⟨W', hrun', -⟩ := hu [.append ⟨[9], by decide⟩] (by simp [Op.Keeps])
    rw [hrun'] at hlater
    cases hlater
  · rw [hr] at hlater
    cases hlater

end Main

end Rhosus.Wal

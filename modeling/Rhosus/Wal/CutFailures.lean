import Rhosus.Wal.Refine

/-!
# Truncations that fail

A truncation loads the segment of its index, swaps in what is left of it by way of the temporary
file, and cleans up. It returns the error of every file operation but those on the temporary file,
which the rename's result replaces. Where it returns an error, the directory is the one a stop
there leaves, and the log before the truncation or the one after it is recovered. A temporary file
that could not be written, synced or closed is swapped in all the same: the truncation then reports
success, or leaves a segment cut short (`truncate_sound_iff`).
-/

namespace Rhosus.Wal

variable {lru : SetEvicted ℕ Ptr} {W : World Name WAL} {l : Log} {first : ℕ} {cs : List Chunk}
variable {Q : Except Err Unit → World Name WAL → Prop} {C : Dir Name → Prop}

section Sides

inductive Side
  | front
  | back

variable (lru)

def Side.truncate : Side → ℕ → WalM Unit
  | .front => truncateFront lru
  | .back => truncateBack lru

def Side.truncateAt : Side → ℕ → WalM Unit
  | .front => truncateFrontAt lru
  | .back => truncateBackAt lru

/-- What a truncation at `i` keeps of the log. -/
def Side.keep (l : Log) (i : ℕ) : Side → Log
  | .front => l.dropBefore i
  | .back => l.dropAfter i

/-- A truncation that failed says so, and leaves the log before it or the one after it. -/
def Sound (side : Side) (l : Log) (i : ℕ) (r : Outcome Err Unit × World Name WAL) : Prop :=
  (∃ e, r.1 = .err e) ∧ (Opens lru r.2.dir l ∨ Opens lru r.2.dir (side.keep l i))

variable {lru}

theorem Side.keep_wf (side : Side) {i : ℕ} (hl : l.Wf) (hi : l.Has i) : (side.keep l i).Wf := by
  cases side with
  | front => exact hl.dropBefore hi
  | back => exact hl.dropAfter hi

theorem Side.lastIndex_keep_le (side : Side) {i : ℕ} (hi : l.Has i) :
    (side.keep l i).lastIndex ≤ l.lastIndex := by
  have := hi.lt
  have := hi.2.1
  cases side with
  | front =>
    simp only [Side.keep, Log.dropBefore, Log.lastIndex, List.length_drop]
    omega
  | back =>
    simp only [Side.keep, Log.dropAfter, Log.lastIndex, List.length_take]
    omega

theorem Side.truncate_stops (hlru : lru.Lawful) (h : Rep W l) (side : Side) (i : ℕ)
    (hb : l.first + l.entries.length < 2 ^ 64)
    (hstop : (side.truncate lru i W).1 = .crash) : Recovers (side.truncate lru i W).2.dir l
      ∨ l.Has i ∧ Recovers (side.truncate lru i W).2.dir (side.keep l i) := by
  have hends : ∃ Q, Ends (side.truncate lru i) W Q fun d => l.first + l.entries.length < 2 ^ 64 →
      Recovers d l ∨ l.Has i ∧ Recovers d (side.keep l i) := by
    cases side with
    | front => exact ⟨_, truncateFront_spec hlru h i⟩
    | back => exact ⟨_, truncateBack_spec hlru h i⟩
  obtain ⟨Q, hends⟩ := hends
  unfold Ends at hends
  rcases hr : side.truncate lru i W with ⟨o, W'⟩
  rw [hr] at hends hstop
  cases hstop
  exact hends.2 hb

end Sides

section Shortened

/-- A log that the directory opens ends before `n`. -/
def EndsBefore (d : Dir Name) (n : ℕ) : Prop :=
  ∀ opts W, create opts ⟨WAL.new opts, d, []⟩ = (.ok (), W) → ∃ m < n, (lastIndex W).1 = .ok m

theorem EndsBefore.not_opens {d : Dir Name} {n : ℕ} (h : EndsBefore d n) (hn : n ≤ l.lastIndex) :
    ¬ Opens lru d l := by
  intro ho
  obtain ⟨W, hc, hrun⟩ := ho defaultOptions
  obtain ⟨m, hm, hlast⟩ := h _ W hc
  rcases hW : lastIndex W with ⟨o, W'⟩
  rw [hW] at hlast
  obtain rfl : o = .ok m := hlast
  have hexec : Op.exec lru .lastIndex W = (.ok (.index m), W') := by
    simp only [Op.exec, Bind.bind, hW]
    rfl
  have hone := hrun [.lastIndex]
  simp only [runOps, hexec, Option.map_some, Log.run, Log.step, Option.some.injEq, List.cons.injEq,
    Res.index.injEq, and_true] at hone
  omega

theorem openLog_last {fs : List (FileName × Bytes)} {j : ℕ} {b : Bytes}
    (hraw : Raw W.mem (fs ++ [(.seg j, b)])) (hfile : W.dir.lookup (segmentName j) = some b)
    (hplan : NoFail W.plan) :
    Ends openLog W (fun r W' => r = .ok () → ∃ epos, scanSegment b = some epos
      ∧ (lastIndex W').1 = .ok (j + epos.length - 1)) (fun _ => True) := by
  obtain ⟨ps, q, qs, hsegs, -, hq, hqs⟩ := forall₂_split hraw.rel
  obtain rfl := List.forall₂_nil_right_iff.mp hqs
  obtain ⟨p, hp⟩ : ∃ p, W.mem.segments.head? = some p := by
    rw [hsegs]
    cases ps <;> exact ⟨_, rfl⟩
  have hlast : W.mem.segments.getLast? = some q := by
    rw [hsegs, List.getLast?_concat]
  refine .bind (.getMem (.bind (.orPanic hp (.bind (.orPanic hlast (.bind (.modifyMem ?_)))))))
  have hpath : (W.mem.heap q).path = segmentName j := by
    rw [hq]
    rfl
  have hindex : (W.mem.heap q).index = j := by
    rw [hq]
    rfl
  simp only [hpath]
  refine .bind (openTail_ends hplan hfile trivial fun pl hpl => .bind (.bind (.getMem ?_)))
  refine .bind (.fileOp hpl (a := b) (d := W.dir) (by rw [hpath, hfile]; rfl) trivial
    fun pl hpl => ?_)
  rcases hscan : scanSegment b with _ | epos <;> simp only [hscan]
  · exact .throw fun h => by cases h
  · refine .modifyMem (.modifyMem fun _ => ⟨epos, rfl, ?_⟩)
    simp only [lastIndex, guarded, Bind.bind, Prog.getMem, WAL.store, hraw.corrupt, hraw.closed,
      Function.update_self, hindex]
    rfl

/-- A log whose last segment is cut short opens, if at all, without its last record. -/
theorem endsBefore_of_torn {d : Dir Name} {init : List Chunk} {j m : ℕ} {ds : List Bytes}
    (hd : Holds d (segFiles init ++ [(.seg j, (encode ds).take m)]))
    (hlist : Listed (segFiles init ++ [(.seg j, encode ds)])) (hfits : ∀ b ∈ ds, Fits b)
    (hm : m < (encode ds).length) : EndsBefore d (j + ds.length - 1) := by
  intro opts W hcreate
  have hlist' : Listed (segFiles init ++ [(.seg j, (encode ds).take m)]) :=
    hlist.congr (by simp)
  have hj : j ≠ 0 := hlist.pos (.seg j, encode ds) (by simp)
  have hplain : ∀ f ∈ segFiles init ++ [(.seg j, (encode ds).take m)], f.1.rank = 0 := by
    intro f hf
    rcases List.mem_append.mp hf with hf | hf
    · exact segFiles_own hf
    · rw [List.mem_singleton.mp hf]
      rfl
  have hends : Ends (create opts) ⟨WAL.new opts, d, []⟩ (fun r W' => r = .ok () → ∃ epos,
      scanSegment ((encode ds).take m) = some epos
      ∧ (lastIndex W').1 = .ok (j + epos.length - 1)) (fun _ => True) := by
    refine .bind (.modifyMem (.bind (.touch NoFail.nil trivial fun pl hpl => ?_)))
    refine load_ends hd hlist' hpl rfl (scan_plain hlist' hplain) rfl trivial
      fun w pl hraw hpl _ => ?_
    rw [loadScanned_found (by simp)]
    exact openLog_last hraw (hd.has (.seg j) _ (by simp)) hpl
  obtain ⟨r, W', hrun, -, hr⟩ := hends.returns rfl
  rw [hcreate, Prod.mk.injEq] at hrun
  obtain ⟨hok, rfl⟩ := hrun
  obtain ⟨epos, hscan, hlast⟩ := hr (by cases r <;> cases hok; rfl)
  refine ⟨_, ?_, hlast⟩
  have := length_lt_of_scanSegment_take hfits hm hscan
  omega

end Shortened

section Swap

variable {b : Bytes} {n : Name} {fin : WalM Unit}

theorem writeTemp_trace (b : Bytes) (W : World Name WAL) : ∃ ps, ps.length = 4
    ∧ Trace (writeTemp b) W ps (.ok ())
      ⟨W.mem, (W.dir.insert tempName []).insert tempName b, W.plan⟩ := by
  refine ⟨_, ?_, .ignoreErr (.bind_one (.fileOp rfl) (.bind_one
    (.fileOp (a := ()) (d := (W.dir.insert tempName []).insert tempName b) ?_)
    (.bind_one .touch .touch)))⟩
  · simp
  · simp

/-- Past the temporary file every error is returned. -/
theorem swap_trace (hfin : fin.Reports) (b : Bytes) (n : Name) (W : World Name WAL) :
    ∃ qs o W', Trace (swap b n fin) W qs o W'
      ∧ ∀ {k : ℕ} {pt : Point Name WAL}, 4 ≤ k → qs[k]? = some pt → pt = .clean pt.mem pt.dir := by
  obtain ⟨ps, hlen, htr⟩ := writeTemp_trace b W
  have hrest : (Prog.rename .io tempName n >>= fun _ => fin : WalM Unit).Reports :=
    .bind (.fileOp _ _) fun _ => hfin
  obtain ⟨qs, o, W', h, hqs⟩ := hrest _
  refine ⟨ps ++ qs, o, W', htr.bind h, fun hk hget => ?_⟩
  rw [List.getElem?_append_right (by omega)] at hget
  exact hqs _ (List.mem_of_getElem? hget)

/-- If the temporary file is not there, it cannot get another name. -/
theorem swap_of_not_created (htemp : tempName ∉ W.dir) (x : ℕ) :
    swap b n fin { W with plan := faultAt 0 (.fail x) } = (.err .io, { W with plan := [] }) := by
  have hnone : W.dir.lookup tempName = none := AList.lookup_eq_none.mpr htemp
  have hrename : (Prog.rename .io tempName n : WalM Unit) { W with plan := [] }
      = (.err .io, { W with plan := [] }) := by
    simp only [Prog.rename, Prog.fileOp, List.headD_nil, hnone, Option.map_none, List.tail_nil]
  change (Prog.rename .io tempName n >>= fun _ => fin : WalM Unit) { W with plan := [] } = _
  simp only [Bind.bind, hrename]

/-- Whatever else befalls the temporary file, it gets its name with the bytes it has. -/
theorem swap_of_not_written (b : Bytes) (n : Name) (fin : WalM Unit)
    {fs : List (FileName × Bytes)} (hd : Holds W.dir fs) (hfs : ∀ x ∈ fs, x.1 ≠ .temp) {j : ℕ}
    (h0 : 0 < j) (h3 : j ≤ 3) (x : ℕ) :
    ∃ d m, Holds d fs ∧ swap b n fin { W with plan := faultAt j (.fail x) }
      = fin ⟨W.mem, (d.erase tempName).insert n (b.take m), []⟩ := by
  obtain ⟨m, hm⟩ : ∃ m, writeTemp b { W with plan := faultAt j (.fail x) } = (.ok (),
      ⟨W.mem, (W.dir.insert tempName []).insert tempName (b.take m), []⟩) := by
    obtain rfl | rfl | rfl : j = 1 ∨ j = 2 ∨ j = 3 := by omega
    · exact ⟨x, by simp [writeTemp, Prog.ignoreErr, Bind.bind, Prog.create, Prog.append,
        Prog.fileOp, faultAt]⟩
    all_goals
      refine ⟨b.length, ?_⟩
      simp [writeTemp, Prog.ignoreErr, Bind.bind, Prog.create, Prog.append, Prog.touch,
        Prog.fileOp, faultAt]
  refine ⟨_, m, (hd.temp_insert hfs []).temp_insert hfs (b.take m), ?_⟩
  simp only [swap, Bind.bind, hm, Prog.rename, Prog.fileOp, List.headD_nil, AList.lookup_insert,
    Option.map_some, List.tail_nil]

end Swap

section Reports

variable {p : Ptr} {i k : ℕ} {b : Bytes} {n m : Name} {ps : List Ptr}

theorem closeTail_reports : closeTail.Reports := by
  refine .bind .getMem fun w => ?_
  rcases w.sfile with _ | s
  · exact .throw _
  · exact .bind (.modifyMem _) fun _ => .touch _

theorem openTail_reports : (openTail n).Reports :=
  .bind (.modifyMem _) fun _ => .bind (.fileOp _ _) fun _ => .bind (.modifyMem _) fun _ =>
    .bind (.touch _) fun _ => .pure _

theorem reopenTail_reports : (reopenTail n b).Reports := by
  refine .bind openTail_reports fun len => ?_
  split_ifs
  · exact .throw _
  · exact .pure _

theorem loadSegmentEntries_reports : (loadSegmentEntries p).Reports := by
  refine .bind .getMem fun w => .bind (.fileOp _ _) fun data => ?_
  rcases scanSegment data with _ | epos
  · exact .throw _
  · exact .modifyMem _

theorem replaceFiles_reports : (replaceFiles ps n m).Reports :=
  .bind (.each (fun _ => .bind .getMem fun _ => .fileOp _ _) _) fun _ => .fileOp _ _

theorem finishFront_reports : (finishFront i k p b).Reports := by
  refine .recovering _ _ (.bind .getMem fun w => ?_)
  dsimp only
  split_ifs
  · refine .bind closeTail_reports fun _ => .bind replaceFiles_reports fun _ => ?_
    refine .bind (.modifyMem _) fun _ => .bind reopenTail_reports fun _ => ?_
    exact .bind loadSegmentEntries_reports fun _ => .bind (.modifyMem _) fun _ => .modifyMem _
  · refine .bind replaceFiles_reports fun _ => .bind (.modifyMem _) fun _ => ?_
    exact .bind (.modifyMem _) fun _ => .modifyMem _

theorem finishBack_reports : (finishBack i k p b).Reports := by
  refine .recovering _ _ (.bind closeTail_reports fun _ => .bind .getMem fun w => ?_)
  refine .bind replaceFiles_reports fun _ => .bind reopenTail_reports fun _ => ?_
  refine .bind (.modifyMem _) fun _ => .bind (.modifyMem _) fun _ => ?_
  exact .bind (.modifyMem _) fun _ => loadSegmentEntries_reports

end Reports

section Torn

variable {k i m : ℕ} {p : Ptr} {c : Chunk} {b b' : Bytes}

theorem reopenTail_torn {n : Name} (hfile : W.dir.lookup n = some b')
    (hne : b'.length ≠ b.length) : ∃ qs, Trace (reopenTail n b) W qs (.err .invalidSeek)
      ⟨{ W.mem with sfile := some n }, W.dir, W.plan⟩ := by
  refine ⟨_, (openTail_trace hfile).bind_last ?_⟩
  rw [if_pos hne]
  exact .throw

/-- Cut at the front, the segment is looked at again only if it is the tail. -/
theorem finishFront_torn (hl : Layout first cs) (hm : Mem W.mem first cs)
    (hd : Holds W.dir
      (segFiles (cs.take (k + 1)) ++ (.start i, b') :: segFiles (cs.drop (k + 1))))
    (hne : b'.length ≠ b.length) :
    ∃ qs r W', Trace (finishFront i k p b) W qs (Outcome.ofExcept r) W'
      ∧ (r = .ok () ∨ k + 1 = cs.length ∧ Holds W'.dir [(.seg i, b')]) := by
  by_cases htail : k + 1 = cs.length
  · have hps := List.forall₂_take (k + 1) hm.segs.paths
    rw [segFiles, ← List.map_take] at hps
    have hnd : ((segFiles (cs.take (k + 1)) ++ (.start i, b') :: segFiles (cs.drop (k + 1))).map
        Prod.fst).Nodup := by
      have := frontFiles_nodup (k := k) (c := ⟨0, []⟩) (i := i) hl
      simpa [frontFiles, Chunk.from] using this
    obtain ⟨t, ht, -⟩ := hl.getLast
    obtain ⟨qs, d, hreplace, hstart, -, -⟩ := replaceFiles_trace (n := segmentName i)
      (W := ⟨{ W.mem with sfile := none }, W.dir, W.plan⟩) hps hd hnd List.mem_cons_self
    rw [htail, List.drop_length] at hstart
    have hend := hstart.finish_front (by simp)
    obtain ⟨qs', htorn⟩ := reopenTail_torn (b := b)
      (W := ⟨({ W.mem with sfile := none }).renamed p i, _, W.plan⟩)
      (hend.has (.seg i) b' List.mem_cons_self) hne
    refine ⟨[.clean { W.mem with sfile := none } W.dir] ++ (qs ++ qs'), .error .invalidSeek,
      ⟨{ W.mem.renamed p i with sfile := some (segmentName i) },
        (d.erase (startName i)).insert (segmentName i) b', W.plan⟩,
      .recovering (o := .err .invalidSeek) (.getMem ?_) (by simp [Outcome.ofExcept]) fun _ => rfl,
      .inr ⟨htail, hend⟩⟩
    rw [← hm.segs.length] at htail
    dsimp only
    rw [if_pos htail, if_pos htail]
    exact .bind (closeTail_trace (hm.sfile t ht)) (.bind hreplace (.modifyMem
      (.bind_stop htorn (.inl ⟨_, rfl, rfl⟩))))
  · obtain ⟨qs, d, htr, -⟩ := finishFront_inner (p := p) (b := b) hl hm hd htail
    exact ⟨qs, .ok (), _, htr, .inl rfl⟩

theorem finishBack_torn (hl : Layout first cs) (hm : Mem W.mem first cs)
    (hc : cs[k]? = some c) (hp : W.mem.segments[k]? = some p)
    (hd : Holds W.dir (segFiles (cs.drop k) ++ (segFiles (cs.take k) ++ [(.fin c.index, b')])))
    (hne : b'.length ≠ b.length) :
    ∃ qs W', Trace (finishBack i k p b) W qs (.err .invalidSeek) W'
      ∧ Holds W'.dir (segFiles (cs.take k) ++ [(.seg c.index, b')]) := by
  have hps := List.forall₂_drop k hm.segs.paths
  rw [segFiles, ← List.map_drop] at hps
  have hnd : ((segFiles (cs.drop k) ++ (segFiles (cs.take k) ++ [(FileName.fin c.index, b')])).map
      Prod.fst).Nodup := by
    have := backFiles_nodup (k := k) (c := c) (i := i) hl
    simpa [backFiles, Chunk.upTo] using this
  obtain ⟨t, ht, -⟩ := hl.getLast
  obtain ⟨qs, d, hreplace, hfin, -, -⟩ := replaceFiles_trace (n := segmentName c.index)
    (W := ⟨{ W.mem with sfile := none }, W.dir, W.plan⟩) (f := .fin c.index) (b := b') hps hd hnd
    (List.mem_append_right _ (List.mem_singleton_self _))
  have hend := Holds.finish_back (fun a ha => hl.index_lt_of_take hc ha) [] (by simp) hfin
  obtain ⟨qs', htorn⟩ := reopenTail_torn (b := b) (W := ⟨{ W.mem with sfile := none }, _, W.plan⟩)
    (hend.has (.seg c.index) b' (List.mem_append_right _ (List.mem_singleton_self _))) hne
  refine ⟨[.clean { W.mem with sfile := none } W.dir] ++ (qs ++ qs'),
    ⟨{ W.mem with sfile := some (segmentName c.index) },
      (d.erase (endName c.index)).insert (segmentName c.index) b', W.plan⟩,
    .recovering (o := .err .invalidSeek) (.bind (closeTail_trace (hm.sfile t ht)) (.getMem ?_))
    (by simp) fun _ => rfl, hend⟩
  dsimp only
  rw [(hm.segs.seg k p c hp hc).index]
  exact .bind hreplace (.bind_stop htorn (.inl ⟨_, rfl, rfl⟩))

end Torn

section Cutting

/-- How a truncation goes on once it has loaded its segment: what is left of the segment is swapped
in. If not all of it was written, the truncation reports success or shortens the log. -/
structure Cutting (side : Side) (l : Log) (i : ℕ) (fs : List (FileName × Bytes)) (w : WAL)
    (b : Bytes) (fin : WalM Unit) (n : Name) : Prop where
  reports : fin.Reports
  torn : ∀ d m, Holds d fs → Ends fin ⟨w, (d.erase tempName).insert n (b.take m), []⟩
    (fun r W' => r = .ok () ∨ EndsBefore W'.dir (side.keep l i).lastIndex) fun _ => True

variable {k i : ℕ} {p : Ptr} {c : Chunk}

theorem endsBefore_front {d : Dir Name} {m : ℕ} (hl : Layout first cs)
    (hb : first + (records cs).length < 2 ^ 64) (hc : cs[k]? = some c) (h1 : c.index ≤ i)
    (h2 : i < c.index + c.recs.length) (hlast : k + 1 = cs.length)
    (hd : Holds d [(.seg i, (encode (c.from i).recs).take m)])
    (hm : m < (encode (c.from i).recs).length) :
    EndsBefore d (Side.keep ⟨first, records cs⟩ i .front).lastIndex := by
  have hl' : Layout i (c.from i :: cs.drop (k + 1)) := hl.dropFront hc h1 h2
  have hrecs : records (c.from i :: cs.drop (k + 1)) = (records cs).drop (i - first) :=
    hl.records_dropFront hc h1 h2
  have hbound := hl.stop_le_total hc
  rw [hlast, List.drop_length] at hl' hrecs
  have hlist : Listed (segFiles [] ++ [(.seg i, encode (c.from i).recs)]) :=
    hl'.listed fun a ha => by
      rw [List.mem_singleton.mp ha]
      change i < 2 ^ 64
      omega
  have hend := endsBefore_of_torn hd hlist (hl'.fits _ List.mem_cons_self) hm
  have hlen : (c.from i).recs.length = ((records cs).drop (i - first)).length := by
    rw [← hrecs, records_cons, records_nil, List.append_nil]
  rw [hlen] at hend
  exact hend

theorem endsBefore_back {d : Dir Name} {m : ℕ} (hl : Layout first cs)
    (hb : first + (records cs).length < 2 ^ 64) (hc : cs[k]? = some c) (h1 : c.index ≤ i)
    (h2 : i < c.index + c.recs.length)
    (hd : Holds d (segFiles (cs.take k) ++ [(.seg c.index, (encode (c.upTo i).recs).take m)]))
    (hm : m < (encode (c.upTo i).recs).length) :
    EndsBefore d (Side.keep ⟨first, records cs⟩ i .back).lastIndex := by
  have hl' : Layout first (cs.take k ++ [c.upTo i]) := hl.takeBack hc
  have hrecs : (records (cs.take k ++ [c.upTo i])).length
      = ((records cs).take (i + 1 - first)).length :=
    congrArg List.length (hl.records_takeBack hc h1 h2)
  have hbound := hl.stop_le_total hc
  have hfirst := hl.first_le hc
  have hpos := hl.pos
  rw [List.length_take] at hrecs
  have hlist : Listed (segFiles (cs.take k) ++ [(.seg c.index, encode (c.upTo i).recs)]) := by
    have := hl'.listed (hl'.bound (by omega))
    rwa [segFiles_append] at this
  have hend := endsBefore_of_torn hd hlist
    (hl'.fits _ (List.mem_append_right _ (List.mem_singleton_self _))) hm
  have hlen : c.index + (c.upTo i).recs.length - 1
      = (Side.keep ⟨first, records cs⟩ i .back).lastIndex := by
    simp only [Chunk.upTo, Side.keep, Log.dropAfter, Log.lastIndex, List.length_take]
    omega
  rwa [hlen] at hend

theorem cutting_front (h : Good W first cs) (hb : first + (records cs).length < 2 ^ 64)
    (hc : cs[k]? = some c) (h1 : c.index ≤ i) (h2 : i < c.index + c.recs.length)
    (hp : W.mem.segments[k]? = some p) (hcase : k + 1 = cs.length ∨ (k, p) ∈ W.mem.scache) :
    Cutting .front ⟨first, records cs⟩ i (segFiles cs) W.mem (encode (c.from i).recs)
      (finishFront i k p (encode (c.from i).recs)) (startName i) := by
  refine ⟨finishFront_reports, fun d m hd => ?_⟩
  by_cases hm : m < (encode (c.from i).recs).length
  · obtain ⟨qs, r, V, htr, hV⟩ := finishFront_torn (p := p) (b := encode (c.from i).recs)
      (W := ⟨W.mem, _, []⟩) h.layout h.mem (hd.startFile k i ((encode (c.from i).recs).take m))
      (by rw [List.length_take]; omega)
    refine htr.ends NoFail.nil (fun _ _ => trivial) fun _ _ => hV.imp_right fun hV => ?_
    exact endsBefore_front h.layout hb hc h1 h2 hV.1 hV.2 hm
  · rw [List.take_of_length_le (not_lt.mp hm)]
    exact .mono (finishFront_spec h.layout h.mem NoFail.nil hc h1 h2 (hd.startFile k i _) hp hcase)
      (fun r W' hr => .inl hr.1) fun _ _ => trivial

theorem cutting_back (h : Good W first cs) (hb : first + (records cs).length < 2 ^ 64)
    (hc : cs[k]? = some c) (h1 : c.index ≤ i) (h2 : i < c.index + c.recs.length)
    (hp : W.mem.segments[k]? = some p) :
    Cutting .back ⟨first, records cs⟩ i (segFiles cs) W.mem (encode (c.upTo i).recs)
      (finishBack i k p (encode (c.upTo i).recs)) (endName c.index) := by
  refine ⟨finishBack_reports, fun d m hd => ?_⟩
  by_cases hm : m < (encode (c.upTo i).recs).length
  · obtain ⟨qs, V, htr, hV⟩ := finishBack_torn (i := i) (b := encode (c.upTo i).recs)
      (W := ⟨W.mem, _, []⟩) h.layout h.mem hc hp
      (hd.endFile k c.index ((encode (c.upTo i).recs).take m)) (by rw [List.length_take]; omega)
    refine htr.ends (r := .error .invalidSeek) NoFail.nil (fun _ _ => trivial) fun _ _ => .inr ?_
    exact endsBefore_back h.layout hb hc h1 h2 hV hm
  · rw [List.take_of_length_le (not_lt.mp hm)]
    exact .mono (finishBack_spec h.layout h.mem NoFail.nil hc h1 h2 (hd.endFile k c.index _) hp)
      (fun r W' hr => .inl hr.1) fun _ _ => trivial

/-- A truncation makes no file operation, or it cuts the log somewhere inside. -/
theorem Side.truncate_cases (lru : SetEvicted ℕ Ptr) (h : Rep W l) (side : Side) (i : ℕ) :
    (∃ o, Trace (side.truncate lru i) W [] o W)
      ∨ l.Has i ∧ side.keep l i ≠ l ∧ ∀ {ps : List (Point Name WAL)}
        {g : List Fault → Outcome Err Unit × World Name WAL},
        Leads (side.truncateAt lru i) W ps g → Leads (side.truncate lru i) W ps g := by
  have hlast := h.lastIndex_eq
  obtain ⟨cs, hg, -⟩ := h
  have hpos := hg.layout.pos
  have hout : outOfRange W.mem i ↔ ¬ l.Has i := by
    rw [Log.has_iff, outOfRange, hg.mem.firstIndex, hlast, Log.lastIndex]
    omega
  have hguard : ∀ {m : WalM Unit} {ps : List (Point Name WAL)}
      {g : List Fault → Outcome Err Unit × World Name WAL}, Leads m W ps g →
      Leads (guarded m) W ps g := guarded_leads hg.mem.corrupt hg.mem.closed
  by_cases hi : l.Has i
  · have hin : ¬ outOfRange W.mem i := fun ho => hout.mp ho hi
    cases side with
    | front =>
      by_cases hne : i = W.mem.firstIndex
      · refine .inl ⟨.ok (), by simp, hguard (.getMem ?_)⟩
        rw [if_neg hin, if_pos hne]
        exact fun _ => rfl
      · refine .inr ⟨hi, fun he => hne ?_, fun hat => hguard (.getMem ?_)⟩
        · rw [hg.mem.firstIndex]
          exact congrArg Log.first he
        · rw [if_neg hin, if_neg hne]
          exact hat
    | back =>
      by_cases hne : i = W.mem.lastIndex
      · refine .inl ⟨.ok (), by simp, hguard (.getMem ?_)⟩
        rw [if_neg hin, if_pos hne]
        exact fun _ => rfl
      · refine .inr ⟨hi, fun he => hne ?_, fun hat => hguard (.getMem ?_)⟩
        · have hlen := congrArg (List.length ∘ Log.entries) he
          simp only [Function.comp, Side.keep, Log.dropAfter, List.length_take] at hlen
          have := hi.lt
          have := hi.2.1
          rw [hlast, Log.lastIndex]
          omega
        · rw [if_neg hin, if_neg hne]
          exact hat
  · refine .inl ⟨.err .outOfRange, by simp, ?_⟩
    cases side <;>
    · refine hguard (.getMem ?_)
      rw [if_pos (hout.mpr hi)]
      exact fun _ => rfl

/-- A truncation that makes file operations: those that load the segment, then the swap. -/
theorem Side.truncate_leads (hlru : lru.Lawful) (h : Rep W l)
    (hb : l.first + l.entries.length < 2 ^ 64) (side : Side) (i : ℕ) {k : ℕ}
    (hk : (side.truncate lru i { W with plan := faultAt k .crash }).1 = .crash) :
    l.Has i ∧ ∃ (ps : List (Point Name WAL)) (W' : World Name WAL) (fs : List (FileName × Bytes))
      (b : Bytes) (fin : WalM Unit) (n : Name), Cutting side l i fs W'.mem b fin n
      ∧ Leads (side.truncate lru i) W ps (fun q => swap b n fin { W' with plan := q })
      ∧ ps.length = W.mem.loads i ∧ (∀ pt ∈ ps, pt = .clean pt.mem W.dir) ∧ W'.dir = W.dir
      ∧ Holds W.dir fs ∧ ∀ x ∈ fs, x.1 ≠ .temp := by
  rcases side.truncate_cases lru h i with ⟨o, htr⟩ | ⟨hi, -, hin⟩
  · simpa using htr.lt_of_stops hk
  · refine ⟨hi, ?_⟩
    obtain ⟨first, entries⟩ := l
    obtain ⟨cs, hg, hrecs⟩ := h
    simp only at hg hrecs
    subst hrecs
    obtain ⟨j, c, hc, h1, h2, -⟩ := hg.layout.chunk_of (i := i) hi.2.1 hi.lt
    cases side with
    | front =>
      obtain ⟨ps, p, W', hf, hleads⟩ := truncateFrontAt_leads hlru hg hc h1 h2
      exact ⟨ps, W', _, _, _, _, cutting_front hf.good hb hc h1 h2 hf.ptr hf.cached, hin hleads,
        hf.length, hf.clean, hf.dir, hg.files, segFiles_ne_temp⟩
    | back =>
      obtain ⟨ps, p, W', hf, hleads⟩ := truncateBackAt_leads hlru hg hc h1 h2
      exact ⟨ps, W', _, _, _, _, cutting_back hf.good hb hc h1 h2 hf.ptr, hin hleads,
        hf.length, hf.clean, hf.dir, hg.files, segFiles_ne_temp⟩

end Cutting

section Sound

/-- Let one file operation of a truncation fail, on a log whose directory has no temporary file if
it is the one that creates it. The truncation says so and leaves the log before it or the one after
it if and only if the operation is not the write, the sync or the close of the temporary file. -/
theorem truncate_sound_iff (hlru : lru.Lawful) (h : Rep W l) (hl : l.Wf)
    (hb : l.lastIndex + 2 < 2 ^ 64) (side : Side) (i k n : ℕ)
    (hk : (side.truncate lru i { W with plan := cut k }).1 = .crash)
    (htemp : k = W.mem.loads i → tempName ∉ W.dir) :
    Sound lru side l i (side.truncate lru i { W with plan := faultAt k (.fail n) })
      ↔ ¬ (W.mem.loads i < k ∧ k ≤ W.mem.loads i + 3) := by
  have hbound : l.first + l.entries.length < 2 ^ 64 := by
    have := hl.pos
    unfold Log.lastIndex at hb
    omega
  obtain ⟨hi, ps, W', fs, b, fin, name, hcut, hleads, hlen, hclean, hdir, hd, hfs⟩ :=
    side.truncate_leads hlru h hbound i hk
  by_cases hrep : k < ps.length ∨ ps.length + 4 ≤ k
  · -- the error is returned, and the directory is the one a stop there leaves
    obtain ⟨qs, o, W'', htr, hqs⟩ := swap_trace hcut.reports b name W'
    have hall := hleads.trans htr.2
    obtain ⟨pt, hget⟩ : ∃ pt, (ps ++ qs)[k]? = some pt :=
      ⟨_, List.getElem?_eq_getElem (Trace.lt_of_stops ⟨htr.1, hall⟩ hk)⟩
    have hpt : pt = .clean pt.mem pt.dir := by
      rcases hrep with hlt | hge
      · rw [List.getElem?_append_left hlt] at hget
        have hpt := hclean pt (List.mem_of_getElem? hget)
        have hptdir : pt.dir = W.dir := congrArg Point.dir hpt
        rwa [← hptdir] at hpt
      · rw [List.getElem?_append_right (by omega)] at hget
        exact hqs (by omega) hget
    have hstop : side.truncate lru i { W with plan := cut k } = _ := hall.stops hget
    obtain ⟨e, hrun⟩ := hall.fails (n := n) hget (congrArg Point.left hpt)
    have hplan : Rep { W with plan := cut k } l := by
      obtain ⟨cs, hg, hrecs⟩ := h
      exact ⟨cs, hg.withPlan (noFail_cut k), hrecs⟩
    have hdir := side.truncate_stops hlru hplan i hbound hk
    rw [hstop] at hdir
    rw [hrun]
    refine iff_of_true ⟨⟨e, rfl⟩, hdir.imp (fun hr => hr.opens hlru hl) fun hr => ?_⟩ (by omega)
    exact hr.2.opens hlru (side.keep_wf hl hi)
  · rw [hleads.passes_faultAt (by omega)]
    rcases Nat.eq_zero_or_pos (k - ps.length) with h0 | h0
    · rw [h0, swap_of_not_created (hdir ▸ htemp (by omega))]
      exact iff_of_true ⟨⟨.io, rfl⟩, .inl (hdir ▸ (h.recovers hbound).opens hlru hl)⟩ (by omega)
    · obtain ⟨d, m, hd, hrun⟩ :=
        swap_of_not_written (W := W') b name fin (hdir ▸ hd) hfs h0 (by omega) n
      obtain ⟨r, V, hfin, -, hr⟩ := (hcut.torn d m hd).returns rfl
      rw [hrun, hfin]
      refine iff_of_false ?_ (by omega)
      rintro ⟨⟨e, he⟩, hopen⟩
      rcases hr with rfl | hshort
      · cases he
      · exact hopen.elim (hshort.not_opens (side.lastIndex_keep_le hi)) (hshort.not_opens le_rfl)

/-- The segment before the cut cannot be removed, once the other one is there. -/
theorem truncate_sound_iff_remove : ∃ W, runFresh lruSet ⟨1, 1⟩ [.append ⟨[7], by decide⟩,
    .append ⟨[8, 9], by decide⟩] = some ([.done, .done], W)
    ∧ (truncateFront lruSet 2 { W with plan := cut 5 }).1 = .crash
    ∧ Sound lruSet .front ⟨1, [[7], [8, 9]]⟩ 2
      (truncateFront lruSet 2 { W with plan := faultAt 5 (.fail 0) }) := by
  obtain ⟨W, hrun, hW, hl, -⟩ := runFresh_spec lruSet_lawful ⟨1, 1⟩
    [.append ⟨[7], by decide⟩, .append ⟨[8, 9], by decide⟩]
  have hmade : (runFresh lruSet ⟨1, 1⟩ [.append ⟨[7], by decide⟩, .append ⟨[8, 9], by decide⟩]).map
      (fun s => ((truncateFront lruSet 2 { s.2 with plan := cut 5 }).1, s.2.mem.loads 2))
      = some (.crash, 0) := by decide +kernel
  rw [hrun, Option.map_some, Option.some.injEq, Prod.mk.injEq] at hmade
  have hloads : W.mem.loads 2 = 0 := hmade.2
  exact ⟨W, hrun, hmade.1, (truncate_sound_iff lruSet_lawful hW hl (by decide) .front 2 5 0 hmade.1
    (by omega)).mpr (by omega)⟩

/-- What is left of the first segment cannot be written, and the truncation reports success; the
log that is then opened panics where it should read the entry. -/
theorem not_sound_write : ∃ W, runFresh lruSet ⟨3, 1⟩ [.append ⟨[7], by decide⟩,
    .append ⟨[8], by decide⟩, .append ⟨[9], by decide⟩] = some ([.done, .done, .done], W)
    ∧ (truncateFront lruSet 2 { W with plan := cut 1 }).1 = .crash
    ∧ (truncateFront lruSet 2 { W with plan := faultAt 1 (.fail 0) }).1 = .ok ()
    ∧ (read lruSet 2 (create ⟨3, 1⟩ ⟨WAL.new ⟨3, 1⟩,
      (truncateFront lruSet 2 { W with plan := faultAt 1 (.fail 0) }).2.dir, []⟩).2).1 = .panic
    ∧ ¬ Sound lruSet .front ⟨1, [[7], [8], [9]]⟩ 2
      (truncateFront lruSet 2 { W with plan := faultAt 1 (.fail 0) }) := by
  obtain ⟨W, hrun, -⟩ := runFresh_spec lruSet_lawful ⟨3, 1⟩
    [.append ⟨[7], by decide⟩, .append ⟨[8], by decide⟩, .append ⟨[9], by decide⟩]
  have hfail : (runFresh lruSet ⟨3, 1⟩ [.append ⟨[7], by decide⟩, .append ⟨[8], by decide⟩,
      .append ⟨[9], by decide⟩]).map (fun s =>
      let r := truncateFront lruSet 2 { s.2 with plan := faultAt 1 (.fail 0) }
      ((truncateFront lruSet 2 { s.2 with plan := cut 1 }).1, r.1,
        (read lruSet 2 (create ⟨3, 1⟩ ⟨WAL.new ⟨3, 1⟩, r.2.dir, []⟩).2).1))
      = some (.crash, .ok (), .panic) := by decide +kernel
  rw [hrun, Option.map_some, Option.some.injEq, Prod.mk.injEq, Prod.mk.injEq] at hfail
  refine ⟨W, hrun, hfail.1, hfail.2.1, hfail.2.2, ?_⟩
  rintro ⟨⟨e, he⟩, -⟩
  rw [hfail.2.1] at he
  cases he

end Sound

end Rhosus.Wal

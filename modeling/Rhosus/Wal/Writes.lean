import Rhosus.Wal.Reads

/-!
# Writing the log

A write appends its record to the tail's buffer and to its file, and cycles the tail for a new
segment once it has grown to the segment size. `write_trace` lists its file operations: those of a
cycle, if a truncation has left the tail over the size, the append, and those of a cycle, if the
tail is then full. The log on disk is the one before the write or the one after it wherever the
machine stops (`write_spec`).

The directory may have other files than the log's (`Opened`), which a write leaves alone.
-/

namespace Rhosus.Wal

variable {lru : SetEvicted ℕ Ptr} {W : World Name WAL} {first : ℕ} {cs : List Chunk}
variable {rest : List (FileName × Bytes)}
variable {Q : Except Err Unit → World Name WAL → Prop} {C : Dir Name → Prop}

/-- The directory holds the log `l`, and nothing that is not its own. -/
def Clean (d : Dir Name) (l : Log) : Prop :=
  ∃ cs, Layout l.first cs ∧ records cs = l.entries ∧ Holds d (segFiles cs)

/-- A new segment for the chunk at `i`, past those there are. -/
def WAL.grow (w : WAL) (i : ℕ) : WAL := { w with
  heap := Function.update w.heap w.next ⟨segmentName i, i, [], []⟩
  next := w.next + 1
  segments := w.segments ++ [w.next]
  sfile := some (segmentName i) }

theorem Segs.grow {w : WAL} (h : Segs w cs cs.length) (i : ℕ) :
    Segs (w.grow i) (cs ++ [⟨i, []⟩]) cs.length := by
  have hnew : ∀ p ∈ w.segments, p ≠ w.next := fun p hp => (h.fresh p hp).ne
  refine ⟨by simp [WAL.grow, h.length], ?_, ?_, ?_, ?_, h.keys⟩
  · refine List.nodup_append.mpr ⟨h.nodup, List.nodup_singleton _, fun p hp q hq => ?_⟩
    rw [List.mem_singleton.mp hq]
    exact hnew p hp
  · intro p hp
    rcases List.mem_append.mp hp with hp | hp
    · exact Nat.lt_succ_of_lt (h.fresh p hp)
    · rw [List.mem_singleton.mp hp]
      exact Nat.lt_succ_self _
  · intro k p c hp hc
    change (w.segments ++ [w.next])[k]? = some p at hp
    by_cases hk : k < cs.length
    · rw [List.getElem?_append_left (by rw [h.length]; exact hk)] at hp
      rw [List.getElem?_append_left hk] at hc
      change Held (Function.update w.heap w.next _ p) c _
      rw [Function.update_of_ne (hnew p (List.mem_of_getElem? hp))]
      exact h.seg k p c hp hc
    · obtain rfl : k = cs.length := by
        have := (List.getElem?_eq_some_iff.mp hc).1
        simp only [List.length_append, List.length_singleton] at this
        omega
      rw [← h.length, List.getElem?_concat_length] at hp
      rw [List.getElem?_concat_length] at hc
      cases hp
      cases hc
      change Held (Function.update w.heap w.next _ w.next) _ _
      rw [Function.update_self]
      exact ⟨rfl, rfl, .inl ⟨rfl, rfl⟩⟩
  · intro k p hkp
    obtain ⟨hp, hk⟩ := h.cached k p hkp
    exact ⟨by simpa [WAL.grow, List.getElem?_append_left (h.length ▸ hk)] using hp, hk⟩

theorem createSegment_ends {i : ℕ} (hplan : NoFail W.plan)
    (hC : C W.dir)
    (h : ∀ pl, NoFail pl → Q (.ok ()) ⟨W.mem.grow i, W.dir.insert (segmentName i) [], pl⟩) :
    Ends (createSegment i) W Q C :=
  .bind (.modifyMem (.bind (.fileOp hplan rfl hC fun pl hpl => .modifyMem (h pl hpl))))

/-- The record `d` at the end of the buffer of the segment `p`, which holds `ds`. -/
def WAL.extend (w : WAL) (p : Ptr) (ds : List Bytes) (d : Bytes) : WAL :=
  w.store p { w.heap p with ebuf := encode (ds ++ [d]), epos := positions (ds ++ [d]) }

theorem WAL.extend_eq {w : WAL} {p : Ptr} {t : Chunk} (h : Loaded (w.heap p) t) (d : Bytes) :
    w.store p ⟨(w.heap p).path, (w.heap p).index, encode (t.recs ++ [d]),
      (w.heap p).epos ++ [⟨(encode t.recs).length, (encode (t.recs ++ [d])).length⟩]⟩
      = w.extend p t.recs d := by
  rw [h.2, ← (appendBinaryEntry_encode t.recs d).2]
  rfl

theorem Segs.extend {w : WAL} {n : ℕ} {init : List Chunk} {t : Chunk} (h : Segs w (init ++ [t]) n)
    {p : Ptr} (hp : w.segments[init.length]? = some p) (d : Bytes) :
    Segs (w.extend p t.recs d) (init ++ [⟨t.index, t.recs ++ [d]⟩]) n := by
  have hs := h.seg _ p t hp (List.getElem?_concat_length ..)
  have hset := h.set (c := ⟨t.index, t.recs ++ [d]⟩) hp (s := { w.heap p with
    ebuf := encode (t.recs ++ [d])
    epos := positions (t.recs ++ [d]) }) ⟨hs.path, hs.index, .inl ⟨rfl, rfl⟩⟩
  rwa [List.set_append_right _ _ le_rfl, Nat.sub_self, List.set_cons_zero] at hset

section Traces

theorem closeTail_trace {n : Name} (hs : W.mem.sfile = some n) :
    Trace closeTail W [.clean { W.mem with sfile := none } W.dir] (.ok ())
      ⟨{ W.mem with sfile := none }, W.dir, W.plan⟩ := by
  refine .getMem ?_
  simp only [hs]
  exact .modifyMem .touch

theorem createSegment_trace (i : ℕ) :
    Trace (createSegment i) W [.clean { W.mem with sfile := none } W.dir] (.ok ())
      ⟨W.mem.grow i, W.dir.insert (segmentName i) [], W.plan⟩ :=
  .modifyMem (.bind_one (.fileOp rfl) ⟨by simp, fun _ => rfl⟩)

/-- A write to the tail file that fails leaves some of its bytes there. -/
theorem sfileWrite_trace {n : Name} {c : Bytes} (hs : W.mem.sfile = some n)
    (hf : W.dir.lookup n = some c) (bs : Bytes) :
    Trace (sfileWrite bs) W [⟨W.mem, W.dir, some fun k => W.dir.insert n (c ++ bs.take k)⟩] (.ok ())
      ⟨W.mem, W.dir.insert n (c ++ bs), W.plan⟩ := by
  refine .getMem ?_
  simp only [hs]
  exact .append hf bs

/-- The log with a new tail, `p` being the old one. -/
def cycled (lru : SetEvicted ℕ Ptr) (W : World Name WAL) (p : Ptr) : World Name WAL :=
  ⟨({ W.mem with sfile := none }.push lru (W.mem.segments.length - 1) p).grow (W.mem.lastIndex + 1),
    W.dir.insert (segmentName (W.mem.lastIndex + 1)) [], W.plan⟩

/-- The operations of `cycle`: the sync and the close of the old tail, and the new one's file. -/
def cyclePoints (lru : SetEvicted ℕ Ptr) (W : World Name WAL) (p : Ptr) : List (Point Name WAL) :=
  [.clean W.mem W.dir, .clean { W.mem with sfile := none } W.dir,
    .clean { { W.mem with sfile := none }.push lru (W.mem.segments.length - 1) p with
      sfile := none } W.dir]

theorem cycle_trace (lru : SetEvicted ℕ Ptr) {n : Name} {p : Ptr} (hs : W.mem.sfile = some n)
    (hp : W.mem.segments[W.mem.segments.length - 1]? = some p) :
    Trace (cycle lru) W (cyclePoints lru W p) (.ok ()) (cycled lru W p) := by
  refine .getMem ?_
  simp only [hs]
  exact .bind_one .touch (.bind_one (closeTail_trace hs)
    (.bind_nil (pushCache_trace hp) (createSegment_trace _)))

/-- The log with the record `d` under the index `i` in its tail `p`, whose file `n` holds `ds`. -/
def extended (W : World Name WAL) (p : Ptr) (n : Name) (ds : List Bytes) (i : ℕ) (d : Bytes) :
    World Name WAL :=
  ⟨{ W.mem.extend p ds d with lastIndex := i }, W.dir.insert n (encode (ds ++ [d])), W.plan⟩

/-- The tail is full once it has the records `ds`. -/
def Full (W : World Name WAL) (ds : List Bytes) : Prop :=
  W.mem.opts.segmentSize ≤ (encode ds).length

instance (W : World Name WAL) (ds : List Bytes) : Decidable (Full W ds) :=
  inferInstanceAs (Decidable (_ ≤ _))

/-- The operations of `appendBatch`: the append, and a cycle if the tail is then full. -/
def appendPoints (lru : SetEvicted ℕ Ptr) (W : World Name WAL) (p : Ptr) (n : Name)
    (ds : List Bytes) (i : ℕ) (d : Bytes) : List (Point Name WAL) :=
  ⟨W.mem.extend p ds d, W.dir,
    some fun k => W.dir.insert n (encode ds ++ (encodeEntry d).take k)⟩ ::
    if Full W (ds ++ [d]) then cyclePoints lru (extended W p n ds i d) p else []

def appended (lru : SetEvicted ℕ Ptr) (W : World Name WAL) (p : Ptr) (n : Name)
    (ds : List Bytes) (i : ℕ) (d : Bytes) : World Name WAL :=
  if Full W (ds ++ [d]) then cycled lru (extended W p n ds i d) p else extended W p n ds i d

theorem getElem?_length_sub_one {α : Type} {xs : List α} {x : α} (h : xs.getLast? = some x) :
    xs[xs.length - 1]? = some x := by rwa [List.getLast?_eq_getElem?] at h

theorem guarded_leads {α : Type} {m : WalM α} {ps : List (Point Name WAL)}
    {g : List Fault → Outcome Err α × World Name WAL} (h1 : W.mem.corrupt = false)
    (h2 : W.mem.closed = false) (h : Leads m W ps g) : Leads (guarded m) W ps g := by
  refine .getMem ?_
  simp only [h1, h2, Bool.false_eq_true, ↓reduceIte]
  exact h

theorem guarded_trace {α : Type} {m : WalM α} {ps : List (Point Name WAL)} {o : Outcome Err α}
    {W' : World Name WAL} (h1 : W.mem.corrupt = false) (h2 : W.mem.closed = false)
    (h : Trace m W ps o W') : Trace (guarded m) W ps o W' :=
  ⟨h.1, guarded_leads h1 h2 h.2⟩

theorem appendBatch_trace {p : Ptr} {n : Name} {ds : List Bytes} {c : Chunk}
    (hp : W.mem.segments.getLast? = some p) (hload : Loaded (W.mem.heap p) c) (hds : c.recs = ds)
    (hs : W.mem.sfile = some n) (hfile : W.dir.lookup n = some (encode ds)) (i : ℕ) (d : Bytes) :
    Trace (appendBatch lru (Batch.write ⟨[], []⟩ i d)) W (appendPoints lru W p n ds i d) (.ok ())
      (appended lru W p n ds i d) := by
  subst hds
  have hlen : (encode c.recs).length < (encode (c.recs ++ [d])).length := by
    have := encodeEntry_length_pos d
    simp only [encode_append, encode_cons, encode_nil, List.length_append, List.append_nil]
    omega
  have hdrop : (encode (c.recs ++ [d])).drop (encode c.recs).length = encodeEntry d := by
    rw [encode_append, List.drop_left, encode_cons, encode_nil, List.append_nil]
  have hnew : encode c.recs ++ encodeEntry d = encode (c.recs ++ [d]) := by simp
  have hbuf : ((W.mem.extend p c.recs d).heap p).ebuf = encode (c.recs ++ [d]) := by
    simp [WAL.extend, WAL.store]
  have hslice : sliceTo? d d.length = some d := by simp [sliceTo?]
  have hwrite := sfileWrite_trace (W := ⟨W.mem.extend p c.recs d, W.dir, W.plan⟩) hs hfile
    (encodeEntry d)
  rw [hnew] at hwrite
  refine .getMem (.orPanic hp ?_)
  simp only [Batch.write, List.nil_append, writeEntries, bind_assoc]
  refine .getMem (.orPanic hp (.orPanic hslice ?_))
  simp only [hload.1, (appendBinaryEntry_encode c.recs d).1]
  refine .modifyMem ?_
  rw [WAL.extend_eq hload]
  by_cases hfull : Full W (c.recs ++ [d])
  · have hcycle := cycle_trace lru (W := extended W p n c.recs i d) hs
      (getElem?_length_sub_one hp)
    rw [if_pos (show _ ≤ _ from hfull), appendPoints, if_pos hfull, appended, if_pos hfull]
    simp only [hdrop, bind_assoc, pure_bind]
    refine .bind_one hwrite (.modifyMem (hcycle.bind_last ?_))
    refine .getMem (.orPanic (List.getLast?_concat ..) ?_)
    rw [if_neg (by simp [cycled, WAL.grow])]
    exact .pure
  · rw [if_neg (show ¬ _ ≤ _ from hfull), appendPoints, if_neg hfull, appended, if_neg hfull]
    simp only [pure_bind]
    refine .getMem (.orPanic hp ?_)
    rw [if_pos (by rw [hbuf]; exact hlen), hbuf, hdrop]
    exact .bind_one hwrite (.orPanic rfl ⟨by simp, fun _ => rfl⟩)

/-- What a write relies on, at whatever index: the tail `p` is open, and its buffer and its file `n`
hold the records `ds`. -/
structure Writable (W : World Name WAL) (p : Ptr) (n : Name) (ds : List Bytes) : Prop where
  corrupt : W.mem.corrupt = false
  closed : W.mem.closed = false
  last : W.mem.segments.getLast? = some p
  load : (W.mem.heap p).ebuf = encode ds ∧ (W.mem.heap p).epos = positions ds
  sfile : W.mem.sfile = some n
  file : W.dir.lookup n = some (encode ds)

namespace Writable

variable {p : Ptr} {n : Name} {ds : List Bytes}

theorem cycled (lru : SetEvicted ℕ Ptr) (h : Writable W p n ds) :
    Writable (cycled lru W p) W.mem.next (segmentName (W.mem.lastIndex + 1)) [] := by
  unfold Wal.cycled
  rw [WAL.push_eq]
  refine ⟨h.corrupt, h.closed, List.getLast?_concat .., ?_, rfl, AList.lookup_insert _⟩
  simp [WAL.grow, positions, positionsFrom]

theorem extended (h : Writable W p n ds) (i : ℕ) (d : Bytes) :
    Writable (extended W p n ds i d) p n (ds ++ [d]) := by
  refine ⟨h.corrupt, h.closed, h.last, ?_, h.sfile, AList.lookup_insert _⟩
  simp [Wal.extended, WAL.extend, WAL.store]

theorem appended (lru : SetEvicted ℕ Ptr) (h : Writable W p n ds) (i : ℕ) (d : Bytes) :
    (∃ p' n' ds', Writable (appended lru W p n ds i d) p' n' ds')
      ∧ (Wal.appended lru W p n ds i d).mem.lastIndex = i := by
  unfold Wal.appended
  split_ifs
  · refine ⟨⟨_, _, _, (h.extended i d).cycled lru⟩, ?_⟩
    unfold Wal.cycled
    rw [WAL.push_eq]
    rfl
  · exact ⟨⟨_, _, _, h.extended i d⟩, rfl⟩

theorem write_trace_of_room (lru : SetEvicted ℕ Ptr) (h : Writable W p n ds)
    (hroom : (encode ds).length ≤ W.mem.opts.segmentSize) (i : ℕ) (d : Bytes) :
    Trace (write lru i d) W (appendPoints lru W p n ds i d) (.ok ())
      (Wal.appended lru W p n ds i d) := by
  refine guarded_trace h.corrupt h.closed (.getMem (.orPanic h.last ?_))
  rw [if_neg (by rw [h.load.1]; omega)]
  exact appendBatch_trace (c := ⟨0, ds⟩) h.last h.load rfl h.sfile h.file i d

/-- A truncation may leave the tail over the segment size: a write then cycles it first. -/
theorem write_trace_of_over (lru : SetEvicted ℕ Ptr) (h : Writable W p n ds)
    (hover : W.mem.opts.segmentSize < (encode ds).length) (i : ℕ) (d : Bytes) :
    Trace (write lru i d) W (cyclePoints lru W p ++ appendPoints lru (Wal.cycled lru W p)
        W.mem.next (segmentName (W.mem.lastIndex + 1)) [] i d) (.ok ())
      (Wal.appended lru (Wal.cycled lru W p) W.mem.next (segmentName (W.mem.lastIndex + 1)) [] i
        d) := by
  refine guarded_trace h.corrupt h.closed (.getMem (.orPanic h.last ?_))
  rw [if_pos (by rw [h.load.1]; exact hover)]
  refine .bind (cycle_trace lru h.sfile (getElem?_length_sub_one h.last)) ?_
  have hnew := h.cycled lru
  exact appendBatch_trace (c := ⟨0, []⟩) hnew.last hnew.load rfl hnew.sfile hnew.file i d

/-- A write that succeeds does what it does where nothing fails. -/
theorem write_ok (lru : SetEvicted ℕ Ptr) (h : Writable W p n ds) {i : ℕ} {d : Bytes}
    {W' : World Name WAL} (hok : write lru i d W = (.ok (), W')) :
    write lru i d { W with plan := [] } = (.ok (), { W' with plan := [] }) := by
  have hcycle : ∀ (V : World Name WAL) (q : Ptr), ∀ pt ∈ cyclePoints lru V q, pt.left.isSome := by
    intro V q pt hpt
    simp only [cyclePoints, List.mem_cons, List.not_mem_nil, or_false] at hpt
    rcases hpt with rfl | rfl | rfl <;> rfl
  have happend : ∀ (V : World Name WAL) (q : Ptr) (m : Name) (es : List Bytes),
      ∀ pt ∈ appendPoints lru V q m es i d, pt.left.isSome := by
    intro V q m es pt hpt
    rcases List.mem_cons.mp hpt with rfl | hpt
    · rfl
    · split_ifs at hpt
      · exact hcycle _ _ pt hpt
      · cases hpt
  have key : ∀ {ps : List (Point Name WAL)} {V : World Name WAL},
      Trace (write lru i d) W ps (.ok ()) V → (∀ pt ∈ ps, pt.left.isSome) →
        write lru i d { W with plan := [] } = (.ok (), { W' with plan := [] }) := by
    intro ps V htr hleft
    have hrun := htr.2 W.plan
    rw [hok] at hrun
    obtain ⟨q, hq⟩ := hrun.of_ok hleft rfl
    rw [htr.2.runs, (Prod.mk.inj hq).2]
  by_cases hroom : (encode ds).length ≤ W.mem.opts.segmentSize
  · exact key (h.write_trace_of_room lru hroom i d) (happend _ _ _ _)
  · refine key (h.write_trace_of_over lru (not_le.mp hroom) i d) fun pt hpt => ?_
    rcases List.mem_append.mp hpt with hpt | hpt
    · exact hcycle _ _ pt hpt
    · exact happend _ _ _ _ pt hpt

end Writable

end Traces

section Tidied

variable {w : WAL} {p : Ptr}

/-- The old tail is in the cache by the time it is followed by another segment. -/
theorem Tidy.grow (h : Tidy w)
    (hlast : ∀ q, w.segments[w.segments.length - 1]? = some q →
      (w.segments.length - 1, q) ∈ w.scache) (i : ℕ) : Tidy (w.grow i) := by
  intro k q hq hk hload
  change (w.segments ++ [w.next])[k]? = some q at hq
  have hlt : k < w.segments.length := by
    simpa [WAL.grow] using hk
  rw [List.getElem?_append_left hlt] at hq
  by_cases hnew : q = w.next
  · refine absurd ?_ hload
    change (Function.update w.heap w.next _ q).epos = []
    rw [hnew, Function.update_self]
  · change (Function.update w.heap w.next _ q).epos ≠ [] at hload
    rw [Function.update_of_ne hnew] at hload
    by_cases hk' : k + 1 < w.segments.length
    · exact h k q hq hk' hload
    · obtain rfl : k = w.segments.length - 1 := by omega
      exact .inr (hlast q hq)

theorem Tidy.cycled (hlru : lru.Lawful) (h : Tidy W.mem) (hnd : W.mem.segments.Nodup)
    (hp : W.mem.segments[W.mem.segments.length - 1]? = some p) : Tidy (cycled lru W p).mem := by
  refine Tidy.grow ((h.but (some p)).push (w := { W.mem with sfile := none }) hlru hnd hp)
    (fun q hq => ?_) _
  rw [WAL.push_segments] at hq ⊢
  obtain rfl : p = q := Option.some.inj (hp.symm.trans hq)
  obtain ⟨rest, hst, -⟩ :=
    hlru.stored W.mem.opts.segmentCacheSize W.mem.scache (W.mem.segments.length - 1) p
  rw [WAL.push_scache]
  exact hst ▸ List.mem_cons_self

theorem Tidy.extend (h : Tidy w) (hnd : w.segments.Nodup)
    (hp : w.segments[w.segments.length - 1]? = some p) (ds : List Bytes) (d : Bytes) :
    Tidy (w.extend p ds d) := by
  intro k q hq hk hload
  change w.segments[k]? = some q at hq
  change k + 1 < w.segments.length at hk
  have hqp : q ≠ p := by
    rintro rfl
    have := (List.getElem?_inj (List.getElem?_eq_some_iff.mp hq).1 hnd).mp (hq.trans hp.symm)
    omega
  change (Function.update w.heap p _ q).epos ≠ [] at hload
  rw [Function.update_of_ne hqp] at hload
  exact h k q hq hk hload

theorem Tidy.appended (hlru : lru.Lawful) (h : Tidy W.mem) (hnd : W.mem.segments.Nodup)
    (hp : W.mem.segments[W.mem.segments.length - 1]? = some p) (n : Name) (ds : List Bytes) (i : ℕ)
    (d : Bytes) : Tidy (appended lru W p n ds i d).mem := by
  have hext : Tidy (extended W p n ds i d).mem := h.extend hnd hp ds d
  unfold Wal.appended
  split_ifs
  · exact hext.cycled hlru hnd hp
  · exact hext

end Tidied

/-- The directory holds the log `l`, and the files `rest` beside it. -/
def CleanBeside (d : Dir Name) (l : Log) (rest : List (FileName × Bytes)) : Prop :=
  ∃ cs, Layout l.first cs ∧ records cs = l.entries ∧ Holds d (segFiles cs ++ rest)

theorem cleanBeside_nil {d : Dir Name} {l : Log} : CleanBeside d l [] ↔ Clean d l := by
  simp only [CleanBeside, Clean, List.append_nil]

namespace Opened

theorem clean (h : Opened W first cs rest) : CleanBeside W.dir ⟨first, records cs⟩ rest :=
  ⟨cs, h.layout, rfl, h.files⟩

theorem tail (h : Opened W first cs rest) : ∃ t p, cs[cs.length - 1]? = some t
    ∧ W.mem.segments[cs.length - 1]? = some p ∧ W.mem.segments.getLast? = some p
    ∧ Loaded (W.mem.heap p) t := by
  obtain ⟨t, ht, -⟩ := h.layout.getLast
  obtain ⟨p, hp, hp'⟩ := getLast?_segments h.mem.segs h.layout.ne
  exact ⟨t, p, ht, hp', hp, (h.mem.segs.seg _ p t hp' ht).buf.resolve_right fun hb => hb.1 le_rfl⟩

/-- A file of the log put in, in place of the one with its name if there is one. -/
theorem holds_insert {d : Dir Name} {i : ℕ} {b : Bytes} {fs gs : List (FileName × Bytes)}
    (hd : Holds d (fs ++ rest)) (hrest : ∀ x ∈ rest, x.1.rank ≠ 0)
    (hgs : ∀ x, x ∈ gs ↔ x = (.seg i, b) ∨ x ∈ fs ∧ x.1 ≠ .seg i) :
    Holds (d.insert (segmentName i) b) (gs ++ rest) := by
  refine hd.insert (f := .seg i) (b := b) fun x => ?_
  have hne : x ∈ rest → x.1 ≠ .seg i := fun hx he => hrest x hx (by rw [he]; rfl)
  rw [List.mem_append, List.mem_append, hgs x]
  tauto

theorem cycled (hlru : lru.Lawful) (h : Opened W first cs rest) (hfull : ∀ c ∈ cs, c.recs ≠ [])
    {p : Ptr} (hp : W.mem.segments[cs.length - 1]? = some p) :
    Opened (cycled lru W p) first (cs ++ [⟨first + (records cs).length, []⟩]) rest := by
  have hlen : 0 < cs.length := List.length_pos_iff.mpr h.layout.ne
  have hw : Segs { W.mem with sfile := none } cs cs.length := by
    have hs := h.mem.segs.mono (Nat.sub_le cs.length 1)
    exact ⟨hs.length, hs.nodup, hs.fresh, hs.seg, hs.cached, hs.keys⟩
  have hs := (hw.push hlru hp (by omega)).1.grow (W.mem.lastIndex + 1)
  unfold Wal.cycled
  rw [h.mem.segs.length]
  rw [WAL.push_eq] at hs ⊢
  rw [h.mem.lastIndex] at hs ⊢
  refine ⟨h.layout.snoc hfull, ⟨?_, h.mem.corrupt, h.mem.closed, h.mem.firstIndex, ?_, ?_⟩, ?_,
    h.other, h.plan⟩
  · simpa using hs
  · simpa [WAL.grow] using h.mem.lastIndex
  · simp [WAL.grow]
  · refine holds_insert h.files h.other fun x => ?_
    have hne := fun hx => segFiles_ne (x := x) (fun c hc => (h.layout.index_lt_stop hfull hc).ne) hx
    simp only [segFiles_append, segFiles_cons, segFiles_nil, List.mem_append, List.mem_singleton,
      segFile, encode_nil]
    tauto

/-- As `cycled`, for the write that goes on with the new tail. -/
theorem cycled_tail (hlru : lru.Lawful) (h : Opened W first cs rest)
    (hfull : ∀ c ∈ cs, c.recs ≠ []) {p : Ptr} (hp : W.mem.segments[cs.length - 1]? = some p) :
    ∃ cs', Opened (Wal.cycled lru W p) first cs' rest ∧ records cs' = records cs
      ∧ cs'[cs'.length - 1]? = some ⟨W.mem.lastIndex + 1, []⟩
      ∧ (Wal.cycled lru W p).mem.segments[cs'.length - 1]? = some W.mem.next := by
  refine ⟨_, h.cycled hlru hfull hp, by simp, by simp [h.mem.lastIndex], ?_⟩
  rw [Wal.cycled, WAL.push_eq, List.length_append, List.length_singleton, Nat.add_sub_cancel,
    ← h.mem.segs.length]
  exact List.getElem?_concat_length ..

theorem extended {init : List Chunk} {t : Chunk} (h : Opened W first (init ++ [t]) rest) {p : Ptr}
    (hp : W.mem.segments[init.length]? = some p) {d : Bytes} (hd : Fits d) :
    Opened (extended W p (segmentName t.index) t.recs
      (first + (records (init ++ [t])).length) d) first (init ++ [⟨t.index, t.recs ++ [d]⟩])
      rest := by
  refine ⟨h.layout.extend hd, ⟨?_, h.mem.corrupt, h.mem.closed, h.mem.firstIndex, ?_, ?_⟩, ?_,
    h.other, h.plan⟩
  · have hs := h.mem.segs.extend hp d
    simp only [List.length_append, List.length_singleton] at hs ⊢
    exact ⟨hs.length, hs.nodup, hs.fresh, hs.seg, hs.cached, hs.keys⟩
  · simp only [Wal.extended, records_append, records_cons, records_nil, List.length_append,
      List.length_singleton]
    omega
  · intro t' ht'
    have := h.mem.sfile t (by simp)
    simp only [List.length_append, List.length_singleton, Nat.add_sub_cancel,
      List.getElem?_concat_length, Option.some.injEq] at ht'
    rw [← ht']
    exact this
  · refine holds_insert h.files h.other fun x => ?_
    have hne : x ∈ segFiles init → x.1 ≠ .seg t.index :=
      segFiles_ne fun a ha => (h.layout.index_lt_tail ha).ne
    have ht' : x = segFile t → x.1 = .seg t.index := fun hx => by rw [hx]; rfl
    simp only [segFiles_append, segFiles_cons, segFiles_nil, List.mem_append, List.mem_singleton]
    change _ ∨ x = (.seg t.index, encode (t.recs ++ [d])) ↔ _
    tauto

section Append

variable {t : Chunk} {p : Ptr} {d : Bytes}

theorem extended_tail (h : Opened W first cs rest) (ht : cs[cs.length - 1]? = some t)
    (hp : W.mem.segments[cs.length - 1]? = some p) (hd : Fits d) :
    ∃ cs', Opened (Wal.extended W p (segmentName t.index) t.recs (first + (records cs).length) d)
        first cs' rest
      ∧ records cs' = records cs ++ [d] ∧ cs'.length = cs.length
      ∧ cs'[cs'.length - 1]? = some ⟨t.index, t.recs ++ [d]⟩ := by
  obtain ⟨init, t', rfl⟩ := (List.eq_nil_or_concat' cs).resolve_left h.layout.ne
  simp only [List.length_append, List.length_singleton, Nat.add_sub_cancel,
    List.getElem?_concat_length, Option.some.injEq] at ht hp
  subst ht
  exact ⟨_, h.extended hp hd, by simp, by simp, by simp⟩

theorem appended (hlru : lru.Lawful) (h : Opened W first cs rest)
    (ht : cs[cs.length - 1]? = some t) (hp : W.mem.segments[cs.length - 1]? = some p)
    (hd : Fits d) :
    ∃ cs', Opened (appended lru W p (segmentName t.index) t.recs (first + (records cs).length) d)
        first cs' rest ∧ records cs' = records cs ++ [d] := by
  obtain ⟨cs', hW, hrecs, hlen, hlast⟩ := h.extended_tail ht hp hd
  unfold Wal.appended
  split_ifs
  · have hfull := hW.layout.full_of_tail hlast (by simp)
    refine ⟨_, hW.cycled hlru hfull (by rw [hlen]; exact hp), ?_⟩
    rw [records_append, hrecs]
    simp
  · exact ⟨cs', hW, hrecs⟩

/-- Wherever an append is stopped, the log is the one before it or the one after it. -/
theorem appendPoints_clean (lru : SetEvicted ℕ Ptr) (h : Opened W first cs rest)
    (ht : cs[cs.length - 1]? = some t)
    (hp : W.mem.segments[cs.length - 1]? = some p) (hd : Fits d) :
    ∀ pt ∈ appendPoints lru W p (segmentName t.index) t.recs (first + (records cs).length) d,
      CleanBeside pt.dir ⟨first, records cs⟩ rest
        ∨ CleanBeside pt.dir ⟨first, records cs ++ [d]⟩ rest := by
  obtain ⟨cs', hW, hrecs, -⟩ := h.extended_tail ht hp hd
  have hclean := hW.clean
  rw [hrecs] at hclean
  intro pt hpt
  rcases List.mem_cons.mp hpt with rfl | hpt
  · exact .inl h.clean
  · split_ifs at hpt
    · simp only [cyclePoints, List.mem_cons, List.not_mem_nil, or_false] at hpt
      rcases hpt with rfl | rfl | rfl <;> exact .inr hclean
    · simp at hpt

theorem writable (h : Opened W first cs rest) (ht : cs[cs.length - 1]? = some t)
    (hp : W.mem.segments.getLast? = some p) (hload : Loaded (W.mem.heap p) t) :
    Writable W p (segmentName t.index) t.recs :=
  ⟨h.mem.corrupt, h.mem.closed, hp, hload, h.mem.sfile t ht, h.file ht⟩

end Append

theorem write_spec (hlru : lru.Lawful) (h : Opened W first cs rest) {d : Bytes} (hd : Fits d) :
    Ends (write lru (first + (records cs).length) d) W
      (fun r W' => r = .ok () ∧ (Tidy W.mem → Tidy W'.mem) ∧ ∃ cs', Opened W' first cs' rest
        ∧ records cs' = records cs ++ [d])
      (fun dir => CleanBeside dir ⟨first, records cs⟩ rest
        ∨ CleanBeside dir ⟨first, records cs ++ [d]⟩ rest) := by
  obtain ⟨t, p, ht, hp, hp', hload⟩ := h.tail
  by_cases hroom : (encode t.recs).length ≤ W.mem.opts.segmentSize
  · refine ((h.writable ht hp' hload).write_trace_of_room lru hroom _ d).ends (r := .ok ()) h.plan
      (h.appendPoints_clean lru ht hp hd) fun pl hpl => ⟨rfl, fun htidy => ?_, ?_⟩
    · exact htidy.appended hlru h.mem.segs.nodup (getElem?_length_sub_one hp') _ _ _ _
    obtain ⟨cs', hW, hrecs⟩ := h.appended hlru ht hp hd
    exact ⟨cs', ⟨hW.layout, hW.mem, hW.files, hW.other, hpl⟩, hrecs⟩
  · have hover := not_le.mp hroom
    have hfull : ∀ c ∈ cs, c.recs ≠ [] := by
      refine h.layout.full_of_tail ht fun ht' => ?_
      simp [ht'] at hover
    obtain ⟨cs', hW, hrecs, hlast, hnew⟩ := h.cycled_tail hlru hfull hp
    have hend := hW.appended hlru hlast hnew hd
    have hpts := hW.appendPoints_clean lru hlast hnew hd
    rw [hrecs] at hend hpts
    have htrace := (h.writable ht hp' hload).write_trace_of_over lru hover
      (first + (records cs).length) d
    refine htrace.ends (r := .ok ()) h.plan (fun pt hpt => ?_)
      fun pl hpl => ⟨rfl, fun htidy => ?_, ?_⟩
    · rcases List.mem_append.mp hpt with hpt | hpt
      · simp only [cyclePoints, List.mem_cons, List.not_mem_nil, or_false] at hpt
        rcases hpt with rfl | rfl | rfl <;> exact .inl h.clean
      · exact hpts pt hpt
    · rw [← hW.mem.segs.length] at hnew
      exact (htidy.cycled hlru h.mem.segs.nodup (getElem?_length_sub_one hp')).appended hlru
        hW.mem.segs.nodup hnew _ _ _ _
    · obtain ⟨cs', hW', hrecs'⟩ := hend
      exact ⟨cs', ⟨hW'.layout, hW'.mem, hW'.files, hW'.other, hpl⟩, hrecs'⟩

end Opened

end Rhosus.Wal

import Rhosus.Wal.Refine

/-!
# Writes that fail

A write may fail at the append, or in one of the cycles around it. What the log is then good for
depends on the operation. A sync or a close that fails before the append leaves the log as it was,
and so does a close that fails after it, but for the entry it has taken; without an open tail no
later write succeeds (`Stuck`). After these every index keeps its bytes whatever is done next
(`intact_of_write_fails`).

At the append the entry is in the tail's buffer already, where the next entry then follows it and
is read in its place; a sync that fails after the append has the entry on disk, and the next one is
stored under the index after its own; and a file that cannot be created leaves the tail in the
cache, from which it is dropped while it is the tail.
-/

namespace Rhosus.Wal

/-- What a client may do after a write that failed: read, and write at the index after the writes
that succeeded. -/
inductive Later
  | read (i : ℕ)
  | write (d : Record)

section Intact

variable (lru : SetEvicted ℕ Ptr)

/-- One of these, on the open log and on the log of the writes that succeeded. -/
def Later.step : World Name WAL × Log → Later → World Name WAL × Log
  | (W, l), .read i => ((Wal.read lru i W).2, l)
  | (W, l), .write d =>
    match Wal.write lru (l.lastIndex + 1) d W with
    | (.ok _, W') => (W', l.write d)
    | (_, W') => (W', l)

/-- Every index of the log reads its bytes. -/
def ReadsAll (W : World Name WAL) (l : Log) : Prop :=
  ∀ i d, l.get? i = some d → (read lru i W).1 = .ok d

/-- Every index of the log reads its bytes, in memory and after reopening the directory. -/
structure Serves (W : World Name WAL) (l : Log) : Prop where
  memory : ReadsAll lru W l
  disk : l.lastIndex + 2 < 2 ^ 64 → ∀ opts, ∃ W',
    create opts ⟨WAL.new opts, W.dir, []⟩ = (.ok (), W') ∧ ReadsAll lru W' l

/-- Whatever a client does from here on, every index it has written reads its bytes. -/
def Intact (W : World Name WAL) (l : Log) : Prop :=
  ∀ later : List Later, Serves lru (later.foldl (Later.step lru) (W, l)).1
    (later.foldl (Later.step lru) (W, l)).2

end Intact

variable {lru : SetEvicted ℕ Ptr} {W W' : World Name WAL} {l l' : Log} {first : ℕ}
variable {cs : List Chunk}

theorem intact_of_invariant {I : World Name WAL → Log → Prop}
    (hserves : ∀ W l, I W l → Serves lru W l)
    (hstep : ∀ W l a, I W l → I (Later.step lru (W, l) a).1 (Later.step lru (W, l) a).2)
    (h : I W l) : Intact lru W l := by
  intro later
  induction later generalizing W l with
  | nil => exact hserves W l h
  | cons a later ih => exact ih (hstep W l a h)

/-- The log `l'` has every entry of `l`, under its index. -/
def Log.Within (l l' : Log) : Prop := ∀ i d, l.get? i = some d → l'.get? i = some d

theorem Log.Within.refl (l : Log) : l.Within l := fun _ _ h => h

theorem Log.within_write (l : Log) (d : Bytes) : l.Within (l.write d) := by
  intro i b h
  unfold Log.get? Log.write at *
  split_ifs at h ⊢ with hi
  exact List.getElem?_append_left (List.getElem?_eq_some_iff.mp h).1 ▸ h

theorem Log.read_of_get? {i : ℕ} {d : Bytes} (h : l.get? i = some d) : l.read i = .ok d := by
  rw [Log.read, h]

theorem Rep.readsAll (hlru : lru.Lawful) (h : Rep W l') (hp : W.plan = []) (hl : l.Within l') :
    ReadsAll lru W l := by
  intro i d hd
  obtain ⟨r, W', hrun, -, rfl, -⟩ := (h.read hlru i).returns hp
  rw [hrun, Log.read_of_get? (hl i d hd)]
  rfl

/-- A directory with the log `l'` serves a log within it, once it is reopened. -/
theorem Recovers.disk (hlru : lru.Lawful) {d : Dir Name} (h : Recovers d l') (hl : l.Within l')
    (opts : Options) :
    ∃ W', create opts ⟨WAL.new opts, d, []⟩ = (.ok (), W') ∧ ReadsAll lru W' l := by
  obtain ⟨r, W', hrun, hp, rfl, hW', -⟩ := (create_rep opts h NoFail.nil (WAL.new opts)).returns rfl
  exact ⟨W', hrun, hW'.readsAll hlru hp hl⟩

section Unchanged

theorem Rep.serves (hlru : lru.Lawful) (h : Rep W l) (hp : W.plan = []) (hl : l.Wf) :
    Serves lru W l := by
  refine ⟨h.readsAll hlru hp (.refl l), fun hb opts => ?_⟩
  refine (h.recovers ?_).disk hlru (.refl l) opts
  have := hl.pos
  unfold Log.lastIndex at hb
  omega

/-- An open log stays so, whatever is done to it. -/
theorem Rep.intact (hlru : lru.Lawful) (h : Rep W l) (hp : W.plan = []) (hl : l.Wf) :
    Intact lru W l := by
  refine intact_of_invariant (I := fun W l => Rep W l ∧ W.plan = [] ∧ l.Wf)
    (fun W l h => h.1.serves hlru h.2.1 h.2.2) ?_ ⟨h, hp, hl⟩
  rintro W l (i | d) ⟨h, hp, hl⟩
  · obtain ⟨r, W', hrun, hp', -, hW'⟩ := (h.read hlru i).returns hp
    simp only [Later.step, hrun]
    exact ⟨hW', hp', hl⟩
  · obtain ⟨r, W', hrun, hp', rfl, hW'⟩ := (h.write hlru hl d.2).returns hp
    simp only [Later.step, hrun, Outcome.ofExcept]
    exact ⟨hW', hp', hl.write d⟩

end Unchanged

section Stuck

/-- A log whose tail is closed and has no room: it can be read, and no write succeeds. -/
structure Stuck (W : World Name WAL) (l : Log) : Prop where
  view : ∃ cs t, Viewed W l.first cs ∧ l.Within (readable W l.first cs)
    ∧ cs[cs.length - 1]? = some t ∧ Full W t.recs
  sfile : W.mem.sfile = none
  disk : ∃ l', Clean W.dir l' ∧ l.Within l' ∧ l'.first + l'.entries.length ≤ l.lastIndex + 2
  plan : W.plan = []

theorem Stuck.serves (hlru : lru.Lawful) (h : Stuck W l) : Serves lru W l := by
  obtain ⟨cs, t, hv, hin, -⟩ := h.view
  obtain ⟨l', hclean, hin', hlen⟩ := h.disk
  refine ⟨fun i d hd => ?_, fun hb opts => (hclean.recovers (by omega)).disk hlru hin' opts⟩
  obtain ⟨r, W', hrun, -, rfl, -⟩ := (hv.read_spec hlru i).returns h.plan
  rw [hrun, Log.read_of_get? (hin i d hd)]
  rfl

theorem Stuck.read (hlru : lru.Lawful) (h : Stuck W l) (i : ℕ) : Stuck (read lru i W).2 l := by
  obtain ⟨cs, t, hv, hin, ht, hfull⟩ := h.view
  obtain ⟨r, W', hrun, hp, -, hv', hs, -⟩ := (hv.read_spec hlru i).returns h.plan
  rw [hrun]
  refine ⟨⟨cs, t, hv', ?_, ht, ?_⟩, ?_, ?_, hp⟩
  · unfold readable
    rw [hs.mem]
    exact hin
  · unfold Full
    rw [hs.mem]
    exact hfull
  · rw [hs.mem]
    exact h.sfile
  · rw [hs.dir]
    exact h.disk

/-- An entry more in the tail's buffer is not read: its index is past the last. -/
theorem Viewed.extend (h : Viewed W first cs) {t : Chunk} {p : Ptr}
    (ht : cs[cs.length - 1]? = some t) (hp : W.mem.segments[cs.length - 1]? = some p) {d : Bytes}
    (hd : Fits d) : ∃ cs', Viewed { W with mem := W.mem.extend p t.recs d } first cs'
      ∧ readable { W with mem := W.mem.extend p t.recs d } first cs' = readable W first cs
      ∧ cs'[cs'.length - 1]? = some ⟨t.index, t.recs ++ [d]⟩ := by
  obtain ⟨init, t', rfl⟩ := (List.eq_nil_or_concat' cs).resolve_left h.layout.ne
  simp only [List.length_append, List.length_singleton, Nat.add_sub_cancel,
    List.getElem?_concat_length, Option.some.injEq] at ht hp
  subst ht
  have hsegs := h.segs.extend hp d
  have hlast := h.lastIndex
  have hrecs : records (init ++ [⟨t'.index, t'.recs ++ [d]⟩]) = records (init ++ [t']) ++ [d] := by
    simp
  refine ⟨_, ⟨h.layout.extend hd, ?_, h.corrupt, h.closed, h.firstIndex, ?_, fun {k c} hc hk => ?_,
    h.plan⟩, ?_, by simp⟩
  · simp only [List.length_append, List.length_singleton] at hsegs ⊢
    exact hsegs
  · rw [hrecs, List.length_append, ← add_assoc]
    exact Nat.lt_add_right _ hlast
  · simp only [List.length_append, List.length_singleton] at hk
    rw [List.getElem?_append_left (by omega)] at hc
    refine h.file (k := k) ?_ (by simpa using hk)
    rw [List.getElem?_append_left (by omega)]
    exact hc
  · unfold readable
    rw [hrecs]
    exact congrArg (Log.mk first) (List.take_append_of_le_length
      (show W.mem.lastIndex + 1 - first ≤ _ by omega))

theorem Viewed.tail (h : Viewed W first cs) {t : Chunk} (ht : cs[cs.length - 1]? = some t) :
    ∃ p, W.mem.segments[cs.length - 1]? = some p ∧ W.mem.segments.getLast? = some p
      ∧ Loaded (W.mem.heap p) t := by
  obtain ⟨p, hp, hp'⟩ := getLast?_segments h.segs h.layout.ne
  exact ⟨p, hp', hp, (h.segs.seg _ p t hp' ht).buf.resolve_right fun hb => hb.1 le_rfl⟩

/-- A write to a closed tail fails before any file operation. Its entry may be in the buffer by
then. -/
theorem write_closed (lru : SetEvicted ℕ Ptr) (h1 : W.mem.corrupt = false)
    (h2 : W.mem.closed = false) {t : Chunk} {p : Ptr} (hp : W.mem.segments.getLast? = some p)
    (hload : Loaded (W.mem.heap p) t) (hs : W.mem.sfile = none) (i : ℕ) (d : Bytes) :
    Trace (write lru i d) W [] (.err .io) W
      ∨ Trace (write lru i d) W [] (.err .io) { W with mem := W.mem.extend p t.recs d } := by
  by_cases hover : W.mem.opts.segmentSize < (encode t.recs).length
  · refine .inl (guarded_trace h1 h2 (.getMem (.orPanic hp ?_)))
    rw [if_pos (by rw [hload.1]; exact hover)]
    refine .bind_stop (o := .err .io) ?_ (.inl ⟨_, rfl, rfl⟩)
    refine .getMem ?_
    simp only [hs]
    exact .throw
  · have hslice : sliceTo? d d.length = some d := by simp [sliceTo?]
    have hwrite : ∀ bs, Trace (sfileWrite bs) { W with mem := W.mem.extend p t.recs d } []
        (.err .io) { W with mem := W.mem.extend p t.recs d } := by
      intro bs
      refine .getMem ?_
      rw [show (W.mem.extend p t.recs d).sfile = none from hs]
      exact .throw
    refine .inr (guarded_trace h1 h2 (.getMem (.orPanic hp ?_)))
    rw [if_neg (by rw [hload.1]; exact hover)]
    refine .getMem (.orPanic hp ?_)
    simp only [Batch.write, List.nil_append, writeEntries, bind_assoc]
    refine .getMem (.orPanic hp (.orPanic hslice ?_))
    simp only [hload.1, (appendBinaryEntry_encode t.recs d).1]
    refine .modifyMem ?_
    rw [WAL.extend_eq hload]
    split_ifs
    · simp only [bind_assoc]
      exact .bind_stop (hwrite _) (.inl ⟨_, rfl, rfl⟩)
    · simp only [pure_bind]
      refine .getMem (.orPanic hp ?_)
      have hbuf : ((W.mem.extend p t.recs d).heap p).ebuf = encode (t.recs ++ [d]) := by
        simp [WAL.extend, WAL.store]
      rw [if_pos (by rw [hbuf, encode_append, List.length_append, encode_cons, encode_nil,
        List.append_nil]; exact Nat.lt_add_of_pos_right (encodeEntry_length_pos d))]
      exact .bind_stop (hwrite _) (.inl ⟨_, rfl, rfl⟩)

theorem Stuck.write (lru : SetEvicted ℕ Ptr) (h : Stuck W l) (i : ℕ) (d : Record) :
    ∃ W', Wal.write lru i d W = (.err .io, W') ∧ Stuck W' l := by
  obtain ⟨cs, t, hv, hin, ht, hfull⟩ := h.view
  obtain ⟨p, hp, hp', hload⟩ := hv.tail ht
  have hplan : { W with plan := [] } = W := by rw [← h.plan]
  rcases write_closed lru hv.corrupt hv.closed hp' hload h.sfile i d with hw | hw
  · have := hw.2.runs
    rw [hplan] at this
    exact ⟨W, this, h⟩
  · have := hw.2.runs
    rw [hplan] at this
    obtain ⟨cs', hv', hread, ht'⟩ := hv.extend ht hp d.2
    refine ⟨_, this, ⟨cs', _, ⟨hv'.layout, hv'.segs, hv'.corrupt, hv'.closed, hv'.firstIndex,
      hv'.lastIndex, hv'.file, NoFail.nil⟩, ?_, ht', ?_⟩, h.sfile, h.disk, rfl⟩
    · change l.Within (readable { W with mem := W.mem.extend p t.recs d } l.first cs')
      rw [hread]
      exact hin
    · change W.mem.opts.segmentSize ≤ (encode (t.recs ++ [d.1])).length
      rw [encode_append, List.length_append]
      exact hfull.trans (Nat.le_add_right _ _)

theorem Stuck.intact (hlru : lru.Lawful) (h : Stuck W l) : Intact lru W l := by
  refine intact_of_invariant (I := Stuck) (fun W l h => h.serves hlru) ?_ h
  rintro W l (i | d) h
  · exact h.read hlru i
  · obtain ⟨W', hrun, hW'⟩ := h.write lru (l.lastIndex + 1) d
    simp only [Later.step, hrun]
    exact hW'

theorem Opened.stuck (h : Opened W l.first cs []) (hin : l.Within ⟨l.first, records cs⟩)
    (hlen : l.first + (records cs).length ≤ l.lastIndex + 2) {t : Chunk}
    (ht : cs[cs.length - 1]? = some t) (hfull : Full W t.recs) :
    Stuck ⟨{ W.mem with sfile := none }, W.dir, []⟩ l := by
  have hg := Good.of_opened h
  have hv := hg.viewed
  have hs := hv.segs
  refine ⟨⟨cs, t, ⟨hv.layout, ⟨hs.length, hs.nodup, hs.fresh, hs.seg, hs.cached, hs.keys⟩,
    hv.corrupt, hv.closed, hv.firstIndex, hv.lastIndex, hv.file, NoFail.nil⟩, ?_, ht, hfull⟩, rfl,
    ⟨_, cleanBeside_nil.mp h.clean, hin, hlen⟩, rfl⟩
  change l.Within (readable W l.first cs)
  rw [h.readable_eq]
  exact hin

/-- The tail is closed once it has taken an entry that fills it. -/
theorem Opened.extended_stuck (h : Opened W l.first cs []) (hl : 1 ≤ l.first)
    (hrecs : records cs = l.entries) {t : Chunk} {p : Ptr} (ht : cs[cs.length - 1]? = some t)
    (hp : W.mem.segments[cs.length - 1]? = some p) {d : Bytes} (hd : Fits d)
    (hfull : Full W (t.recs ++ [d])) :
    Stuck ⟨{ (Wal.extended W p (segmentName t.index) t.recs (l.lastIndex + 1) d).mem with
      sfile := none }, W.dir.insert (segmentName t.index) (encode (t.recs ++ [d])), []⟩ l := by
  obtain ⟨cs', hW, hrecs', -, ht'⟩ := h.extended_tail ht hp hd
  have hlast : l.lastIndex + 1 = l.first + (records cs).length := by
    unfold Log.lastIndex
    rw [hrecs]
    omega
  rw [hlast]
  refine hW.stuck ?_ ?_ ht' hfull
  · rw [hrecs', hrecs]
    exact l.within_write d
  · rw [hrecs', List.length_append, List.length_singleton]
    omega

end Stuck

section Fails

/-- How many operations a write makes before it appends: those of a cycle, if the tail is over the
segment size already. -/
def WAL.appendAt (w : WAL) : ℕ :=
  match w.segments.getLast? with
  | some p => if w.opts.segmentSize < (w.heap p).ebuf.length then 3 else 0
  | none => 0

theorem WAL.appendAt_eq {w : WAL} {p : Ptr} {t : Chunk} (hp : w.segments.getLast? = some p)
    (hload : Loaded (w.heap p) t) :
    w.appendAt = if w.opts.segmentSize < (encode t.recs).length then 3 else 0 := by
  rw [appendAt, hp]
  simp only [hload.1]

/-- A write that fails at the sync or the close before its append, or at the close after it, leaves
every index with its bytes, in memory and on disk, whatever is done next. -/
theorem intact_of_write_fails (hlru : lru.Lawful) (h : Rep W l) (hl : l.Wf) (d : Record) {k n : ℕ}
    {e : Err}
    (hfail : (write lru (l.lastIndex + 1) d { W with plan := faultAt k (.fail n) }).1 = .err e)
    (hk : k + 1 < W.mem.appendAt ∨ k = W.mem.appendAt + 2) :
    Intact lru (write lru (l.lastIndex + 1) d { W with plan := faultAt k (.fail n) }).2 l := by
  obtain ⟨cs, hg, hrecs⟩ := h
  have ho := hg.opened
  obtain ⟨t, p, ht, hp, hp', hload⟩ := ho.tail
  have hpos := hl.pos
  have hlast := ho.mem.lastIndex
  have hbuf := WAL.appendAt_eq hp' hload
  -- an entry that fills the tail is followed by a cycle, and only such a one
  have hfull : ∀ (ps : List (Point Name WAL)) {W₁ W₂ : World Name WAL} {p₁ : Ptr} {n₁ : Name}
      {ds : List Bytes},
      Trace (write lru (l.lastIndex + 1) d) W
        (ps ++ appendPoints lru W₁ p₁ n₁ ds (l.lastIndex + 1) d) (.ok ()) W₂ →
      k = ps.length + 2 → Full W₁ (ds ++ [d.1]) := by
    intro ps W₁ W₂ p₁ n₁ ds htr hkp
    by_contra hno
    rw [appendPoints, if_neg hno] at htr
    rw [htr.2.passes_faultAt (by simp; omega)] at hfail
    cases hfail
  split_ifs at hbuf with hover
  · have htr := (ho.writable ht hp' hload).write_trace_of_over lru hover
      (l.lastIndex + 1) d
    rw [hbuf] at hk
    obtain rfl | rfl | rfl : k = 0 ∨ k = 1 ∨ k = 5 := by omega
    · obtain ⟨e', hrun⟩ := htr.2.fails (k := 0) (n := n) rfl rfl
      rw [hrun]
      exact Rep.intact hlru ⟨cs, hg.withPlan NoFail.nil, hrecs⟩ rfl hl
    · obtain ⟨e', hrun⟩ := htr.2.fails (k := 1) (n := n) rfl rfl
      rw [hrun]
      refine Stuck.intact hlru (ho.stuck ?_ ?_ ht hover.le)
      · rw [hrecs]
        exact .refl l
      · unfold Log.lastIndex
        rw [hrecs]
        omega
    · have hf := hfull _ htr rfl
      have hne : ∀ c ∈ cs, c.recs ≠ [] :=
        ho.layout.full_of_tail ht fun ht' => by simp [ht'] at hover
      obtain ⟨cs', hW, hrecs', hlast', hnew⟩ := ho.cycled_tail hlru hne hp
      rw [appendPoints, if_pos hf] at htr
      obtain ⟨e', hrun⟩ := htr.2.fails (k := 5) (n := n) rfl rfl
      rw [hrun]
      exact Stuck.intact hlru
        (hW.extended_stuck hpos (hrecs'.trans hrecs) hlast' hnew d.2 hf)
  · have htr := (ho.writable ht hp' hload).write_trace_of_room lru (not_lt.mp hover)
      (l.lastIndex + 1) d
    rw [hbuf] at hk
    obtain rfl : k = 2 := by omega
    have hf := hfull [] htr rfl
    rw [appendPoints, if_pos hf] at htr
    obtain ⟨e', hrun⟩ := htr.2.fails (k := 2) (n := n) rfl rfl
    rw [hrun]
    exact Stuck.intact hlru (ho.extended_stuck hpos hrecs ht hp d.2 hf)

/-- The second entry of a log whose segments take one fails at the close of its segment. -/
theorem intact_of_write_fails_close : ∃ W, runFresh lruSet ⟨1, 1⟩ [.append ⟨[7], by decide⟩]
    = some ([.done], W)
    ∧ (write lruSet 2 [8] { W with plan := faultAt 2 (.fail 0) }).1 = .err .io
    ∧ Intact lruSet (write lruSet 2 [8] { W with plan := faultAt 2 (.fail 0) }).2 ⟨1, [[7]]⟩ := by
  obtain ⟨W, hrun, hW, hl, -⟩ := runFresh_spec lruSet_lawful ⟨1, 1⟩ [.append ⟨[7], by decide⟩]
  have hfail : (runFresh lruSet ⟨1, 1⟩ [.append ⟨[7], by decide⟩]).map (fun s =>
      ((write lruSet 2 [8] { s.2 with plan := faultAt 2 (.fail 0) }).1, s.2.mem.appendAt))
      = some (.err .io, 0) := by decide +kernel
  rw [hrun, Option.map_some, Option.some.injEq, Prod.mk.injEq] at hfail
  exact ⟨W, hrun, hfail.1, intact_of_write_fails lruSet_lawful hW hl ⟨[8], by decide⟩ hfail.1
    (.inr (by rw [hfail.2]))⟩

/-- An append fails, and the entry then written at its index reads as the one that failed. -/
theorem not_intact_append : ∃ W, runFresh lruSet ⟨100, 1⟩ [.append ⟨[7], by decide⟩]
    = some ([.done], W)
    ∧ (write lruSet 2 [8] { W with plan := faultAt 0 (.fail 0) }).1 = .err .io
    ∧ ¬ Intact lruSet (write lruSet 2 [8] { W with plan := faultAt 0 (.fail 0) }).2
      ⟨1, [[7]]⟩ := by
  obtain ⟨W, hrun, -⟩ := runFresh_spec lruSet_lawful ⟨100, 1⟩ [.append ⟨[7], by decide⟩]
  have hread : (runFresh lruSet ⟨100, 1⟩ [.append ⟨[7], by decide⟩]).map (fun s =>
      let r := write lruSet 2 [8] { s.2 with plan := faultAt 0 (.fail 0) }
      let s' := Later.step lruSet (r.2, ⟨1, [[7]]⟩) (.write ⟨[9], by decide⟩)
      (r.1, s'.2, (read lruSet 2 s'.1).1))
      = some (.err .io, ⟨1, [[7], [9]]⟩, .ok [8]) := by decide +kernel
  rw [hrun, Option.map_some, Option.some.injEq, Prod.mk.injEq, Prod.mk.injEq] at hread
  refine ⟨W, hrun, hread.1, fun h => ?_⟩
  have hserves := (h [.write ⟨[9], by decide⟩]).memory 2 [9]
  rw [List.foldl_cons, List.foldl_nil, hread.2.1, hread.2.2] at hserves
  exact absurd (hserves rfl) (by decide)

end Fails

section Contents

/-- The bytes a segment holds: those of its buffer or, where that is not loaded, of its file. -/
def held (W : World Name WAL) (p : Ptr) : ℕ × Option Bytes :=
  let s := W.mem.heap p
  (s.index, if s.epos = [] then W.dir.lookup s.path else some s.ebuf)

/-- The two logs have the same contents, in memory and on disk. -/
structure SameContents (W W' : World Name WAL) : Prop where
  firstIndex : W'.mem.firstIndex = W.mem.firstIndex
  lastIndex : W'.mem.lastIndex = W.mem.lastIndex
  segments : W'.mem.segments.map (held W') = W.mem.segments.map (held W)
  files : ∀ n, W'.dir.lookup n = W.dir.lookup n

theorem SameContents.refl (W : World Name WAL) : SameContents W W := ⟨rfl, rfl, rfl, fun _ => rfl⟩

theorem sameContents_plan {p : List Fault} :
    SameContents { W with plan := p } W' ↔ SameContents W W' :=
  ⟨fun h => ⟨h.1, h.2, h.3, h.4⟩, fun h => ⟨h.1, h.2, h.3, h.4⟩⟩

theorem held_of_loaded {p : Ptr} {c : Chunk} (hload : Loaded (W.mem.heap p) c)
    (hne : c.recs ≠ []) : (held W p).2 = some (encode c.recs) := by
  have hpos : (W.mem.heap p).epos ≠ [] := by
    rw [hload.2, ← List.length_pos_iff, length_positions]
    exact List.length_pos_iff.mpr hne
  simp only [held, if_neg hpos, hload.1]

theorem Segs.held {n : ℕ} (h : Segs W.mem cs n)
    (hfile : ∀ c ∈ cs, W.dir.lookup (segmentName c.index) = some (encode c.recs)) :
    W.mem.segments.map (held W) = cs.map fun c => (c.index, some (encode c.recs)) := by
  refine List.ext_getElem (by simp [h.length]) fun k hk hk' => ?_
  simp only [List.length_map] at hk hk'
  have hp : W.mem.segments[k]? = some W.mem.segments[k] := List.getElem?_eq_getElem hk
  have hc : cs[k]? = some cs[k] := List.getElem?_eq_getElem hk'
  have hs := h.seg k _ _ hp hc
  simp only [List.getElem_map, Wal.held, Prod.mk.injEq]
  refine ⟨hs.index, ?_⟩
  split_ifs with hpos
  · rw [hs.path]
    exact hfile _ (List.getElem_mem hk')
  · rw [(hs.loaded (by simpa using hpos)).1]

variable {rest : List (FileName × Bytes)}

theorem Opened.held (h : Opened W first cs rest) :
    W.mem.segments.map (held W) = cs.map fun c => (c.index, some (encode c.recs)) := by
  refine h.mem.segs.held fun c hc => ?_
  obtain ⟨k, hk⟩ := List.getElem?_of_mem hc
  exact h.file hk

/-- Up to its new file a cycle changes nothing but the cache and the open tail. -/
theorem Opened.cyclePoints_contents (hlru : lru.Lawful) (h : Opened W first cs rest) {p : Ptr}
    (hp : W.mem.segments[cs.length - 1]? = some p) {pt : Point Name WAL}
    (hpt : pt ∈ cyclePoints lru W p) {pl : List Fault} :
    SameContents W ⟨pt.mem, pt.dir, pl⟩ := by
  have hlen : 0 < cs.length := List.length_pos_iff.mpr h.layout.ne
  simp only [cyclePoints, List.mem_cons, List.not_mem_nil, or_false] at hpt
  rcases hpt with rfl | rfl | rfl
  · exact ⟨rfl, rfl, rfl, fun _ => rfl⟩
  · exact ⟨rfl, rfl, rfl, fun _ => rfl⟩
  · have hw : Segs { W.mem with sfile := none } cs cs.length := by
      have hs := h.mem.segs.mono (Nat.sub_le cs.length 1)
      exact ⟨hs.length, hs.nodup, hs.fresh, hs.seg, hs.cached, hs.keys⟩
    have hpush := (hw.push hlru hp (by omega)).1
    rw [h.mem.segs.length]
    have hsegs := Segs.held (W := ⟨{ { W.mem with sfile := none }.push lru (cs.length - 1) p with
      sfile := none }, W.dir, pl⟩) (n := cs.length)
      ⟨hpush.length, hpush.nodup, hpush.fresh, hpush.seg, hpush.cached, hpush.keys⟩ fun c hc => by
        obtain ⟨k, hk⟩ := List.getElem?_of_mem hc
        exact h.file hk
    refine ⟨?_, ?_, hsegs.trans h.held.symm, fun _ => rfl⟩
    · simp only [Point.clean]
      rw [WAL.push_eq]
    · simp only [Point.clean]
      rw [WAL.push_eq]

/-- An append that fails leaves its entry in the tail's buffer. -/
theorem Opened.append_contents (h : Opened W first cs rest) {t : Chunk} {p : Ptr}
    (ht : cs[cs.length - 1]? = some t) (hp : W.mem.segments.getLast? = some p) (d : Bytes)
    (dir : Dir Name) (pl : List Fault) :
    ¬ SameContents W ⟨W.mem.extend p t.recs d, dir, pl⟩ := by
  intro hsame
  have hlast := congrArg List.getLast? (hsame.segments.trans h.held)
  rw [List.getLast?_map, List.getLast?_map, List.getLast?_eq_getElem? (l := cs), ht] at hlast
  change Option.map _ W.mem.segments.getLast? = _ at hlast
  rw [hp] at hlast
  simp only [Option.map_some, Option.some.injEq] at hlast
  have hload : Loaded ((W.mem.extend p t.recs d).heap p) ⟨t.index, t.recs ++ [d]⟩ := by
    simp [WAL.extend, WAL.store, Loaded]
  have hheld := held_of_loaded (W := ⟨W.mem.extend p t.recs d, dir, pl⟩) hload (by simp)
  rw [hlast] at hheld
  have hlen := congrArg List.length (Option.some.inj hheld)
  have := encodeEntry_length_pos d
  simp only [encode_append, encode_cons, encode_nil, List.append_nil, List.length_append] at hlen
  omega

/-- A write that fails at its append or later: its entry is in the buffer, or its index is the
last. -/
theorem mem_of_append_fails (ps : List (Point Name WAL)) {i : ℕ} {d : Bytes}
    {W₁ W₂ : World Name WAL} {p : Ptr} {name : Name} {ds : List Bytes}
    (htr : Trace (write lru i d) W (ps ++ appendPoints lru W₁ p name ds i d) (.ok ()) W₂) {k n : ℕ}
    {e : Err} (hfail : (write lru i d { W with plan := faultAt k (.fail n) }).1 = .err e)
    (hk : ps.length ≤ k) :
    (write lru i d { W with plan := faultAt k (.fail n) }).2.mem = W₁.mem.extend p ds d
      ∨ (write lru i d { W with plan := faultAt k (.fail n) }).2.mem.lastIndex = i := by
  obtain ⟨j, rfl⟩ := Nat.exists_eq_add_of_le hk
  have hget : ∀ {pt}, (appendPoints lru W₁ p name ds i d)[j]? = some pt →
      (ps ++ appendPoints lru W₁ p name ds i d)[ps.length + j]? = some pt := by
    intro pt hpt
    rw [List.getElem?_append_right (Nat.le_add_right _ _), Nat.add_sub_cancel_left]
    exact hpt
  rcases hj : (appendPoints lru W₁ p name ds i d)[j]? with _ | pt
  · rw [List.getElem?_eq_none_iff] at hj
    rw [htr.2.passes_faultAt (by rw [List.length_append]; omega)] at hfail
    cases hfail
  · rcases j with _ | j
    · cases hj
      obtain ⟨e', hrun⟩ := htr.2.fails (n := n) (hget rfl) rfl
      rw [hrun]
      exact .inl rfl
    · have hmem := List.mem_of_getElem? (show (if Full W₁ (ds ++ [d]) then
        cyclePoints lru (extended W₁ p name ds i d) p else [])[j]? = some pt from hj)
      split_ifs at hmem
      · simp only [cyclePoints, List.mem_cons, List.not_mem_nil, or_false] at hmem
        rcases hmem with rfl | rfl | rfl
        all_goals
          obtain ⟨e', hrun⟩ := htr.2.fails (n := n) (hget hj) rfl
          rw [hrun]
          refine .inr ?_
        · rfl
        · rfl
        · simp only [Point.clean]
          rw [WAL.push_eq]
          rfl
      · cases hmem

/-- A write whose first cycle fails leaves the contents of the log as they were. -/
theorem write_fails_before_append (hlru : lru.Lawful) (h : Rep W l) (i : ℕ) (d : Bytes) {k : ℕ}
    (hk : k < W.mem.appendAt) (n : ℕ) :
    ∃ e W', write lru i d { W with plan := faultAt k (.fail n) } = (.err e, W')
      ∧ SameContents W W' := by
  obtain ⟨cs, hg, -⟩ := h
  have ho := hg.opened
  obtain ⟨t, p, ht, hp, hp', hload⟩ := ho.tail
  have hover : W.mem.opts.segmentSize < (encode t.recs).length := by
    by_contra hno
    rw [WAL.appendAt_eq hp' hload, if_neg hno] at hk
    exact Nat.not_lt_zero k hk
  rw [WAL.appendAt_eq hp' hload, if_pos hover] at hk
  have htr := (ho.writable ht hp' hload).write_trace_of_over lru hover i d
  obtain ⟨pt, hpt⟩ : ∃ pt, (cyclePoints lru W p)[k]? = some pt := ⟨_, List.getElem?_eq_getElem hk⟩
  have hmem := List.mem_of_getElem? hpt
  have hleft : pt.left = some fun _ => pt.dir := by
    simp only [cyclePoints, List.mem_cons, List.not_mem_nil, or_false] at hmem
    rcases hmem with rfl | rfl | rfl <;> rfl
  obtain ⟨e, hrun⟩ := htr.2.fails (n := n)
    (by rw [List.getElem?_append_left hk]; exact hpt) hleft
  exact ⟨e, _, hrun, ho.cyclePoints_contents hlru hp hmem⟩

/-- One that fails later does not. -/
theorem write_fails_from_append (lru : SetEvicted ℕ Ptr) (h : Rep W l) {i : ℕ}
    (hi : i ≠ l.lastIndex) (d : Bytes) {k n : ℕ} {e : Err}
    (hfail : (write lru i d { W with plan := faultAt k (.fail n) }).1 = .err e)
    (hk : W.mem.appendAt ≤ k) :
    ¬ SameContents W (write lru i d { W with plan := faultAt k (.fail n) }).2 := by
  have hlast := h.lastIndex_eq
  obtain ⟨cs, hg, hrecs⟩ := h
  have ho := hg.opened
  obtain ⟨t, p, ht, hp, hp', hload⟩ := ho.tail
  have hnext : ∀ {W' : World Name WAL}, W'.mem.lastIndex = i →
      ¬ SameContents W W' := by
    intro W' hW' hsame
    exact hi (hW'.symm.trans (hsame.lastIndex.trans hlast))
  rw [WAL.appendAt_eq hp' hload] at hk
  split_ifs at hk with hover
  · have htr := (ho.writable ht hp' hload).write_trace_of_over lru hover i d
    rcases mem_of_append_fails _ htr hfail hk with hm | hm
    · intro hsame
      have hlen := congrArg List.length hsame.segments
      simp only [List.length_map] at hlen
      rw [hm, cycled, WAL.push_eq] at hlen
      simp [WAL.extend, WAL.store, WAL.grow] at hlen
    · exact hnext hm
  · have htr := (ho.writable ht hp' hload).write_trace_of_room lru (not_lt.mp hover) i d
    rcases mem_of_append_fails [] htr hfail hk with hm | hm
    · have hno := ho.append_contents ht hp' d
        (write lru i d { W with plan := faultAt k (.fail n) }).2.dir
        (write lru i d { W with plan := faultAt k (.fail n) }).2.plan
      rw [← hm] at hno
      exact hno
    · exact hnext hm

end Contents

end Rhosus.Wal

import Rhosus.Wal.Log

/-!
# Loading any file

`loadSegmentEntries` on a file with arbitrary bytes. It succeeds exactly if they are items one after
another, whatever varints stand before them, and then the positions tile the file and each of them
is read (`loadSegmentEntries_total_exact`). Its loop is also run on 64-bit integers, where each sum,
difference and conversion is checked (`scanLoop`): none is out of range. What appending entries
writes, cut anywhere, is loaded up to the cut or not at all (`loadSegmentEntries_cut`).
-/

namespace Rhosus.Wal

section Machine

/-- What a program on 64-bit integers and slices may come to. -/
inductive Trap
  | overflow
  | slice
  deriving DecidableEq

def int64 (x : ℤ) : Except Trap ℤ :=
  if -2 ^ 63 ≤ x ∧ x < 2 ^ 63 then .ok x else .error .overflow

def uint64 (x : ℤ) : Except Trap ℕ :=
  if 0 ≤ x ∧ x < 2 ^ 64 then .ok x.toNat else .error .overflow

/-- `data[n:]` -/
def sliceFrom64 (data : Bytes) (n : ℤ) : Except Trap Bytes :=
  if 0 ≤ n ∧ n ≤ data.length then .ok (data.drop n.toNat) else .error .slice

/-- `loadNextBinaryEntry` on 64-bit integers; `none` is `ErrCorrupt`. -/
def loadNextBinaryEntry64 (data : Bytes) : Except Trap (Option ℤ) := do
  let (size, n) := uvarint data
  if n ≤ 0 then return none
  let len ← int64 (data.length - n)
  if (← uint64 len) < size then return none
  return some (← int64 (n + (← int64 size)))

/-- The loop of `loadSegmentEntries` on 64-bit integers, for `fuel` rounds; `none` if they do not
suffice. The source also counts the entries up from the segment's index, and never reads the
counter. -/
def scanLoop : ℕ → ℤ → List (ℤ × ℤ) → Bytes → Option (Except Trap (Option (List (ℤ × ℤ))))
  | _, _, epos, [] => some (.ok (some epos))
  | 0, _, _, _ :: _ => none
  | fuel + 1, pos, epos, b :: bs =>
    match loadNextBinaryEntry64 (b :: bs) with
    | .error f => some (.error f)
    | .ok none => some (.ok none)
    | .ok (some n) =>
      match sliceFrom64 (b :: bs) n, int64 (pos + n) with
      | .ok data, .ok stop => scanLoop fuel stop (epos ++ [(pos, stop)]) data
      | .error f, _ => some (.error f)
      | _, .error f => some (.error f)

/-- The position as a pair of `int`s. -/
def BPos.ints (e : BPos) : ℤ × ℤ := (e.pos, e.stop)

theorem int64_eq {x : ℤ} (h0 : 0 ≤ x) (h : x < 2 ^ 63) : int64 x = .ok x := by
  rw [int64, if_pos ⟨by omega, by omega⟩]

theorem ok_bind {α β : Type} (a : α) (f : α → Except Trap β) : (Except.ok a >>= f) = f a := rfl

/-- On a slice, whose length is an `int`, no step of `loadNextBinaryEntry` leaves the range. -/
theorem loadNextBinaryEntry64_eq {data : Bytes} (hlen : data.length < 2 ^ 63) :
    loadNextBinaryEntry64 data = .ok ((loadNextBinaryEntry data).map Nat.cast) := by
  by_cases hn : (uvarint data).2 ≤ 0
  · simp [loadNextBinaryEntry64, loadNextBinaryEntry, hn, Pure.pure, Except.pure]
  · obtain ⟨vs, size, rest, rfl, hv, -, -, hu⟩ := uvarint_sound (not_le.mp hn)
    have hpos := hv.length_pos
    rw [List.length_append] at hlen
    have hroom : int64 (((vs.length + rest.length : ℕ) : ℤ) - vs.length)
        = .ok (rest.length : ℤ) := by
      rw [Nat.cast_add, add_sub_cancel_left]
      exact int64_eq (by omega) (by omega)
    have huint : uint64 rest.length = .ok rest.length := by
      rw [uint64, if_pos (by omega), Int.toNat_natCast]
    have hnat : ¬ ((vs.length : ℤ) ≤ 0) := by omega
    simp only [loadNextBinaryEntry64, loadNextBinaryEntry, hu, hnat, ↓reduceIte, List.length_append,
      Int.toNat_natCast, Nat.add_sub_cancel_left]
    rw [hroom, ok_bind, huint, ok_bind]
    by_cases hsize : rest.length < size
    · rw [if_pos hsize, if_pos hsize]
      rfl
    · have hint : int64 (size : ℤ) = .ok (size : ℤ) := int64_eq (by omega) (by omega)
      have hsum : int64 ((vs.length : ℤ) + size) = .ok ((vs.length : ℤ) + size) :=
        int64_eq (by omega) (by omega)
      rw [if_neg hsize, if_neg hsize, hint, ok_bind, hsum, ok_bind, Option.map_some, Nat.cast_add]
      rfl

/-- Enough rounds end the loop, without a fault, with what `scanEntries` finds. -/
theorem scanLoop_eq : ∀ {fuel : ℕ} (pos : ℕ) {data : Bytes} (epos : List (ℤ × ℤ)),
    data.length ≤ fuel → pos + data.length < 2 ^ 63 → scanLoop fuel pos epos data
      = some (.ok ((scanEntries fuel pos data).map fun es => epos ++ es.map BPos.ints))
  | fuel, pos, [], epos, _, _ => by cases fuel <;> simp [scanLoop, scanEntries]
  | fuel + 1, pos, b :: bs, epos, hfuel, hlen => by
    rw [scanLoop, scanEntries, loadNextBinaryEntry64_eq (by omega)]
    rcases hn : loadNextBinaryEntry (b :: bs) with _ | n
    · rfl
    · obtain ⟨it, d, rest, hdata, hit, rfl⟩ := loadNextBinaryEntry_sound hn
      have hpos := hit.length_pos
      simp only [Option.map_some]
      rw [hdata, List.length_append] at hfuel hlen
      have hslice : sliceFrom64 (it ++ rest) (it.length : ℕ) = .ok rest := by
        rw [sliceFrom64, if_pos ⟨by omega, by rw [List.length_append]; omega⟩, Int.toNat_natCast,
          List.drop_left]
      have hstop : int64 ((pos : ℤ) + (it.length : ℕ)) = .ok ((pos + it.length : ℕ) : ℤ) := by
        rw [int64_eq (by omega) (by omega), Nat.cast_add]
      rw [hdata, hslice, hstop, List.drop_left]
      simp only []
      rw [scanLoop_eq _ _ (by omega) (by omega), Option.map_map]
      simp only [Function.comp_def, List.append_assoc, List.singleton_append, List.map_cons,
        BPos.ints]

end Machine

section Decode

open Prog (getMem orPanic)

/-- The decoding of `Read`, for an entry of a segment that is loaded. -/
def readEntry (s : Segment) (off : ℕ) : WalM Bytes := do
  let epos ← orPanic s.epos[off]?
  let edata ← orPanic ((sliceTo? s.ebuf epos.stop).bind (sliceFrom? · epos.pos))
  match decodeEntry edata with
  | none => Prog.throw .corrupt
  | some data => return data

/-- `Read` loads the segment of its index, and decodes the entry there. -/
theorem read_eq_readEntry {lru : SetEvicted ℕ Ptr} {W W' : World Name WAL} {i : ℕ} {p : Ptr}
    (h1 : W.mem.corrupt = false) (h2 : W.mem.closed = false)
    (hin : ¬ (i = 0 ∨ i < W.mem.firstIndex ∨ W.mem.lastIndex < i))
    (hload : loadSegment lru i W = (.ok p, W')) (hle : (W'.mem.heap p).index ≤ i) :
    read lru i W = readEntry (W'.mem.heap p) (i - (W'.mem.heap p).index) W' := by
  simp only [read, guarded, Bind.bind, getMem, h1, h2, Bool.false_eq_true, ↓reduceIte, hin, hload,
    sub?, hle, orPanic, Pure.pure]
  rfl

theorem slice_flatten {its : List Bytes} {k : ℕ} (hk : k < its.length) :
    (sliceTo? its.flatten (its.take (k + 1)).flatten.length).bind
      (sliceFrom? · (its.take k).flatten.length) = some its[k] := by
  have hsplit : its.flatten = (its.take k).flatten ++ (its[k] ++ (its.drop (k + 1)).flatten) := by
    rw [← List.flatten_cons, ← List.flatten_append, List.cons_getElem_drop_succ,
      List.take_append_drop]
  have hnext : (its.take (k + 1)).flatten = (its.take k).flatten ++ its[k] := by
    rw [← List.take_concat_get' _ _ hk, List.flatten_append, List.flatten_singleton]
  have hle : ((its.take k).flatten ++ its[k]).length ≤ its.flatten.length := by
    rw [hsplit]
    simp only [List.length_append]
    omega
  rw [hnext, sliceTo?, if_pos hle, Option.bind_some, hsplit, ← List.append_assoc, List.take_left,
    sliceFrom?, if_pos (by rw [List.length_append]; omega), List.drop_left]

theorem readEntry_spans {s : Segment} {its : List Bytes} {k : ℕ} {d : Bytes}
    (hbuf : s.ebuf = its.flatten) (hepos : s.epos = spans 0 its) (hk : k < its.length)
    (hit : Item its[k] d) (V : World Name WAL) : readEntry s k V = (.ok d, V) := by
  have hslice := slice_flatten hk
  simp only [readEntry, Bind.bind, hepos, getElem?_spans its 0 k hk, Nat.zero_add, orPanic,
    Pure.pure, hbuf, hslice, hit.decode]

end Decode

section Load

variable {W : World Name WAL} {p : Ptr} {b : Bytes}

/-- The bytes are items one after another. -/
def Items (b : Bytes) : Prop := ∃ its : List Bytes, (∀ it ∈ its, ∃ d, Item it d) ∧ b = its.flatten

/-- The positions cover the bytes from `p` to `q`, one after another. -/
def Tiles : ℕ → List BPos → ℕ → Prop
  | p, [], q => p = q
  | p, e :: es, q => e.pos = p ∧ p < e.stop ∧ Tiles e.stop es q

theorem tiles_spans : ∀ {its : List Bytes} (p : ℕ), (∀ it ∈ its, ∃ d, Item it d) →
    Tiles p (spans p its) (p + its.flatten.length)
  | [], _, _ => rfl
  | it :: its, p, hall => by
    obtain ⟨d, hit⟩ := hall it List.mem_cons_self
    have hrest := tiles_spans (p + it.length) fun e he => hall e (List.mem_cons_of_mem _ he)
    rw [List.flatten_cons, List.length_append, ← add_assoc]
    exact ⟨rfl, Nat.lt_add_of_pos_right hit.length_pos, hrest⟩

/-- The segment with these entries in memory. -/
def Segment.loaded (s : Segment) (ebuf : Bytes) (epos : List BPos) : Segment :=
  { s with ebuf, epos }

theorem loadSegmentEntries_of_some (hfile : W.dir.lookup (W.mem.heap p).path = some b)
    (hplan : W.plan = []) {epos : List BPos} (h : scanSegment b = some epos) :
    loadSegmentEntries p W
      = (.ok (), ⟨W.mem.store p ((W.mem.heap p).loaded b epos), W.dir, []⟩) := by
  simp only [loadSegmentEntries, Bind.bind, Prog.getMem, Prog.readFile, Prog.fileOp, hplan, hfile,
    List.headD_nil, List.tail_nil, Option.map_some, h, Prog.modifyMem, Segment.loaded]

theorem loadSegmentEntries_of_none (hfile : W.dir.lookup (W.mem.heap p).path = some b)
    (hplan : W.plan = []) (h : scanSegment b = none) :
    loadSegmentEntries p W = (.err .corrupt, W) := by
  simp only [loadSegmentEntries, Bind.bind, Prog.getMem, Prog.readFile, Prog.fileOp, hplan, hfile,
    List.headD_nil, List.tail_nil, Option.map_some, h, Prog.throw]
  rw [← hplan]

theorem scanEntries_eq_none (h : ¬ Items b) (fuel q : ℕ) : scanEntries fuel q b = none := by
  rcases hs : scanEntries fuel q b with _ | epos
  · rfl
  · obtain ⟨its, hall, hb, -⟩ := scanEntries_sound hs
    exact absurd ⟨its, hall, hb⟩ h

/-- As many rounds as bytes are enough. -/
theorem scanEntries_eq_scanSegment {fuel : ℕ} (hfuel : b.length ≤ fuel) :
    scanEntries fuel 0 b = scanSegment b := by
  by_cases h : Items b
  · obtain ⟨its, hall, rfl⟩ := h
    rw [scanEntries_flatten 0 hall hfuel, scanSegment, scanEntries_flatten 0 hall le_rfl]
  · rw [scanSegment, scanEntries_eq_none h, scanEntries_eq_none h]

/-- On a file with any bytes, fewer than `2 ^ 63` of them, the loop ends without a fault. The
segment is loaded exactly if the bytes are items one after another. Then its positions tile them,
and each of its entries is read; otherwise the file is corrupt, and nothing has changed. -/
theorem loadSegmentEntries_total_exact (hb : b.length < 2 ^ 63)
    (hfile : W.dir.lookup (W.mem.heap p).path = some b) (hplan : W.plan = []) :
    (∀ fuel, b.length ≤ fuel → scanLoop fuel 0 [] b
        = some (.ok ((scanSegment b).map fun epos => epos.map BPos.ints)))
      ∧ ((∃ W', loadSegmentEntries p W = (.ok (), W')) ↔ Items b)
      ∧ (Items b → ∃ epos, scanSegment b = some epos
        ∧ loadSegmentEntries p W
          = (.ok (), ⟨W.mem.store p ((W.mem.heap p).loaded b epos), W.dir, []⟩)
        ∧ Tiles 0 epos b.length
        ∧ ∀ k < epos.length, ∃ d, ∀ V, readEntry ((W.mem.heap p).loaded b epos) k V = (.ok d, V))
      ∧ (¬ Items b → scanSegment b = none ∧ loadSegmentEntries p W = (.err .corrupt, W)) := by
  refine ⟨fun fuel hfuel => ?_, ⟨?_, fun h => ?_⟩, fun h => ?_, fun h => ?_⟩
  · have hloop := scanLoop_eq 0 [] hfuel (by omega)
    rwa [scanEntries_eq_scanSegment hfuel] at hloop
  · rintro ⟨W', hload⟩
    by_contra hno
    rw [loadSegmentEntries_of_none hfile hplan (scanEntries_eq_none hno _ 0)] at hload
    cases hload
  · obtain ⟨its, hall, rfl⟩ := h
    exact ⟨_, loadSegmentEntries_of_some hfile hplan (scanEntries_flatten 0 hall le_rfl)⟩
  · obtain ⟨its, hall, rfl⟩ := h
    have hscan : scanSegment its.flatten = some (spans 0 its) := scanEntries_flatten 0 hall le_rfl
    refine ⟨_, hscan, loadSegmentEntries_of_some hfile hplan hscan, ?_, fun k hk => ?_⟩
    · have := tiles_spans 0 hall
      rwa [Nat.zero_add] at this
    · rw [length_spans] at hk
      obtain ⟨d, hit⟩ := hall its[k] (List.getElem_mem hk)
      exact ⟨d, readEntry_spans rfl rfl hk hit⟩
  · have hscan : scanSegment b = none := scanEntries_eq_none h _ 0
    exact ⟨hscan, loadSegmentEntries_of_none hfile hplan hscan⟩

/-- A log with the one segment 1, which is not loaded, and whose file has the bytes `b`. -/
def unloaded (b : Bytes) : World Name WAL where
  mem := { WAL.new defaultOptions with
    segments := [0], heap := fun _ => ⟨segmentName 1, 1, [], []⟩ }
  dir := AList.insert (segmentName 1) b ∅
  plan := []

theorem unloaded_file (b : Bytes) :
    (unloaded b).dir.lookup ((unloaded b).mem.heap 0).path = some b :=
  AList.lookup_insert ∅

/-- Two bytes after a length in two bytes, of which one would do. -/
theorem loadSegmentEntries_total_exact_long : Items [0x82, 0x00, 7, 8]
    ∧ ∃ epos, loadSegmentEntries 0 (unloaded [0x82, 0x00, 7, 8])
      = (.ok (), ⟨(unloaded [0x82, 0x00, 7, 8]).mem.store 0
        (((unloaded [0x82, 0x00, 7, 8]).mem.heap 0).loaded [0x82, 0x00, 7, 8] epos),
        (unloaded [0x82, 0x00, 7, 8]).dir, []⟩) := by
  have hitems : Items [0x82, 0x00, 7, 8] := by
    refine ⟨[[0x82, 0x00, 7, 8]], ?_, rfl⟩
    simp only [List.mem_singleton, forall_eq]
    exact ⟨[7, 8], [0x82, 0x00], rfl, .more (by decide) (.last (by decide)), by decide, by decide⟩
  obtain ⟨-, -, hload, -⟩ := loadSegmentEntries_total_exact (by decide)
    (unloaded_file [0x82, 0x00, 7, 8]) rfl
  obtain ⟨epos, -, h, -⟩ := hload hitems
  exact ⟨hitems, epos, h⟩

end Load

section Cut

variable {W : World Name WAL} {p : Ptr} {b : Bytes} {ds : List Bytes}

/-- `appendBinaryEntry` of one entry after another, from an empty buffer. -/
def appendAll (ds : List Bytes) : Bytes := ds.foldl (fun dst d => (appendBinaryEntry dst d).1) []

theorem appendAll_eq_encode (ds : List Bytes) : appendAll ds = encode ds := by
  have h : ∀ es ds, List.foldl (fun dst d => (appendBinaryEntry dst d).1) (encode ds) es
      = encode (ds ++ es) := by
    intro es
    induction es with
    | nil => simp
    | cons d es ih =>
      intro ds
      rw [List.foldl_cons, (appendBinaryEntry_encode ds d).1, ih, List.append_assoc,
        List.singleton_append]
  exact h ds []

/-- Let a file hold the start of what appending entries writes. If it ends between two of them, it
is loaded with one position for each entry before the cut, where `Read` finds that entry. If it ends
inside one, it is corrupt. -/
theorem loadSegmentEntries_cut (hfits : ∀ d ∈ ds, Fits d) (hb : b <+: appendAll ds)
    (hfile : W.dir.lookup (W.mem.heap p).path = some b) (hplan : W.plan = []) :
    (∀ j ≤ ds.length, b = appendAll (ds.take j) → ∃ epos, loadSegmentEntries p W
          = (.ok (), ⟨W.mem.store p ((W.mem.heap p).loaded b epos), W.dir, []⟩)
        ∧ epos.length = j
        ∧ ∀ k (hk : k < ds.length), k < j →
          ∀ V, readEntry ((W.mem.heap p).loaded b epos) k V = (.ok ds[k], V))
      ∧ ((∀ j ≤ ds.length, b ≠ appendAll (ds.take j)) →
        loadSegmentEntries p W = (.err .corrupt, W)) := by
  simp only [appendAll_eq_encode] at hb ⊢
  refine ⟨fun j hj hcut => ?_, fun hcut => ?_⟩
  · subst hcut
    have htake : ∀ d ∈ ds.take j, Fits d := fun d hd => hfits d (List.mem_of_mem_take hd)
    refine ⟨_, loadSegmentEntries_of_some hfile hplan (scanSegment_encode htake), ?_, ?_⟩
    · rw [length_positions, List.length_take, min_eq_left hj]
    · intro k hk hkj
      have hlen : k < ((ds.take j).map encodeEntry).length := by
        rw [List.length_map, List.length_take]
        omega
      refine readEntry_spans (encode_eq_flatten _) (positionsFrom_eq_spans 0 _) hlen ?_
      rw [List.getElem_map, List.getElem_take]
      exact item_encodeEntry (hfits _ (List.getElem_mem hk))
  · have hpre := List.prefix_iff_eq_take.mp hb
    have hne : ∀ j ≤ ds.length, b.length ≠ (encode (ds.take j)).length := by
      intro j hj hlen
      refine hcut j hj ?_
      rw [hpre, hlen, take_encode]
    have hlt : b.length < (encode ds).length := by
      refine lt_of_le_of_ne hb.length_le ?_
      have := hne ds.length le_rfl
      rwa [List.take_length] at this
    have hscan := scanSegment_take hfits hlt hne
    rw [← hpre] at hscan
    exact loadSegmentEntries_of_none hfile hplan hscan

/-- An empty entry and one of a byte, cut before that byte. -/
theorem loadSegmentEntries_cut_inside :
    loadSegmentEntries 0 (unloaded [0, 1]) = (.err .corrupt, unloaded [0, 1]) := by
  refine (loadSegmentEntries_cut (show ∀ d ∈ [[], [7]], Fits d by decide) ⟨[7], by decide⟩
    (unloaded_file [0, 1]) rfl).2 fun j hj => ?_
  rw [List.length_cons, List.length_singleton] at hj
  interval_cases j <;> decide

end Cut

end Rhosus.Wal

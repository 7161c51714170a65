import Rhosus.Lib.Uvarint

/-!
# Records in a segment

A record is its length as a varint and then its bytes. A segment is records one after another, and
its positions are where each begins and ends. Loading a segment succeeds exactly if its bytes are
records one after another (`scanEntries_flatten`, `scanEntries_sound`), so what appending records
writes is what loading finds (`scanSegment_encode`), and each record is read back (`Item.decode`). A
segment cut short is not loaded, unless the cut is between two records (`scanEntries_take`).
-/

namespace Rhosus.Wal

/-- Where a record lies in its segment's bytes: `stop` is one byte past it. -/
structure BPos where
  pos : ℕ
  stop : ℕ
  deriving DecidableEq

def appendBinaryEntry (dst data : Bytes) : Bytes × BPos :=
  let out := dst ++ putUvarint data.length ++ data
  (out, ⟨dst.length, out.length⟩)

/-- How many bytes the record at the start of `data` takes; `none` is `ErrCorrupt`. -/
def loadNextBinaryEntry (data : Bytes) : Option ℕ :=
  let (size, n) := uvarint data
  if n ≤ 0 then none
  else if data.length - n.toNat < size then none
  else some (n.toNat + size)

/-- The positions of the records in `data`, which starts at `pos` of its segment. Each takes at
least a byte, so `data.length` rounds are enough. -/
def scanEntries : ℕ → ℕ → Bytes → Option (List BPos)
  | _, _, [] => some []
  | 0, _, _ :: _ => none
  | fuel + 1, pos, b :: bs =>
    match loadNextBinaryEntry (b :: bs) with
    | none => none
    | some n => (scanEntries fuel (pos + n) ((b :: bs).drop n)).map (⟨pos, pos + n⟩ :: ·)

def scanSegment (data : Bytes) : Option (List BPos) := scanEntries data.length 0 data

/-- The bytes of the record `edata` holds; `none` is `ErrCorrupt`. -/
def decodeEntry (edata : Bytes) : Option Bytes :=
  let (size, n) := uvarint edata
  if n ≤ 0 then none
  else if edata.length - n.toNat < size then none
  else some ((edata.drop n.toNat).take size)

/-- The records in `data`, one after another. -/
def decodeRecords : ℕ → Bytes → Option (List Bytes)
  | _, [] => some []
  | 0, _ :: _ => none
  | fuel + 1, b :: bs => do
    let n ← loadNextBinaryEntry (b :: bs)
    let d ← decodeEntry ((b :: bs).take n)
    let ds ← decodeRecords fuel ((b :: bs).drop n)
    return d :: ds

def encodeEntry (d : Bytes) : Bytes := putUvarint d.length ++ d

def encode (ds : List Bytes) : Bytes := ds.flatMap encodeEntry

def positionsFrom : ℕ → List Bytes → List BPos
  | _, [] => []
  | p, d :: ds => ⟨p, p + (encodeEntry d).length⟩ :: positionsFrom (p + (encodeEntry d).length) ds

def positions (ds : List Bytes) : List BPos := positionsFrom 0 ds

/-- A record the log can hold: a Go slice's length is an `int`. -/
def Fits (d : Bytes) : Prop := d.length < 2 ^ 63

instance (d : Bytes) : Decidable (Fits d) := inferInstanceAs (Decidable (_ < _))

section Items

variable {it d : Bytes}

/-- The bytes of `d` with their number before them, as any varint of at most ten bytes. -/
def Item (it d : Bytes) : Prop :=
  ∃ vs, it = vs ++ d ∧ Varint vs d.length ∧ vs.length ≤ 10 ∧ d.length < 2 ^ 64

/-- Where byte strings lie that stand one after another from `p` on. -/
def spans : ℕ → List Bytes → List BPos
  | _, [] => []
  | p, it :: its => ⟨p, p + it.length⟩ :: spans (p + it.length) its

theorem Item.length_pos (h : Item it d) : 0 < it.length := by
  obtain ⟨vs, rfl, hv, -⟩ := h
  have := hv.length_pos
  rw [List.length_append]
  omega

theorem Item.uvarint (h : Item it d) (rest : Bytes) : ∃ n : ℕ, 0 < n ∧ it.length = n + d.length
    ∧ uvarint (it ++ rest) = (d.length, (n : ℤ)) ∧ it.drop n = d := by
  obtain ⟨vs, rfl, hv, hlen, hfit⟩ := h
  refine ⟨vs.length, hv.length_pos, List.length_append, ?_, List.drop_left⟩
  rw [List.append_assoc]
  exact uvarint_varint hv hlen hfit _

theorem Item.loadNext (h : Item it d) (rest : Bytes) :
    loadNextBinaryEntry (it ++ rest) = some it.length := by
  obtain ⟨n, hn, hlen, hu, -⟩ := h.uvarint rest
  simp only [loadNextBinaryEntry, hu, Int.toNat_natCast, List.length_append, hlen]
  rw [if_neg (by omega), if_neg (by omega)]

theorem Item.decode (h : Item it d) : decodeEntry it = some d := by
  obtain ⟨n, hn, hlen, hu, hdrop⟩ := h.uvarint []
  rw [List.append_nil] at hu
  simp only [decodeEntry, hu, Int.toNat_natCast, hlen]
  rw [if_neg (by omega), if_neg (by omega), hdrop, List.take_length]

theorem loadNextBinaryEntry_sound {data : Bytes} {n : ℕ} (h : loadNextBinaryEntry data = some n) :
    ∃ it d rest, data = it ++ rest ∧ Item it d ∧ it.length = n := by
  unfold loadNextBinaryEntry at h
  simp only [] at h
  split_ifs at h with hpos hroom
  obtain ⟨vs, v, rest, rfl, hv, hlen, hfit, hu⟩ := uvarint_sound (not_le.mp hpos)
  simp only [hu, Int.toNat_natCast, List.length_append, not_lt] at hroom h
  have htake : (rest.take v).length = v := by
    rw [List.length_take]
    omega
  refine ⟨vs ++ rest.take v, rest.take v, rest.drop v, ?_, ⟨vs, rfl, ?_, hlen, ?_⟩, ?_⟩
  · rw [List.append_assoc, List.take_append_drop]
  · rwa [htake]
  · rwa [htake]
  · rw [List.length_append, htake]
    exact Option.some.inj h

/-- The bytes of an item cut short are not taken for one. -/
theorem Item.loadNext_take (h : Item it d) {m : ℕ} (hm : m < it.length) :
    loadNextBinaryEntry (it.take m) = none := by
  obtain ⟨vs, rfl, hv, hlen, hfit⟩ := h
  by_cases hin : m < vs.length
  · have hu : Rhosus.uvarint (vs.take m) = (0, 0) := uvarintFrom_take hv 0 (by omega) hin
    simp [loadNextBinaryEntry, List.take_append_of_le_length hin.le, hu]
  · rw [List.length_append] at hm
    rw [List.take_append, List.take_of_length_le (not_lt.mp hin)]
    simp only [loadNextBinaryEntry, uvarint_varint hv hlen hfit, Int.toNat_natCast,
      List.length_append, List.length_take]
    rw [if_neg (by have := hv.length_pos; omega), if_pos (by omega)]

theorem scanEntries_append {fuel p : ℕ} {rest : Bytes} (h : Item it d) :
    scanEntries (fuel + 1) p (it ++ rest)
      = (scanEntries fuel (p + it.length) rest).map (⟨p, p + it.length⟩ :: ·) := by
  obtain ⟨b, bs, hb⟩ : ∃ b bs, it ++ rest = b :: bs := by
    refine List.exists_cons_of_ne_nil fun hnil => ?_
    have := h.length_pos
    rw [(List.append_eq_nil_iff.mp hnil).1] at this
    simp at this
  rw [hb, scanEntries, ← hb, h.loadNext]
  simp only []
  rw [List.drop_left]

theorem scanEntries_flatten : ∀ {its : List Bytes} {fuel : ℕ} (p : ℕ),
    (∀ it ∈ its, ∃ d, Item it d) → its.flatten.length ≤ fuel →
    scanEntries fuel p its.flatten = some (spans p its)
  | [], fuel, p, _, _ => by cases fuel <;> rfl
  | it :: its, fuel, p, hall, hfuel => by
    obtain ⟨d, hit⟩ := hall it List.mem_cons_self
    have hpos := hit.length_pos
    rw [List.flatten_cons, List.length_append] at hfuel
    obtain ⟨fuel, rfl⟩ : ∃ k, fuel = k + 1 := ⟨fuel - 1, by omega⟩
    rw [List.flatten_cons, scanEntries_append hit, scanEntries_flatten _
      (fun e he => hall e (List.mem_cons_of_mem _ he)) (by omega)]
    rfl

theorem scanEntries_sound : ∀ {fuel p : ℕ} {data : Bytes} {epos : List BPos},
    scanEntries fuel p data = some epos → ∃ its : List Bytes, (∀ it ∈ its, ∃ d, Item it d)
      ∧ data = its.flatten ∧ epos = spans p its
  | fuel, p, [], epos, h => by
    have : epos = [] := by cases fuel <;> exact (Option.some.inj h).symm
    exact ⟨[], by simp, rfl, this⟩
  | 0, p, b :: bs, epos, h => by cases h
  | fuel + 1, p, b :: bs, epos, h => by
    rcases hn : loadNextBinaryEntry (b :: bs) with _ | n <;>
      simp only [scanEntries, hn, reduceCtorEq, Option.map_eq_some_iff] at h
    obtain ⟨epos', hscan, rfl⟩ := h
    obtain ⟨it, d, rest, hdata, hit, rfl⟩ := loadNextBinaryEntry_sound hn
    rw [hdata, List.drop_left] at hscan
    obtain ⟨its, hall, rfl, rfl⟩ := scanEntries_sound hscan
    refine ⟨it :: its, ?_, hdata, rfl⟩
    simpa only [List.forall_mem_cons] using ⟨⟨d, hit⟩, hall⟩

/-- A concatenation of items that is cut short is not loaded, unless the cut is between two. -/
theorem scanEntries_take : ∀ {its : List Bytes} {fuel m : ℕ} (p : ℕ),
    (∀ it ∈ its, ∃ d, Item it d) → m < its.flatten.length →
    (∀ j ≤ its.length, m ≠ (its.take j).flatten.length) →
    scanEntries fuel p (its.flatten.take m) = none
  | [], _, m, _, _, hm, _ => by simp at hm
  | it :: its, fuel, m, p, hall, hm, hcut => by
    obtain ⟨d, hit⟩ := hall it List.mem_cons_self
    obtain ⟨b, bs, hb⟩ : ∃ b bs, (it :: its).flatten.take m = b :: bs := by
      refine List.exists_cons_of_ne_nil fun h => ?_
      have := congrArg List.length h
      have h0 := hcut 0 (Nat.zero_le _)
      rw [List.length_take, List.length_nil] at this
      rw [List.take_zero, List.flatten_nil, List.length_nil] at h0
      omega
    rw [List.flatten_cons, List.length_append] at hm
    cases fuel with
    | zero => rw [hb, scanEntries]
    | succ fuel =>
      by_cases hin : m < it.length
      · rw [List.flatten_cons, List.take_append_of_le_length hin.le] at hb ⊢
        have hload := hit.loadNext_take hin
        rw [hb] at hload ⊢
        rw [scanEntries, hload]
      · rw [List.flatten_cons, List.take_append, List.take_of_length_le (not_lt.mp hin),
          scanEntries_append hit, scanEntries_take _
            (fun e he => hall e (List.mem_cons_of_mem _ he))
          (by omega) fun j hj => ?_]
        · rfl
        · have := hcut (j + 1) (by simpa using hj)
          rw [List.take_succ_cons, List.flatten_cons, List.length_append] at this
          omega

theorem getElem?_spans : ∀ (its : List Bytes) (p i : ℕ), i < its.length →
    (spans p its)[i]? = some ⟨p + (its.take i).flatten.length,
      p + (its.take (i + 1)).flatten.length⟩
  | it :: its, p, 0, _ => by simp [spans]
  | it :: its, p, i + 1, h => by
    rw [spans, List.getElem?_cons_succ, getElem?_spans its _ i (by simpa using h)]
    simp [add_assoc]

theorem length_spans : ∀ (p : ℕ) (its : List Bytes), (spans p its).length = its.length
  | _, [] => rfl
  | p, it :: its => by simp [spans, length_spans _ its]

end Items

section Encoded

theorem encodeEntry_length_pos (d : Bytes) : 0 < (encodeEntry d).length := by
  have := putUvarint_length_pos d.length
  simp only [encodeEntry, List.length_append]
  omega

@[simp]
theorem encode_nil : encode [] = [] := rfl

@[simp]
theorem encode_cons (d : Bytes) (ds : List Bytes) : encode (d :: ds) = encodeEntry d ++ encode ds :=
  rfl

@[simp]
theorem encode_append (ds es : List Bytes) : encode (ds ++ es) = encode ds ++ encode es := by
  simp [encode]

theorem encode_eq_nil {ds : List Bytes} : encode ds = [] ↔ ds = [] := by
  rcases ds with _ | ⟨d, ds⟩
  · simp
  · have := encodeEntry_length_pos d
    simp only [encode_cons, List.append_eq_nil_iff, reduceCtorEq, iff_false, not_and]
    intro h
    rw [h] at this
    simp at this

theorem item_encodeEntry {d : Bytes} (hd : Fits d) : Item (encodeEntry d) d := by
  have hfit : d.length < 2 ^ 64 := hd.trans (by norm_num)
  exact ⟨_, rfl, varint_putUvarint hfit, putUvarint_length_le _, hfit⟩

theorem items_encode {ds : List Bytes} (hd : ∀ d ∈ ds, Fits d) :
    ∀ it ∈ ds.map encodeEntry, ∃ d, Item it d := by
  intro it hit
  obtain ⟨d, hmem, rfl⟩ := List.mem_map.mp hit
  exact ⟨d, item_encodeEntry (hd d hmem)⟩

theorem encode_eq_flatten (ds : List Bytes) : encode ds = (ds.map encodeEntry).flatten :=
  List.flatMap_def

theorem positionsFrom_eq_spans : ∀ (p : ℕ) (ds : List Bytes),
    positionsFrom p ds = spans p (ds.map encodeEntry)
  | _, [] => rfl
  | p, d :: ds => by rw [positionsFrom, positionsFrom_eq_spans _ ds, List.map_cons, spans]

theorem scanSegment_encode {ds : List Bytes} (hd : ∀ d ∈ ds, Fits d) :
    scanSegment (encode ds) = some (positions ds) := by
  rw [scanSegment, positions, positionsFrom_eq_spans, encode_eq_flatten]
  exact scanEntries_flatten 0 (items_encode hd) le_rfl

/-- The bytes of a segment cut short inside a record are not loaded. -/
theorem scanSegment_take {ds : List Bytes} (hd : ∀ d ∈ ds, Fits d) {m : ℕ}
    (hm : m < (encode ds).length) (hcut : ∀ j ≤ ds.length, m ≠ (encode (ds.take j)).length) :
    scanSegment ((encode ds).take m) = none := by
  rw [scanSegment]
  simp only [encode_eq_flatten, List.map_take] at hm hcut ⊢
  exact scanEntries_take 0 (items_encode hd) hm (by simpa using hcut)

theorem decodeRecords_encode : ∀ (ds : List Bytes) (fuel : ℕ), (∀ d ∈ ds, Fits d) →
    (encode ds).length ≤ fuel → decodeRecords fuel (encode ds) = some ds
  | [], fuel, _, _ => by cases fuel <;> rfl
  | d :: ds, fuel, hd, hf => by
    have hpos := encodeEntry_length_pos d
    have hfits := hd d List.mem_cons_self
    rw [encode_cons, List.length_append] at hf
    obtain ⟨fuel, rfl⟩ : ∃ k, fuel = k + 1 := ⟨fuel - 1, by omega⟩
    obtain ⟨b, bs, hb⟩ : ∃ b bs, encode (d :: ds) = b :: bs :=
      List.exists_cons_of_ne_nil fun h => by cases encode_eq_nil.mp h
    have hrest := decodeRecords_encode ds fuel (fun e he => hd e (List.mem_cons_of_mem _ he))
      (by omega)
    rw [hb, decodeRecords, ← hb, encode_cons, (item_encodeEntry hfits).loadNext,
      Option.bind_eq_bind, Option.bind_some, List.take_left, List.drop_left,
      (item_encodeEntry hfits).decode, hrest]
    rfl

@[simp]
theorem length_positions (ds : List Bytes) : (positions ds).length = ds.length := by
  rw [positions, positionsFrom_eq_spans, length_spans, List.length_map]

theorem positionsFrom_append : ∀ (p : ℕ) (ds es : List Bytes),
    positionsFrom p (ds ++ es) = positionsFrom p ds ++ positionsFrom (p + (encode ds).length) es
  | p, [], es => by simp [positionsFrom]
  | p, d :: ds, es => by
    rw [List.cons_append, positionsFrom, positionsFrom_append _ ds es]
    simp [positionsFrom, add_assoc]

theorem appendBinaryEntry_encode (ds : List Bytes) (d : Bytes) :
    appendBinaryEntry (encode ds) d =
      (encode (ds ++ [d]), ⟨(encode ds).length, (encode (ds ++ [d])).length⟩)
      ∧ positions (ds ++ [d]) = positions ds ++
        [⟨(encode ds).length, (encode (ds ++ [d])).length⟩] := by
  constructor
  · simp [appendBinaryEntry, encodeEntry]
  · simp [positions, positionsFrom_append, positionsFrom]

theorem getElem?_positions {ds : List Bytes} {i : ℕ} (h : i < ds.length) :
    (positions ds)[i]? = some ⟨(encode (ds.take i)).length, (encode (ds.take (i + 1))).length⟩ := by
  rw [positions, positionsFrom_eq_spans, getElem?_spans _ _ _ (by simpa using h)]
  simp only [encode_eq_flatten, List.map_take, Nat.zero_add]

theorem encode_split (ds : List Bytes) (i : ℕ) :
    encode ds = encode (ds.take i) ++ encode (ds.drop i) := by
  rw [← encode_append, List.take_append_drop]

theorem drop_encode (ds : List Bytes) (i : ℕ) :
    (encode ds).drop (encode (ds.take i)).length = encode (ds.drop i) := by
  rw [encode_split ds i, List.drop_left]

theorem take_encode (ds : List Bytes) (i : ℕ) :
    (encode ds).take (encode (ds.take i)).length = encode (ds.take i) := by
  rw [encode_split ds i, List.take_left]

theorem length_encode_take_le (ds : List Bytes) (i : ℕ) :
    (encode (ds.take i)).length ≤ (encode ds).length := by
  rw [encode_split ds i, List.length_append]
  omega

theorem encode_take_ne {ds : List Bytes} {i : ℕ} (h : i < ds.length) :
    encode (ds.take i) ≠ encode ds := by
  intro he
  rw [encode_split ds i, List.self_eq_append_right, encode_eq_nil, List.drop_eq_nil_iff] at he
  omega

theorem encode_drop_ne {ds : List Bytes} {i : ℕ} (h : 0 < i) (hi : i < ds.length) :
    encode (ds.drop i) ≠ encode ds := by
  intro he
  rw [encode_split ds i, List.self_eq_append_left, encode_eq_nil, List.take_eq_nil_iff] at he
  rcases he with rfl | rfl
  · omega
  · simp at hi

/-- A segment cut short is loaded, if at all, with fewer records. -/
theorem length_lt_of_scanSegment_take {ds : List Bytes} (hd : ∀ d ∈ ds, Fits d) {m : ℕ}
    (hm : m < (encode ds).length) {epos : List BPos}
    (h : scanSegment ((encode ds).take m) = some epos) : epos.length < ds.length := by
  by_cases hcut : ∀ j ≤ ds.length, m ≠ (encode (ds.take j)).length
  · rw [scanSegment_take hd hm hcut] at h
    cases h
  · push Not at hcut
    obtain ⟨j, hj, rfl⟩ := hcut
    rw [take_encode, scanSegment_encode fun d hmem => hd d (List.mem_of_mem_take hmem)] at h
    obtain rfl := Option.some.inj h
    have hne : j ≠ ds.length := by
      rintro rfl
      rw [List.take_length] at hm
      omega
    rw [length_positions, List.length_take]
    omega

end Encoded

end Rhosus.Wal

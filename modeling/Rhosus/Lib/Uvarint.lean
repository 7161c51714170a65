import Mathlib.Data.Nat.Bitwise
import Mathlib.Tactic.Linarith
import Mathlib.Tactic.Ring

/-!
# Base-128 varints

Seven bits to a byte, the lowest first, every byte but the last with its high bit set (`Varint`).
What is read from the start of some bytes is such a varint, of at most ten bytes and below `2 ^ 64`
(`uvarint_sound`), and every such varint is read, whatever follows it (`uvarint_varint`). A value
below `2 ^ 64` is written as one of them.
-/

namespace Rhosus

abbrev Bytes := List UInt8

-- Named: Lean keeps the proof that it finds for a definition as a lemma of that definition, and
-- the next definition that needs the proof then rests on that one, whatever it is about.
instance lawfulBEq_bytes : LawfulBEq Bytes := inferInstance

/-- The bytes of `x`, in at most `fuel` of them. -/
def putUvarintIn : ℕ → ℕ → Bytes
  | 0, _ => []
  | fuel + 1, x =>
    if 0x80 ≤ x then (UInt8.ofNat x ||| 0x80) :: putUvarintIn fuel (x >>> 7) else [UInt8.ofNat x]

/-- `binary.PutUvarint`: the ten-byte buffer it writes to holds any 64-bit value. -/
def putUvarint (x : ℕ) : Bytes := putUvarintIn 10 x

/-- Reads on from byte `i`, the bytes before it having given `x`. -/
def uvarintFrom : Bytes → ℕ → ℕ → ℕ × ℤ
  | [], _, _ => (0, 0)
  | b :: bs, i, x =>
    if i = 10 then (0, -(i + 1))
    else if b < 0x80 then
      if i = 9 ∧ 1 < b then (0, -(i + 1)) else (x ||| b.toNat <<< (7 * i), i + 1)
    else uvarintFrom bs (i + 1) (x ||| (b &&& 0x7f).toNat <<< (7 * i))

/-- `binary.Uvarint`: the value at the start of the bytes and how many of them it took; none, if
they end inside it, and a negative number if it does not fit 64 bits. -/
def uvarint (bs : Bytes) : ℕ × ℤ := uvarintFrom bs 0 0

/-- The bytes are a varint of this value, and not necessarily the shortest. -/
inductive Varint : Bytes → ℕ → Prop
  | last {b : UInt8} (h : b < 0x80) : Varint [b] b.toNat
  | more {b : UInt8} {vs : Bytes} {x : ℕ} (h : ¬ b < 0x80) (hv : Varint vs x) :
    Varint (b :: vs) (b.toNat % 128 + 128 * x)

theorem Varint.length_pos {vs : Bytes} {x : ℕ} (h : Varint vs x) : 0 < vs.length := by
  cases h <;> simp

theorem toNat_or_high (x : ℕ) : (UInt8.ofNat x ||| 0x80).toNat = x % 128 + 128 := by
  have h : ∀ y < 256, y ||| 128 = y % 128 + 128 := by decide +kernel
  rw [UInt8.toNat_or, UInt8.toNat_ofNat']
  have := h (x % 2 ^ 8) (Nat.mod_lt _ (by norm_num))
  simp only [UInt8.reduceToNat] at this ⊢
  omega

theorem or_shiftLeft {x i : ℕ} (b : ℕ) (h : x < 2 ^ i) : x ||| b <<< i = x + b * 2 ^ i := by
  rw [Nat.or_comm, ← Nat.shiftLeft_add_eq_or_of_lt h, Nat.shiftLeft_eq]
  omega

theorem toNat_and_low (b : UInt8) : (b &&& 0x7f).toNat = b.toNat % 128 := by
  rw [UInt8.toNat_and]
  exact Nat.and_two_pow_sub_one_eq_mod b.toNat 7

theorem add_low_lt {x i : ℕ} (b : ℕ) (h : x < 2 ^ (7 * i)) :
    x + b % 128 * 2 ^ (7 * i) < 2 ^ (7 * (i + 1)) := by
  have hm : b % 128 + 1 ≤ 128 := Nat.mod_lt _ (by norm_num)
  have he : 2 ^ (7 * (i + 1)) = 128 * 2 ^ (7 * i) := by
    rw [show 7 * (i + 1) = 7 * i + 7 by ring, pow_add]; ring
  rw [he]
  nlinarith [Nat.mul_le_mul_right (2 ^ (7 * i)) hm]

theorem add_low_mul (x i b v : ℕ) : x + b % 128 * 2 ^ (7 * i) + v * 2 ^ (7 * (i + 1))
    = x + (b % 128 + 128 * v) * 2 ^ (7 * i) := by
  rw [show 7 * (i + 1) = 7 * i + 7 by ring, pow_add]
  ring

/-- What is left of a varint after `i` bytes is read on top of the part already read. -/
theorem uvarintFrom_varint (rest : Bytes) {vs : Bytes} {v : ℕ} (hv : Varint vs v) :
    ∀ {i x : ℕ}, i + vs.length ≤ 10 → x < 2 ^ (7 * i) → x + v * 2 ^ (7 * i) < 2 ^ 64 →
    uvarintFrom (vs ++ rest) i x = (x + v * 2 ^ (7 * i), ((i + vs.length : ℕ) : ℤ)) := by
  induction hv with
  | @last b hlow =>
    intro i x hlen hx hfit
    rw [List.length_singleton] at hlen
    have h9 : ¬ (i = 9 ∧ 1 < b) := by
      rintro ⟨rfl, h1⟩
      rw [UInt8.lt_iff_toNat_lt, UInt8.toNat_one] at h1
      norm_num at hfit
      omega
    rw [List.cons_append, uvarintFrom, if_neg (by omega), if_pos hlow, if_neg h9,
      or_shiftLeft _ hx]
    simp
  | @more b vs v hhigh hv ih =>
    intro i x hlen hx hfit
    rw [List.length_cons] at hlen
    have hpos := hv.length_pos
    rw [List.cons_append, uvarintFrom, if_neg (by omega), if_neg hhigh, toNat_and_low,
      or_shiftLeft _ hx, ih (by omega) (add_low_lt _ hx) (by rwa [add_low_mul]), add_low_mul]
    simp only [List.length_cons, Prod.mk.injEq, true_and]
    omega

theorem uvarintFrom_sound : ∀ {bs : Bytes} {i x y : ℕ} {n : ℤ}, i ≤ 10 → x < 2 ^ (7 * i) →
    uvarintFrom bs i x = (y, n) → 0 < n → ∃ vs v rest, bs = vs ++ rest ∧ Varint vs v
      ∧ i + vs.length ≤ 10 ∧ y < 2 ^ 64 ∧ y = x + v * 2 ^ (7 * i) ∧ n = ((i + vs.length : ℕ) : ℤ)
  | [], i, x, y, n, _, _, h, hn => by
    cases h
    omega
  | b :: bs, i, x, y, n, hi, hx, h, hn => by
    rw [uvarintFrom] at h
    split_ifs at h with h10 hlow h9
    · cases h
      omega
    · cases h
      omega
    · obtain ⟨rfl, rfl⟩ := Prod.mk.inj h
      rw [or_shiftLeft _ hx]
      refine ⟨[b], b.toNat, bs, rfl, .last hlow, by simp; omega, ?_, rfl, by simp⟩
      rw [UInt8.lt_iff_toNat_lt] at hlow
      by_cases hi9 : i = 9
      · subst hi9
        have h1 : b.toNat ≤ 1 := by
          rw [← UInt8.toNat_one, ← UInt8.le_iff_toNat_le, ← UInt8.not_lt]
          exact fun h1 => h9 ⟨rfl, h1⟩
        norm_num at hx ⊢
        omega
      · have hlt := add_low_lt b.toNat hx
        rw [Nat.mod_eq_of_lt (by simpa using hlow)] at hlt
        exact hlt.trans (Nat.pow_lt_pow_right (by norm_num) (by omega))
    · rw [toNat_and_low, or_shiftLeft _ hx] at h
      obtain ⟨vs, v, rest, rfl, hv, hlen, hfit, rfl, rfl⟩ :=
        uvarintFrom_sound (by omega) (add_low_lt _ hx) h hn
      refine ⟨b :: vs, _, rest, rfl, .more hlow hv, ?_, hfit, add_low_mul .., ?_⟩
      · rw [List.length_cons]
        omega
      · rw [List.length_cons]
        omega

/-- A varint of a 64-bit value, in at most ten bytes, is read whatever follows it. -/
theorem uvarint_varint {vs : Bytes} {v : ℕ} (hv : Varint vs v) (hlen : vs.length ≤ 10)
    (hfit : v < 2 ^ 64) (rest : Bytes) : uvarint (vs ++ rest) = (v, (vs.length : ℤ)) := by
  have := uvarintFrom_varint rest hv (i := 0) (x := 0) (by omega) (by norm_num)
    (by simpa using hfit)
  simpa [uvarint] using this

theorem uvarint_sound {bs : Bytes} (h : 0 < (uvarint bs).2) : ∃ vs v rest, bs = vs ++ rest
    ∧ Varint vs v ∧ vs.length ≤ 10 ∧ v < 2 ^ 64 ∧ uvarint bs = (v, (vs.length : ℤ)) := by
  obtain ⟨vs, v, rest, hbs, hv, hlen, hfit, hy, hn⟩ :=
    uvarintFrom_sound (i := 0) (x := 0) (by omega) (by norm_num) rfl h
  have hval : (uvarint bs).1 = v := by simpa [uvarint] using hy
  refine ⟨vs, v, rest, hbs, hv, by omega, hval ▸ hfit, ?_⟩
  rw [← hval, show (vs.length : ℤ) = (uvarint bs).2 by rw [uvarint, hn]; simp]

theorem uvarintFrom_take {vs : Bytes} {v : ℕ} (hv : Varint vs v) : ∀ {i m : ℕ} (x : ℕ),
    i + vs.length ≤ 11 → m < vs.length → uvarintFrom (vs.take m) i x = (0, 0) := by
  induction hv with
  | last h =>
    intro i m x _ hm
    obtain rfl : m = 0 := by simpa using hm
    rfl
  | more hhigh hv ih =>
    intro i m x hi hm
    cases m with
    | zero => rfl
    | succ m =>
      rw [List.length_cons] at hi hm
      have := hv.length_pos
      rw [List.take_succ_cons, uvarintFrom, if_neg (by omega), if_neg hhigh]
      exact ih _ (by omega) (by omega)

theorem varint_putUvarintIn : ∀ (fuel x : ℕ), x < 2 ^ (7 * fuel) → 0 < fuel →
    Varint (putUvarintIn fuel x) x
  | fuel + 1, x, hx, _ => by
    unfold putUvarintIn
    split_ifs with hbig
    · have hhigh : ¬ (UInt8.ofNat x ||| 0x80) < 0x80 := by
        rw [UInt8.lt_iff_toNat_lt, toNat_or_high]
        simp
      have hshift : x >>> 7 = x / 128 := by rw [Nat.shiftRight_eq_div_pow]
      have hx' : x / 128 < 2 ^ (7 * fuel) := by
        rw [Nat.div_lt_iff_lt_mul (by norm_num), show 128 = 2 ^ 7 by norm_num, ← pow_add]
        exact hx
      have hfuel : 0 < fuel := by
        by_contra h0
        obtain rfl : fuel = 0 := by omega
        norm_num at hx
        omega
      have := Varint.more hhigh (varint_putUvarintIn fuel (x / 128) hx' hfuel)
      rwa [toNat_or_high, Nat.add_mod_right, Nat.mod_mod, Nat.mod_add_div, ← hshift] at this
    · have hb : (UInt8.ofNat x).toNat = x := by
        rw [UInt8.toNat_ofNat', Nat.mod_eq_of_lt (by omega)]
      have hlow : UInt8.ofNat x < 0x80 := by
        rw [UInt8.lt_iff_toNat_lt, hb]
        simpa using hbig
      have := Varint.last hlow
      rwa [hb] at this

theorem varint_putUvarint {x : ℕ} (h : x < 2 ^ 64) : Varint (putUvarint x) x :=
  varint_putUvarintIn 10 x (h.trans (by norm_num)) (by norm_num)

theorem putUvarintIn_length_le : ∀ fuel x : ℕ, (putUvarintIn fuel x).length ≤ fuel
  | 0, _ => le_rfl
  | fuel + 1, x => by
    unfold putUvarintIn
    split_ifs
    · have := putUvarintIn_length_le fuel (x >>> 7)
      simp only [List.length_cons]
      omega
    · simp

theorem putUvarint_length_le (x : ℕ) : (putUvarint x).length ≤ 10 := putUvarintIn_length_le 10 x

theorem putUvarint_length_pos (x : ℕ) : 0 < (putUvarint x).length := by
  unfold putUvarint putUvarintIn
  split_ifs <;> simp

end Rhosus

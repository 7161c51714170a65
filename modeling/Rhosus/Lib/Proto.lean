import Rhosus.Lib.Uvarint

/-!
# Protocol buffers on the wire

A message is a sequence of fields, each a tag and a value: the tag holds the number of the field
and the kind of its value. The loop that reads a message back is the one generated for Go: it
hands each known field to the message's own function and skips the others. A message that ends in
an error keeps the fields read so far.
-/

namespace Rhosus.Proto

/-- Reads on from byte `i` of a varint, the bytes before it having given `x`, into a variable of
`w` bits: the bits above are lost. The value so far stays in the variable on an error. -/
def readVarintFrom (w : ℕ) : Bytes → ℕ → ℕ → ℕ × Option Bytes
  | [], _, x => (x, none)
  | b :: bs, i, x =>
    if 64 ≤ 7 * i then (x, none)
    else
      let x := (x ||| (b &&& 0x7f).toNat <<< (7 * i)) % 2 ^ w
      if b < 0x80 then (x, some bs) else readVarintFrom w bs (i + 1) x

def readVarint (w : ℕ) (bs : Bytes) : ℕ × Option Bytes := readVarintFrom w bs 0 0

def after (n : ℕ) (bs : Bytes) : Option Bytes := if n ≤ bs.length then some (bs.drop n) else none

/-- What follows an unknown field; within groups, which may nest, what follows the outermost. -/
def skip : ℕ → ℕ → Bytes → Option Bytes
  | 0, _, _ => none
  | fuel + 1, depth, bs =>
    match readVarint 64 bs with
    | (_, none) => none
    | (wire, some bs) =>
      let next (depth : ℕ) (bs : Option Bytes) : Option Bytes :=
        bs.bind fun bs => if depth = 0 then some bs else skip fuel depth bs
      match wire % 8 with
      | 0 => next depth (readVarint 64 bs).2
      | 1 => next depth (after 8 bs)
      | 2 =>
        match readVarint 64 bs with
        | (_, none) => none
        | (length, some bs) => next depth (after length bs)
      | 3 => next (depth + 1) (some bs)
      | 4 => if depth = 0 then none else next (depth - 1) (some bs)
      | 5 => next depth (after 4 bs)
      | _ => none

/-- Reads the value of a field with this number and kind: `none` if the message has no such field,
else the message with it and what follows, which is `none` on an error. -/
abbrev ReadField (M : Type) := ℕ → ℕ → Bytes → M → Option (M × Option Bytes)

/-- The generated loop, and whether it ends without an error. Each field takes at least a byte, so
as many rounds as bytes are enough. -/
def unmarshalFrom {M : Type} (field : ReadField M) : ℕ → M → Bytes → M × Bool
  | _, m, [] => (m, true)
  | 0, m, _ :: _ => (m, false)
  | fuel + 1, m, b :: bs =>
    match readVarint 64 (b :: bs) with
    | (_, none) => (m, false)
    | (wire, some rest) =>
      let num := Int.bmod (wire / 8 : ℕ) (2 ^ 32)
      if wire % 8 = 4 ∨ num ≤ 0 then (m, false)
      else
        match field num.toNat (wire % 8) rest m with
        | some (m, some rest) => unmarshalFrom field fuel m rest
        | some (m, none) => (m, false)
        | none =>
          match skip (fuel + 1) 0 (b :: bs) with
          | some rest => unmarshalFrom field fuel m rest
          | none => (m, false)

def unmarshal {M : Type} (field : ReadField M) (m : M) (bs : Bytes) : M × Bool :=
  unmarshalFrom field bs.length m bs

def tag (num kind : ℕ) : Bytes := putUvarint (8 * num + kind)

/-- A field whose value is a varint; a zero is left out. -/
def varintField (num v : ℕ) : Bytes := if v = 0 then [] else tag num 0 ++ putUvarint v

/-- A field whose value is bytes; an empty one is left out. -/
def bytesField (num : ℕ) (d : Bytes) : Bytes :=
  if d = [] then [] else tag num 2 ++ putUvarint d.length ++ d

/-- Reads bytes with their length before them. -/
def readBytes (bs : Bytes) : Option (Bytes × Bytes) :=
  match readVarint 64 bs with
  | (_, none) => none
  | (n, some bs) => if n ≤ bs.length then some (bs.take n, bs.drop n) else none

section Varints

variable {w : ℕ}

theorem or_mod_left (x y : ℕ) : (x % 2 ^ w ||| y) % 2 ^ w = (x ||| y) % 2 ^ w := by
  rw [Nat.or_mod_two_pow, Nat.mod_mod, ← Nat.or_mod_two_pow]

theorem readVarintFrom_varint (rest : Bytes) {vs : Bytes} {v : ℕ} (hv : Varint vs v) :
    ∀ {i x : ℕ}, i + vs.length ≤ 10 → x < 2 ^ (7 * i) →
    readVarintFrom w (vs ++ rest) i (x % 2 ^ w) = ((x + v * 2 ^ (7 * i)) % 2 ^ w, some rest) := by
  induction hv with
  | @last b hlow =>
    intro i x hlen hx
    have hmask : b.toNat % 128 = b.toNat := Nat.mod_eq_of_lt (by
      simpa using UInt8.lt_iff_toNat_lt.mp hlow)
    rw [List.length_singleton] at hlen
    rw [List.cons_append, readVarintFrom, if_neg (by omega), toNat_and_low, hmask, or_mod_left,
      or_shiftLeft _ hx, if_pos hlow, List.nil_append]
  | @more b vs v hhigh hv ih =>
    intro i x hlen hx
    rw [List.length_cons] at hlen
    rw [List.cons_append, readVarintFrom, if_neg (by omega), toNat_and_low, or_mod_left,
      or_shiftLeft _ hx, if_neg hhigh, ih (by omega) (add_low_lt _ hx), add_low_mul]

theorem readVarint_put {v : ℕ} (hv : v < 2 ^ 64) (rest : Bytes) :
    readVarint w (putUvarint v ++ rest) = (v % 2 ^ w, some rest) := by
  have hlen := putUvarint_length_le v
  have := readVarintFrom_varint (w := w) rest (varint_putUvarint hv) (i := 0) (x := 0) (by omega)
    (by norm_num)
  simpa [readVarint] using this

theorem readBytes_put {d : Bytes} (hd : d.length < 2 ^ 64) (rest : Bytes) :
    readBytes (putUvarint d.length ++ d ++ rest) = some (d, rest) := by
  rw [readBytes, List.append_assoc, readVarint_put hd]
  simp only [Nat.mod_eq_of_lt hd]
  rw [if_pos (by simp), List.take_left, List.drop_left]

end Varints

section Messages

variable {M : Type} {field : ReadField M} {m m' : M} {rest : Bytes} {num : ℕ}

theorem readVarint_tag {kind : ℕ} (hnum : num < 2 ^ 28) (hkind : kind < 8) (rest : Bytes) :
    readVarint 64 (tag num kind ++ rest) = (8 * num + kind, some rest) := by
  rw [tag, readVarint_put (by omega), Nat.mod_eq_of_lt (by omega)]

/-- A round of the loop, by the number and the kind that the tag has. -/
theorem unmarshalFrom_tag {kind fuel : ℕ} (hnum : 0 < num) (hnum' : num < 2 ^ 28)
    (hkind : kind < 8 ∧ kind ≠ 4) (bs : Bytes) :
    unmarshalFrom field (fuel + 1) m (tag num kind ++ bs)
      = match field num kind bs m with
        | some (m, some rest) => unmarshalFrom field fuel m rest
        | some (m, none) => (m, false)
        | none =>
          match skip (fuel + 1) 0 (tag num kind ++ bs) with
          | some rest => unmarshalFrom field fuel m rest
          | none => (m, false) := by
  have hread := readVarint_tag hnum' hkind.1 bs
  have hdiv : Int.bmod ((8 * num + kind) / 8 : ℕ) (2 ^ 32) = num := by
    rw [show (8 * num + kind) / 8 = num by omega]
    refine Int.bmod_eq_of_le ?_ ?_ <;> omega
  have hmod : (8 * num + kind) % 8 = kind := by omega
  rcases hb : tag num kind ++ bs with _ | ⟨b, bs'⟩ <;> rw [hb] at hread
  · simp [readVarint, readVarintFrom] at hread
  · rw [unmarshalFrom, hread]
    simp only [hdiv, hmod]
    rw [if_neg (by omega), Int.toNat_natCast]

/-- Reading `bs` into `m` gives `m'`, without an error. -/
def Reads (field : ReadField M) (m : M) (bs : Bytes) (m' : M) : Prop :=
  ∀ fuel, bs.length ≤ fuel → unmarshalFrom field fuel m bs = (m', true)

namespace Reads

theorem nil : Reads field m [] m := fun fuel _ => by cases fuel <;> rfl

theorem unmarshal {bs : Bytes} (h : Reads field m bs m') : unmarshal field m bs = (m', true) :=
  h _ le_rfl

theorem cons {kind : ℕ} {value : Bytes} {m₁ : M} (hnum : 0 < num) (hnum' : num < 2 ^ 28)
    (hkind : kind < 8 ∧ kind ≠ 4) (hfield : field num kind (value ++ rest) m = some (m₁, some rest))
    (h : Reads field m₁ rest m') : Reads field m (tag num kind ++ value ++ rest) m' := by
  intro fuel hf
  have hpos : 0 < (tag num kind).length := putUvarint_length_pos _
  simp only [List.length_append] at hf
  obtain ⟨fuel, rfl⟩ : ∃ k, fuel = k + 1 := ⟨fuel - 1, by omega⟩
  rw [List.append_assoc, unmarshalFrom_tag hnum hnum' hkind, hfield]
  exact h fuel (by omega)

theorem varint {v : ℕ} (m₁ : M) (hnum : 0 < num) (hnum' : num < 2 ^ 28) (hv : v < 2 ^ 64)
    (hzero : v = 0 → m₁ = m) (hfield : ∀ bs rest, (∀ w, readVarint w bs = (v % 2 ^ w, some rest)) →
      field num 0 bs m = some (m₁, some rest))
    (h : Reads field m₁ rest m') : Reads field m (varintField num v ++ rest) m' := by
  unfold varintField
  split_ifs with h0
  · rw [← hzero h0]
    exact h
  · exact cons hnum hnum' (by norm_num) (hfield _ _ fun w => readVarint_put hv _) h

theorem bytes {d : Bytes} (m₁ : M) (hnum : 0 < num) (hnum' : num < 2 ^ 28) (hd : d.length < 2 ^ 64)
    (hnil : d = [] → m₁ = m) (hfield : ∀ bs rest, readBytes bs = some (d, rest) →
      field num 2 bs m = some (m₁, some rest))
    (h : Reads field m₁ rest m') : Reads field m (bytesField num d ++ rest) m' := by
  unfold bytesField
  split_ifs with h0
  · rw [← hnil h0]
    exact h
  · rw [List.append_assoc (tag num 2)]
    exact cons hnum hnum' (by norm_num) (hfield _ _ (readBytes_put hd _)) h

end Reads

end Messages

end Rhosus.Proto

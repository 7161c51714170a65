import Rhosus.Lib.Proto
import Rhosus.Util.Slices
import Mathlib.Algebra.Order.BigOperators.Group.List

/-!
# Generated messages

The methods that the generator makes for a message, from a list of its fields: `Size`, which says
how many bytes the message takes, `MarshalToSizedBuffer`, which fills a buffer of that many bytes
from its end, the last field first, and `Unmarshal`. A message may have other messages in it.

Filled from the end or not, the bytes are those of the fields one after the other, they fill the
buffer, and reading them gives the message back (`Message.lawful`).
-/

namespace Rhosus.Proto

open Util (set? copy?)

section Buffers

/-- A slice that is filled from its end: what is written so far begins at `i`. -/
structure Buffer where
  dAtA : Bytes
  i : ℕ

/-- How many bytes the varint of `x` takes, by the number of its bits. -/
def sov (x : ℕ) : ℕ := (Nat.log2 (x ||| 1) + 1 + 6) / 7

namespace Buffer

/-- `i--; dAtA[i] = b` -/
def putByte (b : UInt8) (buf : Buffer) : Option Buffer :=
  if buf.i < 1 then none else (set? buf.dAtA (buf.i - 1) b).map (⟨·, buf.i - 1⟩)

/-- `i -= len(d); copy(dAtA[i:], d)` -/
def putBytes (d : Bytes) (buf : Buffer) : Option Buffer :=
  if buf.i < d.length then none
  else (copy? buf.dAtA (buf.i - d.length) d).map (⟨·, buf.i - d.length⟩)

/-- The loop of `encodeVarint`, which goes forward again; ten rounds are enough for 64 bits. -/
def fill : ℕ → ℕ → ℕ → Bytes → Option Bytes
  | 0, _, _, _ => none
  | fuel + 1, v, offset, dAtA =>
    if 0x80 ≤ v then
      (set? dAtA offset (UInt8.ofNat (v &&& 0x7f ||| 0x80))).bind (fill fuel (v >>> 7) (offset + 1))
    else set? dAtA offset (UInt8.ofNat v)

def encodeVarint (v : ℕ) (buf : Buffer) : Option Buffer :=
  if buf.i < sov v then none
  else (fill 10 v (buf.i - sov v) buf.dAtA).map (⟨·, buf.i - sov v⟩)

/-- The bytes of a tag, the last first. -/
def putTag (num kind : ℕ) (buf : Buffer) : Option Buffer :=
  (tag num kind).foldr (fun b buf => buf.bind (putByte b)) (some buf)

/-- Bytes, with their length and their tag before them. -/
def putDelimited (num : ℕ) (d : Bytes) (buf : Buffer) : Option Buffer :=
  ((buf.putBytes d).bind (encodeVarint d.length)).bind (putTag num 2)

end Buffer

/-- `LittleEndian.PutUint32` -/
def putUint32 (v : ℕ) : Bytes :=
  [UInt8.ofNat v, UInt8.ofNat (v / 2 ^ 8), UInt8.ofNat (v / 2 ^ 16), UInt8.ofNat (v / 2 ^ 24)]

/-- `LittleEndian.Uint32` of the first four bytes. -/
def uint32 (bs : Bytes) : ℕ := (bs.take 4).foldr (fun b v => b.toNat + 2 ^ 8 * v) 0

theorem uint32_putUint32 {v : ℕ} (hv : v < 2 ^ 32) (rest : Bytes) :
    uint32 (putUint32 v ++ rest) = v := by
  simp [uint32, putUint32]
  omega

end Buffers

section Descriptions

structure Lens (M T : Type) where
  get : M → T
  set : T → M → M
  get_set : ∀ v m, get (set v m) = v := by intros; rfl
  set_set : ∀ v w m, set v (set w m) = set v m := by intros; rfl
  set_get : ∀ m, set (get m) m = m := by intros; rfl

/-- A type of numbers that go as varints: `uint64(v)` of a value that fits the type, and the value
of a variable of `width` bits. -/
structure Scalar (T : Type) where
  width : ℕ
  toWire : T → ℕ
  ofWire : ℕ → T
  fits : T → Bool
  toWire_lt : ∀ {v}, fits v → toWire v < 2 ^ 64
  ofWire_toWire : ∀ {v}, fits v → ofWire (toWire v % 2 ^ width) = v

/-- The methods of a message. `Unmarshal` is on top of what the message has; `fits` tells whether
the numbers and lengths in a message are those of their types. -/
structure Methods (M : Type) where
  new : M
  size : M → ℕ
  marshalToSizedBuffer : M → Bytes → Option (ℕ × Bytes)
  unmarshal : M → Bytes → M × Bool
  fits : M → Bool

inductive Field (M : Type) : Type 1
  | scalar (num : ℕ) {T : Type} (s : Scalar T) (l : Lens M T)
  | bool (num : ℕ) (l : Lens M Bool)
  /-- A `float32`, by its bits. -/
  | float (num : ℕ) (l : Lens M ℕ)
  | bytes (num : ℕ) (l : Lens M Bytes)
  | strings (num : ℕ) (l : Lens M (List Bytes))
  | message (num : ℕ) {S : Type} (sub : Methods S) (l : Lens M (Option S))
  | messages (num : ℕ) {S : Type} (sub : Methods S) (l : Lens M (List S))

/-- `uint32` and `uint64` -/
def Scalar.uint (w : ℕ) (hw : w ≤ 64) : Scalar ℕ where
  width := w
  toWire := id
  ofWire := id
  fits v := v < 2 ^ w
  toWire_lt h := (of_decide_eq_true h).trans_le (Nat.pow_le_pow_right (by norm_num) hw)
  ofWire_toWire h := Nat.mod_eq_of_lt (of_decide_eq_true h)

def Scalar.uint64 : Scalar ℕ := .uint 64 le_rfl

def Scalar.uint32 : Scalar ℕ := .uint 32 (by norm_num)

namespace Methods

variable {S : Type} (sub : Methods S)

def marshal (s : S) : Option Bytes :=
  (sub.marshalToSizedBuffer s (List.replicate (sub.size s) 0)).map fun res => res.2.take res.1

def bytes (s : S) : Bytes := (sub.marshal s).getD []

/-- A message within another, written to the part of the buffer that is free. -/
def put (num : ℕ) (s : S) (buf : Buffer) : Option Buffer :=
  (sub.marshalToSizedBuffer s (buf.dAtA.take buf.i)).bind fun res =>
    (Buffer.encodeVarint res.1 ⟨res.2 ++ buf.dAtA.drop buf.i, buf.i - res.1⟩).bind
      (Buffer.putTag num 2)

end Methods

end Descriptions

namespace Field

variable {M : Type}

def num : Field M → ℕ
  | .scalar num .. | .bool num _ | .float num _ | .bytes num _ | .strings num _ |
    .message num .. | .messages num .. => num

def kind : Field M → ℕ
  | .scalar .. | .bool .. => 0
  | .float .. => 5
  | .bytes .. | .strings .. | .message .. | .messages .. => 2

/-- What a field of so many bytes takes, with its tag and its length. -/
def sized (l : ℕ) : ℕ := 1 + l + sov l

def size (m : M) : Field M → ℕ
  | .scalar _ s l => if s.toWire (l.get m) = 0 then 0 else 1 + sov (s.toWire (l.get m))
  | .bool _ l => if l.get m then 2 else 0
  | .float num l => if l.get m % 2 ^ 31 = 0 then 0 else sov (8 * num + 5) + 4
  | .bytes _ l => if l.get m = [] then 0 else sized (l.get m).length
  | .strings _ l => ((l.get m).map fun d => sized d.length).sum
  | .message _ sub l => ((l.get m).map fun s => sized (sub.size s)).getD 0
  | .messages _ sub l => ((l.get m).map fun s => sized (sub.size s)).sum

def write (m : M) : Field M → Buffer → Option Buffer
  | .scalar num s l, buf =>
    if s.toWire (l.get m) = 0 then some buf
    else (buf.encodeVarint (s.toWire (l.get m))).bind (Buffer.putTag num 0)
  | .bool num l, buf => if l.get m then (buf.putByte 1).bind (Buffer.putTag num 0) else some buf
  -- a zero with a sign is one as well
  | .float num l, buf =>
    if l.get m % 2 ^ 31 = 0 then some buf
    else (buf.putBytes (putUint32 (l.get m))).bind (Buffer.putTag num 5)
  | .bytes num l, buf => if l.get m = [] then some buf else buf.putDelimited num (l.get m)
  -- the last one first
  | .strings num l, buf => (l.get m).foldr (fun d buf => buf.bind (Buffer.putDelimited num d)) buf
  | .message num sub l, buf =>
    match l.get m with
    | none => some buf
    | some s => sub.put num s buf
  | .messages num sub l, buf => (l.get m).foldr (fun s buf => buf.bind (sub.put num s)) buf

/-- Reads the value of the field, after its tag. A number that cannot be read to its end is in the
message as far as it was read. -/
def read : Field M → Bytes → M → M × Option Bytes
  | .scalar _ s l, bs, m =>
    let (v, rest) := readVarint s.width bs
    (l.set (s.ofWire v) m, rest)
  | .bool _ l, bs, m =>
    match readVarint 64 bs with
    | (_, none) => (m, none)
    | (v, some rest) => (l.set (v ≠ 0) m, some rest)
  | .float _ l, bs, m =>
    if bs.length < 4 then (m, none) else (l.set (uint32 bs) m, some (bs.drop 4))
  | .bytes _ l, bs, m =>
    match readBytes bs with
    | none => (m, none)
    | some (d, rest) => (l.set d m, some rest)
  | .strings _ l, bs, m =>
    match readBytes bs with
    | none => (m, none)
    | some (d, rest) => (l.set (l.get m ++ [d]) m, some rest)
  | .message _ sub l, bs, m =>
    match readBytes bs with
    | none => (m, none)
    | some (d, rest) =>
      let (s, ok) := sub.unmarshal ((l.get m).getD sub.new) d
      (l.set (some s) m, if ok then some rest else none)
  | .messages _ sub l, bs, m =>
    match readBytes bs with
    | none => (m, none)
    | some (d, rest) =>
      let (s, ok) := sub.unmarshal sub.new d
      (l.set (l.get m ++ [s]) m, if ok then some rest else none)

end Field

/-- A message by its fields. The bytes of fields that it does not know are left out: the generated
code keeps them in `XXX_unrecognized`, and writes them back. -/
structure Message (M : Type) where
  new : M
  fields : List (Field M)

namespace Message

variable {M : Type} (msg : Message M)

def size (m : M) : ℕ := (msg.fields.map (Field.size m)).sum

def marshalToSizedBuffer (m : M) (dAtA : Bytes) : Option (ℕ × Bytes) :=
  (msg.fields.foldr (fun f buf => buf.bind (f.write m)) (some ⟨dAtA, dAtA.length⟩)).map
    fun buf => (dAtA.length - buf.i, buf.dAtA)

def readField : ReadField M := fun num kind bs m =>
  (msg.fields.find? (·.num = num)).map fun f => if kind = f.kind then f.read bs m else (m, none)

def unmarshal (m : M) (bs : Bytes) : M × Bool := Proto.unmarshal msg.readField m bs

end Message

section Sizes

/-- Between which powers of 128 a value is tells how many bytes it takes. -/
theorem length_putUvarintIn : ∀ {fuel k x : ℕ}, k < fuel → x < 2 ^ (7 * (k + 1)) →
    (k = 0 ∨ 2 ^ (7 * k) ≤ x) → (putUvarintIn fuel x).length = k + 1
  | fuel + 1, 0, x, _, hx, _ => by
    rw [putUvarintIn, if_neg (by norm_num at hx ⊢; exact hx)]
    rfl
  | fuel + 1, k + 1, x, hk, hx, hlow => by
    have hlow := hlow.resolve_left (Nat.succ_ne_zero k)
    have hsplit : ∀ n, 2 ^ (7 * (n + 1)) = 2 ^ (7 * n) * 128 := fun n => by
      rw [show 7 * (n + 1) = 7 * n + 7 by ring, pow_add]
      norm_num
    have hpos : 0 < 2 ^ (7 * k) := by positivity
    rw [hsplit] at hx hlow
    have hshift : x >>> 7 = x / 128 := Nat.shiftRight_eq_div_pow x 7
    rw [putUvarintIn, if_pos (by omega), List.length_cons, hshift,
      length_putUvarintIn (k := k) (by omega) (by omega)
        (.inr ((Nat.le_div_iff_mul_le (by norm_num)).mpr hlow))]

/-- The number of bits says how many bytes the loop takes. -/
theorem length_putUvarint {x : ℕ} (hx : x < 2 ^ 64) : (putUvarint x).length = sov x := by
  have hne : x ||| 1 ≠ 0 := fun h => one_ne_zero (Nat.or_eq_zero_iff.mp h).2
  set k := Nat.log2 (x ||| 1) / 7 with hk
  have hsov : sov x = k + 1 := by
    rw [sov]
    omega
  have hlt : x ||| 1 < 2 ^ (7 * (k + 1)) := (Nat.log2_lt hne).mp (by omega)
  have hk10 : k < 10 := by
    have : Nat.log2 (x ||| 1) < 64 :=
      (Nat.log2_lt hne).mpr (Nat.or_lt_two_pow hx (by norm_num))
    omega
  rw [hsov]
  refine length_putUvarintIn hk10 (Nat.left_le_or.trans_lt hlt) ?_
  rcases Nat.eq_zero_or_pos k with h0 | h0
  · exact .inl h0
  · -- the lowest bit is not the highest
    refine .inr (not_lt.mp fun h => ?_)
    have h1 : x ||| 1 < 2 ^ (7 * k) :=
      Nat.or_lt_two_pow h (Nat.one_lt_two_pow (by omega))
    have := (Nat.log2_lt hne).mpr h1
    omega

end Sizes

section Puts

/-- The bytes are put before what the buffer has, if there is room for them. -/
def Puts (write : Buffer → Option Buffer) (bs : Bytes) : Prop :=
  ∀ l r done : Bytes, r.length = bs.length →
    write ⟨l ++ (r ++ done), l.length + r.length⟩ = some ⟨l ++ (bs ++ done), l.length⟩

namespace Puts

variable {w w' : Buffer → Option Buffer} {bs bs' : Bytes}

theorem nil : Puts some [] := by
  intro l r done hr
  obtain rfl := List.length_eq_zero_iff.mp hr
  rfl

theorem bind (h : Puts w bs) (h' : Puts w' bs') :
    Puts (fun buf => (w buf).bind w') (bs' ++ bs) := by
  intro l r done hr
  rw [List.length_append] at hr
  obtain ⟨r', r, rfl, hr', hr⟩ : ∃ r' r₀, r = r' ++ r₀ ∧ r'.length = bs'.length
      ∧ r₀.length = bs.length :=
    ⟨r.take bs'.length, r.drop bs'.length, (List.take_append_drop ..).symm,
      by rw [List.length_take]; omega, by rw [List.length_drop]; omega⟩
  have hfirst := h (l ++ r') r done hr
  simp only [List.append_assoc, List.length_append, ← Nat.add_assoc] at hfirst ⊢
  rw [hfirst, Option.bind_some]
  exact h' l r' (bs ++ done) hr'

theorem byte (b : UInt8) : Puts (Buffer.putByte b) [b] := by
  intro l r done hr
  obtain ⟨c, rfl⟩ := List.length_eq_one_iff.mp hr
  simp [Buffer.putByte, Util.set?]

theorem bytes (d : Bytes) : Puts (Buffer.putBytes d) d := by
  intro l r done hr
  have hroom : d.length ≤ (r ++ done).length := by
    rw [List.length_append]
    omega
  rw [Buffer.putBytes, if_neg (by simp only; omega)]
  simp only [hr, Nat.add_sub_cancel]
  rw [Util.copy?_append l (r ++ done) d hroom, ← hr, List.drop_left]
  simp

theorem fill : ∀ (fuel v : ℕ) {r : Bytes} (l done : Bytes), v < 2 ^ (7 * fuel) → 0 < fuel →
    r.length = (putUvarintIn fuel v).length →
    Buffer.fill fuel v l.length (l ++ (r ++ done)) = some (l ++ (putUvarintIn fuel v ++ done))
  | fuel + 1, v, r, l, done, hv, _, hr => by
    obtain ⟨c, r, rfl⟩ : ∃ c r', r = c :: r' := by
      refine List.exists_cons_of_ne_nil fun h => ?_
      have := (varint_putUvarintIn (fuel + 1) v hv (by omega)).length_pos
      rw [← hr, h] at this
      cases this
    rw [putUvarintIn] at hr ⊢
    rw [Buffer.fill]
    have hset : ∀ b : UInt8, set? (l ++ (c :: r ++ done)) l.length b
        = some (l ++ b :: (r ++ done)) := fun b => by simp [Util.set?]
    split_ifs at hr ⊢ with hbig
    · have hbyte : UInt8.ofNat (v &&& 0x7f ||| 0x80) = UInt8.ofNat v ||| 0x80 := by
        refine UInt8.toNat_inj.mp ?_
        rw [toNat_or_high, UInt8.toNat_ofNat', show v &&& 0x7f = v % 128 from
          Nat.and_two_pow_sub_one_eq_mod v 7, Nat.or_comm,
          show (0x80 : ℕ) ||| v % 128 = 128 + v % 128 from
            (Nat.two_pow_add_eq_or_of_lt (i := 7) (Nat.mod_lt v (by norm_num)) 1).symm]
        omega
      have hfuel : 0 < fuel := by
        by_contra h0
        obtain rfl : fuel = 0 := by omega
        norm_num at hv
        omega
      have hv' : v >>> 7 < 2 ^ (7 * fuel) := by
        rw [Nat.shiftRight_eq_div_pow, Nat.div_lt_iff_lt_mul (by positivity), ← pow_add]
        exact hv
      rw [hset, Option.bind_some, hbyte]
      have hrest := fill fuel (v >>> 7) (r := r) (l ++ [UInt8.ofNat v ||| 0x80]) done hv' hfuel
        (by simpa using hr)
      simpa using hrest
    · obtain rfl := List.length_eq_zero_iff.mp (by simpa using hr)
      rw [hset]
      rfl

theorem varint {v : ℕ} (hv : v < 2 ^ 64) : Puts (Buffer.encodeVarint v) (putUvarint v) := by
  intro l r done hr
  have hlen := length_putUvarint hv
  rw [Buffer.encodeVarint, if_neg (by simp only; omega)]
  simp only [hr, hlen, Nat.add_sub_cancel]
  rw [fill 10 v l done (hv.trans (by norm_num)) (by norm_num) hr]
  rfl

theorem each : ∀ bs : Bytes,
    Puts (fun buf => bs.foldr (fun b buf => buf.bind (Buffer.putByte b)) (some buf)) bs
  | [] => nil
  | b :: bs => (each bs).bind (byte b)

theorem tag (num kind : ℕ) : Puts (Buffer.putTag num kind) (Proto.tag num kind) := each _

end Puts

end Puts

/-- Bytes as a field, with their length before them. -/
def delimited (num : ℕ) (d : Bytes) : Bytes := tag num 2 ++ putUvarint d.length ++ d

theorem length_tag {num kind : ℕ} (hnum : num < 16) (hkind : kind < 8) :
    (tag num kind).length = 1 := by
  rw [tag, putUvarint, putUvarintIn, if_neg (by omega)]
  rfl

theorem length_delimited {num : ℕ} (hnum : num < 16) {d : Bytes} (hd : d.length < 2 ^ 64) :
    (delimited num d).length = Field.sized d.length := by
  rw [delimited, List.length_append, List.length_append, length_tag hnum (by norm_num),
    length_putUvarint hd, Field.sized]
  omega

theorem Puts.delimited (num : ℕ) {d : Bytes} (hd : d.length < 2 ^ 64) :
    Puts (Buffer.putDelimited num d) (delimited num d) := by
  have h := ((Puts.bytes d).bind (Puts.varint hd)).bind (Puts.tag num 2)
  rwa [← List.append_assoc] at h

/-- One field on the wire: whatever is read after it, it is read first, and does `step`. -/
def Chunk {M : Type} (field : ReadField M) (p : Bytes) (step : M → M) : Prop :=
  ∀ {a m' : M} {rest : Bytes}, Reads field (step a) rest m' → Reads field a (p ++ rest) m'

section Methods

variable {S : Type} {sub : Methods S} {s : S}

/-- What is known of the methods of a message: the bytes fill the end of a buffer, as many of them
as the size says, and they are read back. -/
structure Methods.Lawful (sub : Methods S) : Prop where
  length : ∀ {s}, sub.fits s → (sub.bytes s).length = sub.size s
  puts : ∀ {s}, sub.fits s → ∀ l r : Bytes, r.length = sub.size s →
    sub.marshalToSizedBuffer s (l ++ r) = some (sub.size s, l ++ sub.bytes s)
  reads : ∀ {s}, sub.fits s → ∀ s₀, (sub.unmarshal s₀ (sub.bytes s)).2 = true
  unmarshal : ∀ {s}, sub.fits s → sub.unmarshal sub.new (sub.bytes s) = (s, true)

/-- A message within another is put there as its bytes are. -/
theorem Methods.Lawful.put (h : sub.Lawful) (hs : sub.fits s) (num : ℕ)
    (hsize : sub.size s < 2 ^ 64) : Puts (sub.put num s) (delimited num (sub.bytes s)) := by
  intro l r done hr
  have hlen := h.length hs
  rw [delimited, List.length_append, hlen] at hr
  obtain ⟨r', r, rfl, hr', hr⟩ : ∃ r' r₀, r = r' ++ r₀
      ∧ r'.length = (tag num 2 ++ putUvarint (sub.size s)).length ∧ r₀.length = sub.size s := by
    refine ⟨r.take (r.length - sub.size s), r.drop (r.length - sub.size s),
      (List.take_append_drop ..).symm, ?_, ?_⟩
    · rw [List.length_take]
      omega
    · rw [List.length_drop]
      omega
  have hbuf : l ++ (r' ++ r ++ done) = l ++ r' ++ r ++ done := by simp
  have hi : l.length + (r' ++ r).length = (l ++ r' ++ r).length := by simp
  have hback : (l ++ r' ++ r).length - sub.size s = l.length + r'.length := by
    rw [List.length_append, List.length_append, hr, Nat.add_sub_cancel]
  have hhead := ((Puts.varint hsize).bind (Puts.tag num 2)) l r' (sub.bytes s ++ done) hr'
  rw [Methods.put, hbuf, hi]
  simp only [List.take_left, List.drop_left, h.puts hs (l ++ r') r hr, Option.bind_some, hback]
  rw [delimited, hlen]
  simpa using hhead

end Methods

/-- What a field puts on the wire at one place: how it is written and how much it takes, the bytes,
and what reading them does to a message. -/
structure Piece (M : Type) where
  put : Buffer → Option Buffer
  size : ℕ
  bytes : Bytes
  step : M → M

structure Piece.Sound {M : Type} (field : ReadField M) (p : Piece M) : Prop where
  puts : Puts p.put p.bytes
  length : p.bytes.length = p.size
  chunk : Chunk field p.bytes p.step

namespace Field

variable {M : Type} {m a : M} {f : Field M}

def pieces (m : M) : Field M → List (Piece M)
  | .scalar num s l =>
    let v := s.toWire (l.get m)
    if v = 0 then []
    else [⟨fun buf => (buf.encodeVarint v).bind (Buffer.putTag num 0), 1 + sov v,
      tag num 0 ++ putUvarint v, l.set (l.get m)⟩]
  | .bool num l =>
    if l.get m then [⟨fun buf => (buf.putByte 1).bind (Buffer.putTag num 0), 2,
      tag num 0 ++ putUvarint 1, l.set true⟩]
    else []
  | .float num l =>
    let v := l.get m
    if v % 2 ^ 31 = 0 then []
    else [⟨fun buf => (buf.putBytes (putUint32 v)).bind (Buffer.putTag num 5),
      sov (8 * num + 5) + 4, tag num 5 ++ putUint32 v, l.set v⟩]
  | .bytes num l =>
    let d := l.get m
    if d = [] then []
    else [⟨Buffer.putDelimited num d, sized d.length, delimited num d, l.set d⟩]
  | .strings num l => (l.get m).map fun d =>
    ⟨Buffer.putDelimited num d, sized d.length, delimited num d, fun a => l.set (l.get a ++ [d]) a⟩
  | .message num sub l => (l.get m).toList.map fun s =>
    ⟨sub.put num s, sized (sub.size s), delimited num (sub.bytes s),
      fun a => l.set (some (sub.unmarshal ((l.get a).getD sub.new) (sub.bytes s)).1) a⟩
  | .messages num sub l => (l.get m).map fun s =>
    ⟨sub.put num s, sized (sub.size s), delimited num (sub.bytes s),
      fun a => l.set (l.get a ++ [s]) a⟩

/-- The numbers are of their types. -/
def fits (m : M) : Field M → Bool
  | .scalar _ s l => s.fits (l.get m)
  -- the zero that has a sign is not written
  | .float _ l => l.get m < 2 ^ 32 ∧ (l.get m % 2 ^ 31 = 0 → l.get m = 0)
  | .bool .. | .bytes .. | .strings .. => true
  | .message _ sub l => (l.get m).all sub.fits
  | .messages _ sub l => (l.get m).all sub.fits

def Lawful : Field M → Prop
  | .scalar .. | .bool .. | .float .. | .bytes .. | .strings .. => True
  | .message _ sub _ | .messages _ sub _ => sub.Lawful

/-- The field has what it has in a new message. -/
def Unset (a : M) : Field M → Prop
  | .scalar _ s l => l.get a = s.ofWire 0
  | .bool _ l => l.get a = false
  | .float _ l => l.get a = 0
  | .bytes _ l => l.get a = []
  | .strings _ l => l.get a = []
  | .message _ _ l => l.get a = none
  | .messages _ _ l => l.get a = []

def copy (m a : M) : Field M → M
  | .scalar _ _ l => l.set (l.get m) a
  | .bool _ l => l.set (l.get m) a
  | .float _ l => l.set (l.get m) a
  | .bytes _ l => l.set (l.get m) a
  | .strings _ l => l.set (l.get m) a
  | .message _ _ l => l.set (l.get m) a
  | .messages _ _ l => l.set (l.get m) a

/-- A tag of one byte, except before a float. -/
def below : Field M → ℕ
  | .float .. => 2 ^ 28
  | _ => 16

theorem size_eq : ∀ f : Field M, f.size m = ((f.pieces m).map Piece.size).sum
  | .scalar .. | .bool .. | .float .. | .bytes .. => by
    simp only [size, pieces]
    split_ifs <;> simp
  | .strings _ l => by
    rw [size, pieces, List.map_map]
    rfl
  | .message _ sub l => by
    rw [size, pieces]
    cases l.get m <;> simp
  | .messages _ sub l => by
    rw [size, pieces, List.map_map]
    rfl

theorem foldr_put_none : ∀ ps : List (Piece M),
    ps.foldr (fun p buf => buf.bind p.put) none = none
  | [] => rfl
  | p :: ps => by rw [List.foldr_cons, foldr_put_none ps, Option.bind_none]

theorem write_eq (buf : Option Buffer) (f : Field M) :
    buf.bind (f.write m) = (f.pieces m).foldr (fun p buf => buf.bind p.put) buf := by
  rcases buf with _ | buf
  · rw [foldr_put_none, Option.bind_none]
  cases f with
  | scalar | bool | float | bytes =>
    simp only [Option.bind_some, write, pieces]
    split_ifs <;> rfl
  | strings _ l => rw [Option.bind_some, write, pieces, List.foldr_map]
  | message _ sub l =>
    rw [Option.bind_some, write, pieces]
    cases l.get m <;> rfl
  | messages _ sub l => rw [Option.bind_some, write, pieces, List.foldr_map]

theorem foldl_append {T : Type} (l : Lens M (List T)) : ∀ (xs : List T) (a : M),
    xs.foldl (fun a x => l.set (l.get a ++ [x]) a) a = l.set (l.get a ++ xs) a
  | [], a => by rw [List.append_nil, l.set_get, List.foldl_nil]
  | x :: xs, a => by
    rw [List.foldl_cons, foldl_append l xs, l.get_set, l.set_set, List.append_assoc]
    rfl

/-- Reading what a field puts on the wire sets the field, if it was not set. -/
theorem foldl_pieces (hlaw : f.Lawful) (hfits : f.fits m) (hunset : f.Unset a) :
    (f.pieces m).foldl (fun a p => p.step a) a = f.copy m a := by
  cases f with
  | scalar num s l =>
    simp only [pieces, copy]
    split_ifs with h0
    · have hv := s.ofWire_toWire hfits
      rw [h0, Nat.zero_mod, ← hunset] at hv
      rw [← hv, l.set_get, List.foldl_nil]
    · rfl
  | bool num l =>
    simp only [pieces, copy]
    split_ifs with hb
    · rw [hb]
      rfl
    · rw [(Bool.not_eq_true _).mp hb, ← show l.get a = false from hunset, l.set_get,
        List.foldl_nil]
  | float num l =>
    simp only [pieces, copy]
    split_ifs with h0
    · rw [(of_decide_eq_true hfits).2 h0, ← show l.get a = 0 from hunset, l.set_get, List.foldl_nil]
    · rfl
  | bytes num l =>
    simp only [pieces, copy]
    split_ifs with h0
    · rw [h0, ← show l.get a = [] from hunset, l.set_get, List.foldl_nil]
    · rfl
  | strings num l =>
    rw [pieces, List.foldl_map, foldl_append, show l.get a = [] from hunset]
    rfl
  | message num sub l =>
    have ha : l.get a = none := hunset
    simp only [pieces, copy]
    rcases hs : l.get m with _ | s
    · have hset := l.set_get a
      rw [ha] at hset
      rw [hset]
      rfl
    · simp only [Option.toList_some, List.map_cons, List.map_nil, List.foldl_cons, List.foldl_nil,
        ha, Option.getD_none]
      have hfit : sub.fits s := by simpa [fits, hs] using hfits
      rw [Methods.Lawful.unmarshal hlaw hfit]
  | messages num sub l =>
    rw [pieces, List.foldl_map, foldl_append, show l.get a = [] from hunset]
    rfl

theorem le_sized (l : ℕ) : l ≤ sized l := by
  unfold sized
  omega

theorem sound_varint {field : ReadField M} {num v : ℕ} {step : M → M} (hnum : 0 < num)
    (hnum' : num < 16) (hv : v < 2 ^ 64)
    (hread : ∀ bs rest, (∀ w, readVarint w bs = (v % 2 ^ w, some rest)) →
      ∀ a, field num 0 bs a = some (step a, some rest)) :
    Piece.Sound field ⟨fun buf => (buf.encodeVarint v).bind (Buffer.putTag num 0), 1 + sov v,
      tag num 0 ++ putUvarint v, step⟩ where
  puts := (Puts.varint hv).bind (Puts.tag num 0)
  length := by
    simp only
    rw [List.length_append, length_tag hnum' (by norm_num), length_putUvarint hv]
  chunk := fun {a _ rest} h => Reads.cons hnum (by omega) (by norm_num)
    (hread _ _ (fun _ => readVarint_put hv rest) a) h

/-- Bytes with their length before them are written, if they are so put, and read. -/
theorem sound_delimited {field : ReadField M} {num : ℕ} {d : Bytes} {step : M → M}
    {put : Buffer → Option Buffer} (hnum : 0 < num) (hnum' : num < 16) (hd : d.length < 2 ^ 64)
    (hput : Puts put (delimited num d))
    (hread : ∀ bs rest, readBytes bs = some (d, rest) →
      ∀ a, field num 2 bs a = some (step a, some rest)) :
    Piece.Sound field ⟨put, sized d.length, delimited num d, step⟩ where
  puts := hput
  length := length_delimited hnum' hd
  chunk := fun {a m' rest} h => by
    simp only
    rw [delimited, List.append_assoc (tag num 2)]
    exact Reads.cons hnum (by omega) (by norm_num) (hread _ _ (readBytes_put hd rest) a) h

theorem sized_lt {T : Type} {g : T → ℕ} {xs : List T} {x : T} (hx : x ∈ xs)
    (h : (xs.map fun x => sized (g x)).sum < 2 ^ 63) : g x < 2 ^ 64 := by
  have hle := List.le_sum_of_mem (List.mem_map_of_mem (f := fun x => sized (g x)) hx)
  have := le_sized (g x)
  omega

theorem pieces_sound {field : ReadField M}
    (hread : ∀ bs a, field f.num f.kind bs a = some (f.read bs a)) (hnum : 0 < f.num)
    (hnum' : f.num < f.below) (hlaw : f.Lawful) (hfits : f.fits m) (hsize : f.size m < 2 ^ 63) :
    ∀ p ∈ f.pieces m, p.Sound field := by
  intro p hp
  cases f with
  | scalar num s l =>
    simp only [pieces] at hp
    split_ifs at hp
    · cases hp
    obtain rfl := List.mem_singleton.mp hp
    refine sound_varint hnum hnum' (s.toWire_lt hfits) fun bs rest hr a => ?_
    refine (hread bs a).trans ?_
    rw [read, hr]
    dsimp only
    rw [s.ofWire_toWire hfits]
  | bool num l =>
    simp only [pieces] at hp
    split_ifs at hp
    · obtain rfl := List.mem_singleton.mp hp
      have h1 : Puts (Buffer.putByte 1) (putUvarint 1) := Puts.byte 1
      refine ⟨h1.bind (Puts.tag num 0), ?_, fun {a _ rest} h => ?_⟩
      · have htag : (tag num 0).length = 1 := length_tag hnum' (by norm_num)
        simp only
        rw [List.length_append, htag]
        rfl
      · have hnum' : num < 16 := hnum'
        refine Reads.cons hnum (by omega) (by norm_num) ((hread _ a).trans ?_) h
        rw [read, readVarint_put (by norm_num)]
        rfl
    · cases hp
  | float num l =>
    simp only [pieces] at hp
    split_ifs at hp
    · cases hp
    obtain rfl := List.mem_singleton.mp hp
    have hnum' : num < 2 ^ 28 := hnum'
    have hfit : l.get m < 2 ^ 32 := (of_decide_eq_true hfits).1
    refine ⟨(Puts.bytes _).bind (Puts.tag num 5), ?_, fun {a _ rest} h => ?_⟩
    · simp only [List.length_append, tag, length_putUvarint (show 8 * num + 5 < 2 ^ 64 by omega)]
      rfl
    · refine Reads.cons hnum hnum' (by decide) ((hread _ a).trans ?_) h
      rw [read, if_neg (by simp [putUint32]), uint32_putUint32 hfit]
      rfl
  | bytes num l =>
    simp only [pieces] at hp
    rw [size] at hsize
    split_ifs at hp hsize
    · cases hp
    obtain rfl := List.mem_singleton.mp hp
    have hd : (l.get m).length < 2 ^ 64 := by
      have := le_sized (l.get m).length
      omega
    refine sound_delimited hnum hnum' hd (Puts.delimited num hd) fun bs rest hr a => ?_
    refine (hread bs a).trans ?_
    rw [read, hr]
  | strings num l =>
    obtain ⟨d, hd, rfl⟩ := List.mem_map.mp hp
    have hlt := sized_lt hd hsize
    refine sound_delimited hnum hnum' hlt (Puts.delimited num hlt) fun bs rest hr a => ?_
    refine (hread bs a).trans ?_
    rw [read, hr]
  | message num sub l =>
    obtain ⟨s, hs, rfl⟩ := List.mem_map.mp hp
    have hs : l.get m = some s := Option.mem_toList.mp hs
    have hfit : sub.fits s := by simpa [fits, hs] using hfits
    have hlen := Methods.Lawful.length hlaw hfit
    have hlt : sub.size s < 2 ^ 64 := by
      have := le_sized (sub.size s)
      rw [size, hs, Option.map_some, Option.getD_some] at hsize
      omega
    rw [← hlen] at hlt ⊢
    refine sound_delimited hnum hnum' hlt
      (Methods.Lawful.put hlaw hfit num (hlen ▸ hlt)) fun bs rest hr a => ?_
    refine (hread bs a).trans ?_
    rw [read, hr]
    simp only [Methods.Lawful.reads hlaw hfit, if_true]
  | messages num sub l =>
    obtain ⟨s, hs, rfl⟩ := List.mem_map.mp hp
    have hfit : sub.fits s := List.all_eq_true.mp hfits s hs
    have hlen := Methods.Lawful.length hlaw hfit
    have hlt := sized_lt hs hsize
    rw [← hlen] at hlt ⊢
    refine sound_delimited hnum hnum' hlt
      (Methods.Lawful.put hlaw hfit num (hlen ▸ hlt)) fun bs rest hr a => ?_
    refine (hread bs a).trans ?_
    rw [read, hr]
    simp only [Methods.Lawful.unmarshal hlaw hfit, if_true]

end Field

namespace Message

variable {M : Type} {msg : Message M} {m a : M}

/-- Copying the fields of `m` one by one onto `a`, none of which is set there, gives `m`. -/
def Covers : List (Field M) → M → M → Prop
  | [], a, m => a = m
  | f :: fs, a, m => f.Unset a ∧ Covers fs (f.copy m a) m

/-- What makes a list of fields the description of a message: each has a number of its own, and
together they are all of it. -/
structure Sound (msg : Message M) : Prop where
  nums : (msg.fields.map Field.num).Nodup
  num : ∀ f ∈ msg.fields, 0 < f.num ∧ f.num < f.below
  lawful : ∀ f ∈ msg.fields, f.Lawful
  covers : ∀ m, Covers msg.fields msg.new m

/-- The numbers in a message are of their types, and its size is an `int`. -/
def fits (msg : Message M) (m : M) : Bool :=
  msg.size m < 2 ^ 63 && msg.fields.all (Field.fits m)

theorem fits_iff : msg.fits m ↔ msg.size m < 2 ^ 63 ∧ ∀ f ∈ msg.fields, f.fits m := by
  simp [fits]

def methods (msg : Message M) : Methods M where
  new := msg.new
  size := msg.size
  marshalToSizedBuffer := msg.marshalToSizedBuffer
  unmarshal := msg.unmarshal
  fits := msg.fits

def pieces (msg : Message M) (m : M) : List (Piece M) := msg.fields.flatMap (Field.pieces m)

def encode (msg : Message M) (m : M) : Bytes := ((msg.pieces m).map Piece.bytes).flatten

theorem readField_mem (h : msg.Sound) {f : Field M} (hf : f ∈ msg.fields) (bs : Bytes) (a : M) :
    msg.readField f.num f.kind bs a = some (f.read bs a) := by
  have hfind : msg.fields.find? (·.num = f.num) = some f := by
    rw [List.find?_eq_some_iff_append]
    obtain ⟨fs, gs, hfs⟩ := List.append_of_mem hf
    refine ⟨by simp, fs, gs, hfs, fun g hg => ?_⟩
    have hnodup := h.nums
    rw [hfs, List.map_append, List.map_cons] at hnodup
    simp only [Bool.not_eq_true', decide_eq_false_iff_not]
    exact (List.nodup_append.mp hnodup).2.2 _ (List.mem_map_of_mem hg) _ List.mem_cons_self
  rw [readField, hfind]
  simp

theorem size_eq (m : M) : msg.size m = ((msg.pieces m).map Piece.size).sum := by
  rw [size, pieces]
  induction msg.fields with
  | nil => rfl
  | cons f fs ih =>
    rw [List.map_cons, List.sum_cons, ih, f.size_eq, List.flatMap_cons, List.map_append,
      List.sum_append]

theorem pieces_sound (h : msg.Sound) (hfits : msg.fits m) :
    ∀ p ∈ msg.pieces m, p.Sound msg.readField := by
  intro p hp
  obtain ⟨f, hf, hp⟩ := List.mem_flatMap.mp hp
  have hsize : f.size m < 2 ^ 63 :=
    (List.le_sum_of_mem (List.mem_map_of_mem hf)).trans_lt (fits_iff.mp hfits).1
  exact Field.pieces_sound (readField_mem h hf) (h.num f hf).1 (h.num f hf).2 (h.lawful f hf)
    ((fits_iff.mp hfits).2 f hf) hsize p hp

/-- The steps of all pieces make the message. -/
theorem foldl_pieces (h : msg.Sound) (hfits : msg.fits m) :
    (msg.pieces m).foldl (fun a p => p.step a) msg.new = m := by
  have hrun : ∀ fs : List (Field M), fs ⊆ msg.fields → ∀ a, Covers fs a m →
      (fs.flatMap (Field.pieces m)).foldl (fun a p => p.step a) a = m := by
    intro fs
    induction fs with
    | nil => exact fun _ a ha => ha
    | cons f fs ih =>
      intro hsub a ha
      have hf := hsub List.mem_cons_self
      rw [List.flatMap_cons, List.foldl_append,
        Field.foldl_pieces (h.lawful f hf) ((fits_iff.mp hfits).2 f hf) ha.1]
      exact ih (fun g hg => hsub (List.mem_cons_of_mem f hg)) _ ha.2
  exact hrun _ (List.Subset.refl _) _ (h.covers m)

theorem puts_pieces {field : ReadField M} : ∀ {ps : List (Piece M)}, (∀ p ∈ ps, p.Sound field) →
    Puts (fun buf => ps.foldr (fun p buf => buf.bind p.put) (some buf))
      (ps.map Piece.bytes).flatten
  | [], _ => Puts.nil
  | p :: _, h =>
    (puts_pieces fun q hq => h q (List.mem_cons_of_mem p hq)).bind (h p List.mem_cons_self).puts

theorem length_pieces {field : ReadField M} : ∀ {ps : List (Piece M)}, (∀ p ∈ ps, p.Sound field) →
    (ps.map Piece.bytes).flatten.length = (ps.map Piece.size).sum
  | [], _ => rfl
  | p :: ps, h => by
    rw [List.map_cons, List.flatten_cons, List.length_append, (h p List.mem_cons_self).length,
      length_pieces fun q hq => h q (List.mem_cons_of_mem p hq), List.map_cons, List.sum_cons]

theorem foldr_write (buf : Option Buffer) : ∀ fs : List (Field M),
    fs.foldr (fun f buf => buf.bind (f.write m)) buf
      = (fs.flatMap (Field.pieces m)).foldr (fun p buf => buf.bind p.put) buf
  | [] => rfl
  | f :: fs => by
    rw [List.foldr_cons, foldr_write buf fs, Field.write_eq, List.flatMap_cons, List.foldr_append]

theorem marshalToSizedBuffer_eq (h : msg.Sound) (hfits : msg.fits m) (l r : Bytes)
    (hr : r.length = msg.size m) :
    msg.marshalToSizedBuffer m (l ++ r) = some (msg.size m, l ++ msg.encode m) := by
  have hsound := pieces_sound h hfits
  have hlen : r.length = (msg.encode m).length := by
    rw [hr, size_eq, encode, length_pieces hsound]
  have hputs := puts_pieces hsound l r [] hlen
  simp only [List.append_nil] at hputs
  rw [marshalToSizedBuffer, foldr_write, List.length_append, ← pieces, hputs, ← hr]
  simp [encode]

theorem marshal_eq (h : msg.Sound) (hfits : msg.fits m) :
    msg.methods.marshal m = some (msg.encode m) := by
  have hlen : (msg.encode m).length = msg.size m := by
    rw [size_eq, encode, length_pieces (pieces_sound h hfits)]
  have hfill := marshalToSizedBuffer_eq h hfits [] (List.replicate (msg.size m) 0)
    List.length_replicate
  rw [Methods.marshal]
  change (msg.marshalToSizedBuffer m (List.replicate (msg.size m) 0)).map _ = _
  rw [List.nil_append] at hfill
  rw [hfill, Option.map_some, ← hlen, List.nil_append, List.take_length]

theorem reads_pieces {field : ReadField M} : ∀ {ps : List (Piece M)} {a : M},
    (∀ p ∈ ps, p.Sound field) →
    Reads field a (ps.map Piece.bytes).flatten (ps.foldl (fun a p => p.step a) a)
  | [], _, _ => Reads.nil
  | p :: _, _, h => (h p List.mem_cons_self).chunk
    (reads_pieces fun q hq => h q (List.mem_cons_of_mem p hq))

theorem lawful (h : msg.Sound) : msg.methods.Lawful where
  length hs := by
    rw [Methods.bytes, marshal_eq h hs, Option.getD_some, encode,
      length_pieces (pieces_sound h hs), ← size_eq]
    rfl
  puts hs l r hr := by
    rw [Methods.bytes, marshal_eq h hs, Option.getD_some]
    exact marshalToSizedBuffer_eq h hs l r hr
  reads hs a := by
    rw [Methods.bytes, marshal_eq h hs, Option.getD_some]
    change (msg.unmarshal a (msg.encode _)).2 = true
    rw [unmarshal, encode, (reads_pieces (pieces_sound h hs)).unmarshal]
  unmarshal {m} hs := by
    rw [Methods.bytes, marshal_eq h hs, Option.getD_some]
    change msg.unmarshal msg.new (msg.encode m) = (m, true)
    rw [unmarshal, encode, (reads_pieces (pieces_sound h hs)).unmarshal, foldl_pieces h hs]

end Message

end Rhosus.Proto

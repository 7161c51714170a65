import Rhosus.Lib.Url

/-!
# Hexadecimal text

`encoding/hex`: each byte is spelt by two digits, of either case when it is read and of lower case
when it is written. `Decode` takes the digits pair by pair and stops at the first byte that is not
one. What it decodes without an error is what the digits spell (`spells_of_decode`).
-/

namespace Rhosus.Hex

open Url (byte bytes forall_byte)

section Source

inductive Error
  | invalidByte (b : UInt8)
  | length
  deriving DecidableEq

def fromHexChar (c : UInt8) : Option UInt8 :=
  if byte '0' ≤ c ∧ c ≤ byte '9' then some (c - byte '0')
  else if byte 'a' ≤ c ∧ c ≤ byte 'f' then some (c - byte 'a' + 10)
  else if byte 'A' ≤ c ∧ c ≤ byte 'F' then some (c - byte 'A' + 10)
  else none

/-- The bytes that `Decode` writes, and the error it stops with. -/
def decode : Bytes → Bytes × Except Error Unit
  | [] => ([], .ok ())
  | [a] =>
    match fromHexChar a with
    | none => ([], .error (.invalidByte a))
    | some _ => ([], .error .length)
  | a :: b :: src =>
    match fromHexChar a with
    | none => ([], .error (.invalidByte a))
    | some x =>
      match fromHexChar b with
      | none => ([], .error (.invalidByte b))
      | some y =>
        let (bs, res) := decode src
        ((x <<< 4 ||| y) :: bs, res)

def hextable : Bytes := bytes "0123456789abcdef"

def encodeByte (v : UInt8) : Bytes :=
  [hextable.getD (v >>> 4).toNat 0, hextable.getD (v &&& 0x0f).toNat 0]

def encode (src : Bytes) : Bytes := src.flatMap encodeByte

end Source

section Digits

def value (c : UInt8) : Option ℕ :=
  (bytes "0123456789abcdef").idxOf? c <|> (bytes "0123456789ABCDEF").idxOf? c

def isDigit (c : UInt8) : Bool := (value c).isSome

def alphabet : Bytes := bytes "0123456789abcdefABCDEF"

theorem value_of_mem_alphabet : ∀ c ∈ alphabet,
    fromHexChar c ≠ none ∧ value c = (fromHexChar c).map UInt8.toNat := by
  decide +kernel

theorem mem_alphabet {c : UInt8} : c ∈ alphabet ↔ fromHexChar c ≠ none :=
  ⟨fun h => (value_of_mem_alphabet c h).1,
    forall_byte (p := fun c => fromHexChar c ≠ none → c ∈ alphabet) (by decide +kernel) c⟩

theorem value_eq (c : UInt8) : value c = (fromHexChar c).map UInt8.toNat := by
  by_cases h : c ∈ alphabet
  · exact (value_of_mem_alphabet c h).2
  · have hlower : bytes "0123456789abcdef" ⊆ alphabet := by decide
    have hupper : bytes "0123456789ABCDEF" ⊆ alphabet := by decide
    rw [value, List.idxOf?_eq_none_iff.mpr (h <| hlower ·),
      List.idxOf?_eq_none_iff.mpr (h <| hupper ·), not_not.mp (mt mem_alphabet.mpr h)]
    rfl

theorem fromHexChar_lt {c x : UInt8} (h : fromHexChar c = some x) : x.toNat < 16 :=
  forall_byte (p := fun c => ∀ x ∈ fromHexChar c, x.toNat < 16) (by decide +kernel) c x h

theorem toNat_nibbles {x y : UInt8} (hx : x.toNat < 16) (hy : y.toNat < 16) :
    (x <<< 4 ||| y).toNat = 16 * x.toNat + y.toNat := by
  have key : ∀ m < 16, ∀ n < 16,
      (UInt8.ofNat m <<< 4 ||| UInt8.ofNat n).toNat = 16 * m + n := by decide
  simpa using key _ hx _ hy

/-- The digits spell the bytes, two for each. -/
def Spells : Bytes → Bytes → Prop
  | [], [] => True
  | a :: b :: ds, x :: bs =>
    (∃ m n, value a = some m ∧ value b = some n ∧ x.toNat = 16 * m + n) ∧ Spells ds bs
  | _, _ => False

theorem fromHexChar_eq_none {c : UInt8} : fromHexChar c = none ↔ isDigit c = false := by
  rw [isDigit, value_eq]
  cases fromHexChar c <;> simp

theorem isDigit_iff {c : UInt8} : isDigit c = true ↔ c ∈ alphabet := by
  rw [mem_alphabet, Ne, fromHexChar_eq_none, Bool.not_eq_false]

theorem value_of_fromHexChar {c x : UInt8} (h : fromHexChar c = some x) :
    value c = some x.toNat := by
  rw [value_eq, h]
  rfl

end Digits

section Spells

theorem Spells.length : ∀ {ds bs : Bytes}, Spells ds bs → ds.length = 2 * bs.length
  | [], [], _ => rfl
  | [], _ :: _, h => h.elim
  | [_], _, h => by simp [Spells] at h
  | _ :: _ :: _, [], h => h.elim
  | _ :: _ :: ds, _ :: bs, h => by
    have := Spells.length h.2
    simp only [List.length_cons]
    omega

theorem Spells.unique : ∀ {ds bs bs' : Bytes}, Spells ds bs → Spells ds bs' → bs = bs'
  | [], [], [], _, _ => rfl
  | [], _ :: _, _, h, _ => h.elim
  | [], _, _ :: _, _, h' => h'.elim
  | [_], _, _, h, _ => by simp [Spells] at h
  | _ :: _ :: _, [], _, h, _ => h.elim
  | _ :: _ :: _, _, [], _, h' => h'.elim
  | _ :: _ :: ds, x :: bs, x' :: bs', h, h' => by
    obtain ⟨⟨m, n, hm, hn, hx⟩, hrest⟩ := h
    obtain ⟨⟨m', n', hm', hn', hx'⟩, hrest'⟩ := h'
    obtain rfl := Option.some.inj (hm.symm.trans hm')
    obtain rfl := Option.some.inj (hn.symm.trans hn')
    rw [UInt8.toNat_inj.mp (hx.trans hx'.symm), Spells.unique hrest hrest']

theorem Spells.append : ∀ {ds bs ds' bs' : Bytes}, Spells ds bs → Spells ds' bs' →
    Spells (ds ++ ds') (bs ++ bs')
  | [], [], _, _, _, h' => h'
  | [], _ :: _, _, _, h, _ => h.elim
  | [_], _, _, _, h, _ => by simp [Spells] at h
  | _ :: _ :: _, [], _, _, h, _ => h.elim
  | _ :: _ :: ds, _ :: bs, _, _, h, h' => ⟨h.1, Spells.append h.2 h'⟩

theorem Spells.isDigit : ∀ {ds bs : Bytes}, Spells ds bs → ∀ c ∈ ds, isDigit c = true
  | [], _, _, c, hc => by simp at hc
  | [_], _, h, _, _ => by simp [Spells] at h
  | _ :: _ :: _, [], h, _, _ => h.elim
  | a :: b :: ds, x :: bs, h, c, hc => by
    obtain ⟨⟨m, n, hm, hn, -⟩, hrest⟩ := h
    simp only [List.mem_cons] at hc
    rcases hc with rfl | rfl | hc
    · simp [Hex.isDigit, hm]
    · simp [Hex.isDigit, hn]
    · exact hrest.isDigit c hc

theorem value_hextable : ∀ n < 16, value (hextable.getD n 0) = some n := by decide

theorem spells_encode : ∀ bs : Bytes, Spells (encode bs) bs
  | [] => trivial
  | x :: bs => by
    have hhigh : (x >>> 4).toNat = x.toNat / 16 := by
      rw [UInt8.toNat_shiftRight, Nat.shiftRight_eq_div_pow]
      rfl
    have hlow : (x &&& 0x0f).toNat = x.toNat % 16 := by
      rw [UInt8.toNat_and]
      exact Nat.and_two_pow_sub_one_eq_mod x.toNat 4
    have hx := x.toNat_lt
    refine ⟨⟨x.toNat / 16, x.toNat % 16, ?_, ?_, by omega⟩, spells_encode bs⟩
    · rw [hhigh]
      exact value_hextable _ (by omega)
    · rw [hlow]
      exact value_hextable _ (by omega)

theorem length_encode (bs : Bytes) : (encode bs).length = 2 * bs.length := (spells_encode bs).length

theorem encode_append (bs bs' : Bytes) : encode (bs ++ bs') = encode bs ++ encode bs' :=
  List.flatMap_append

end Spells

section Decode

theorem length_decode_le : ∀ ds : Bytes, 2 * (decode ds).1.length ≤ ds.length
  | [] => le_rfl
  | [a] => by
    rw [decode]
    cases fromHexChar a <;> simp
  | a :: b :: ds => by
    have := length_decode_le ds
    rw [decode]
    rcases fromHexChar a with _ | x
    · simp
    · rcases fromHexChar b with _ | y
      · simp
      · simp only [List.length_cons]
        omega

theorem spells_of_decode : ∀ {ds : Bytes}, (decode ds).2 = .ok () → Spells ds (decode ds).1
  | [], _ => trivial
  | [a], h => by
    rw [decode] at h
    rcases hx : fromHexChar a <;> simp [hx] at h
  | a :: b :: ds, h => by
    rw [decode] at h ⊢
    rcases hx : fromHexChar a with _ | x
    · simp [hx] at h
    rcases hy : fromHexChar b with _ | y
    · simp [hx, hy] at h
    simp only [hx, hy] at h ⊢
    have hvx := value_of_fromHexChar hx
    have hvy := value_of_fromHexChar hy
    have hxy := toNat_nibbles (fromHexChar_lt hx) (fromHexChar_lt hy)
    exact ⟨⟨_, _, hvx, hvy, hxy⟩, spells_of_decode h⟩

theorem decode_ok : ∀ {ds : Bytes} {n : ℕ}, ds.length = 2 * n → (∀ c ∈ ds, isDigit c = true) →
    (decode ds).2 = .ok ()
  | [], _, _, _ => rfl
  | [_], n, hlen, _ => by
    simp only [List.length_singleton] at hlen
    omega
  | a :: b :: ds, n, hlen, hds => by
    have hdigit : ∀ c ∈ a :: b :: ds, ∃ x, fromHexChar c = some x := by
      intro c hc
      rcases hx : fromHexChar c with _ | x
      · rw [fromHexChar_eq_none, hds c hc] at hx
        cases hx
      · exact ⟨x, rfl⟩
    obtain ⟨x, hx⟩ := hdigit a (by simp)
    obtain ⟨y, hy⟩ := hdigit b (by simp)
    simp only [decode, hx, hy]
    refine decode_ok (n := n - 1) ?_ fun c hc => hds c (by simp [hc])
    simp only [List.length_cons] at hlen
    omega

theorem decode_ok_iff {ds : Bytes} {n : ℕ} (hlen : ds.length = 2 * n) :
    (decode ds).2 = .ok () ↔ ∀ c ∈ ds, isDigit c = true :=
  ⟨fun h => (spells_of_decode h).isDigit, decode_ok hlen⟩

end Decode

end Rhosus.Hex

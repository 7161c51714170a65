import Rhosus.Lib.Url

/-!
# Base64 text

`base64.StdEncoding`: three bytes are spelt by four characters, and what is left at the end by two
or three of them, filled up with `=`. `DecodeString` skips line breaks, and gives what it has
decoded before an error with the error. What is encoded is decoded (`decode_encode`).
-/

namespace Rhosus.Base64

open Url (byte bytes)

section Source

def alphabet : Bytes := bytes "ABCDEFGHIJKLMNOPQRSTUVWXYZabcdefghijklmnopqrstuvwxyz0123456789+/"

def char (v : ℕ) : UInt8 := alphabet.getD (v % 64) 0

def padChar : UInt8 := byte '='

def encode : Bytes → Bytes
  | [] => []
  | [a] => [char (a.toNat / 4), char (a.toNat * 16), padChar, padChar]
  | [a, b] =>
    [char (a.toNat / 4), char (a.toNat * 16 + b.toNat / 16), char (b.toNat * 4), padChar]
  | a :: b :: c :: src =>
    char (a.toNat / 4) :: char (a.toNat * 16 + b.toNat / 16) :: char (b.toNat * 4 + c.toNat / 64)
      :: char c.toNat :: encode src

def decodeMap (c : UInt8) : Option ℕ := alphabet.idxOf? c

def isBreak (c : UInt8) : Bool := c = byte '\n' || c = byte '\r'

/-- The first `dlen` bytes of four times six bits. -/
def assemble (dbuf : List ℕ) (dlen : ℕ) : Bytes :=
  let val := dbuf.getD 0 0 * 2 ^ 18 + dbuf.getD 1 0 * 2 ^ 12 + dbuf.getD 2 0 * 2 ^ 6 + dbuf.getD 3 0
  ([val / 2 ^ 16, val / 2 ^ 8 % 2 ^ 8, val % 2 ^ 8].map UInt8.ofNat).take dlen

/-- After the padding there is nothing but line breaks. -/
def ended (src : Bytes) : Bool := (src.dropWhile isBreak).isEmpty

/-- `decodeQuantum` again and again, with the values it has taken so far: the bytes that are
decoded, and whether there is no error. -/
def decodeFrom (dbuf : List ℕ) : Bytes → Bytes × Bool
  | [] => ([], dbuf.isEmpty)
  | c :: src =>
    match decodeMap c with
    | some v =>
      if dbuf.length < 3 then decodeFrom (dbuf ++ [v]) src
      else (assemble (dbuf ++ [v]) 3 ++ (decodeFrom [] src).1, (decodeFrom [] src).2)
    | none =>
      if isBreak c then decodeFrom dbuf src
      else if c ≠ padChar then ([], false)
      else
        match dbuf.length with
        | 0 | 1 => ([], false)
        | 2 =>
          match src.dropWhile isBreak with
          | [] => ([], false)
          | c' :: src' => if c' ≠ padChar then ([], false) else (assemble dbuf 1, ended src')
        | _ => (assemble dbuf 2, ended src)

def decode (src : Bytes) : Bytes × Bool := decodeFrom [] src

end Source

section RoundTrip

theorem decodeMap_char (v : ℕ) : decodeMap (char v) = some (v % 64) := by
  have key : ∀ v < 64, decodeMap (alphabet.getD v 0) = some v := by decide +kernel
  exact key _ (Nat.mod_lt _ (by norm_num))

theorem decodeMap_padChar : decodeMap padChar = none := by decide

theorem decodeFrom_char {dbuf : List ℕ} (h : dbuf.length < 3) (v : ℕ) (src : Bytes) :
    decodeFrom dbuf (char v :: src) = decodeFrom (dbuf ++ [v % 64]) src := by
  rw [decodeFrom, decodeMap_char]
  simp only [if_pos h]

theorem decodeFrom_last {dbuf : List ℕ} (h : dbuf.length = 3) (v : ℕ) (src : Bytes) :
    decodeFrom dbuf (char v :: src)
      = (assemble (dbuf ++ [v % 64]) 3 ++ (decodeFrom [] src).1, (decodeFrom [] src).2) := by
  rw [decodeFrom, decodeMap_char]
  simp only [if_neg (show ¬ dbuf.length < 3 by omega)]

theorem assemble_eq (dbuf : List ℕ) {a b c : UInt8} (dlen : ℕ)
    (h : dbuf.getD 0 0 * 2 ^ 18 + dbuf.getD 1 0 * 2 ^ 12 + dbuf.getD 2 0 * 2 ^ 6 + dbuf.getD 3 0
      = a.toNat * 2 ^ 16 + b.toNat * 2 ^ 8 + c.toNat) :
    assemble dbuf dlen = [a, b, c].take dlen := by
  have hb := b.toNat_lt
  have hc := c.toNat_lt
  have hfirst : (a.toNat * 2 ^ 16 + b.toNat * 2 ^ 8 + c.toNat) / 2 ^ 16 = a.toNat := by omega
  have hsecond : (a.toNat * 2 ^ 16 + b.toNat * 2 ^ 8 + c.toNat) / 2 ^ 8 % 2 ^ 8 = b.toNat := by
    omega
  have hthird : (a.toNat * 2 ^ 16 + b.toNat * 2 ^ 8 + c.toNat) % 2 ^ 8 = c.toNat := by omega
  rw [assemble, h, hfirst, hsecond, hthird]
  simp

theorem decode_encode : ∀ src : Bytes, decode (encode src) = (src, true)
  | [] => rfl
  | [a] => by
    have ha := a.toNat_lt
    rw [decode, encode, decodeFrom_char (by simp), decodeFrom_char (by simp), decodeFrom,
      decodeMap_padChar]
    have hval := assemble_eq ([] ++ [a.toNat / 4 % 64] ++ [a.toNat * 16 % 64]) (a := a)
      (b := 0) (c := 0) 1 (by simp; omega)
    rw [hval]
    rfl
  | [a, b] => by
    have ha := a.toNat_lt
    have hb := b.toNat_lt
    rw [decode, encode, decodeFrom_char (by simp), decodeFrom_char (by simp),
      decodeFrom_char (by simp), decodeFrom, decodeMap_padChar]
    have hval := assemble_eq ([] ++ [a.toNat / 4 % 64]
      ++ [(a.toNat * 16 + b.toNat / 16) % 64] ++ [b.toNat * 4 % 64]) (a := a)
      (b := b) (c := 0) 2 (by simp; omega)
    rw [hval]
    rfl
  | a :: b :: c :: src => by
    have ha := a.toNat_lt
    have hb := b.toNat_lt
    have hc := c.toNat_lt
    have hrest := decode_encode src
    rw [decode] at hrest
    rw [decode, encode, decodeFrom_char (by simp), decodeFrom_char (by simp),
      decodeFrom_char (by simp), decodeFrom_last (by simp), hrest, assemble_eq _ (a := a) (b := b)
        (c := c) 3 (by simp; omega)]
    rfl

end RoundTrip

end Rhosus.Base64

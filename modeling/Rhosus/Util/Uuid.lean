import Mathlib.Computability.Language
import Rhosus.Lib.Hex
import Rhosus.Util.Slices

/-!
# The text of a UUID

`UnmarshalText` goes by the length of the text. The comment on it has a grammar, whose canonical and
hash-like forms are of 14 and 12 bytes; the examples beside it are of 16 bytes, and so is what the
code reads. No text of the grammar as it is written is accepted. With the groups of the examples the
code accepts what the grammar says, but for a hash-like form in braces, which has a length that
`UnmarshalText` does not know (`unmarshalText_grammar_iff`). A text that is accepted spells the
UUID, and the text of a UUID is read as that UUID.

`NewV4` fills a UUID with random bytes and sets six of its bits. Partitions, files, blocks, roles
and tokens are named by the text of one; where the random bytes cannot be read the name is that of
`Nil`, as none of the callers looks at the error.
-/

namespace Rhosus.Util

open Url (byte bytes)

section Source

structure UUID where
  octets : Bytes
  size : octets.length = 16
  deriving DecidableEq

inductive UUIDError
  | hex (e : Hex.Error)
  /-- The text of a `fmt.Errorf`. -/
  | message (s : Bytes)
  deriving DecidableEq

namespace UUID

/-- `Nil` -/
def zero : UUID := ⟨List.replicate 16 0, rfl⟩

theorem length_overwrite (u : UUID) {off n : ℕ} {bs : Bytes} (h : off + n ≤ 16 ∧ bs.length ≤ n) :
    (u.octets.take off ++ bs ++ u.octets.drop (off + bs.length)).length = 16 := by
  have := u.size
  simp only [List.length_append, List.length_take, List.length_drop]
  omega

/-- `hex.Decode(dst, digits)`, where `dst` is `u[off : off+n]`. -/
def decodeInto (u : UUID) (off n : ℕ) (digits : Bytes) : Option (Except UUIDError Unit × UUID) :=
  let (bs, res) := Hex.decode digits
  if h : off + n ≤ 16 ∧ bs.length ≤ n then
    some (res.mapError .hex,
      ⟨u.octets.take off ++ bs ++ u.octets.drop (off + bs.length), u.length_overwrite h⟩)
  else none

def byteGroups : List ℕ := [8, 4, 4, 4, 12]

/-- The loop of `decodeCanonical` over the groups left; `off` is where `dst` begins. -/
def decodeGroups : List ℕ → Bool → Bytes → ℕ → UUID → Option (Except UUIDError Unit × UUID)
  | [], _, _, _, u => some (.ok (), u)
  | byteGroup :: groups, first, src, off, u => do
    let src ← if first then some src else slice? src 1 src.length
    let digits ← slice? src 0 byteGroup
    match ← u.decodeInto off (byteGroup / 2) digits with
    | (.error e, u) => some (.error e, u)
    | (.ok _, u) =>
      decodeGroups groups false (src.drop byteGroup) (off + byteGroup / 2) u

/-- One of the bytes at these positions is not a dash; the first such is the last that is looked
at. -/
def missesDash (t : Bytes) : List ℕ → Option Bool
  | [] => some false
  | i :: is => do
    let c ← t[i]?
    if c ≠ byte '-' then some true else missesDash t is

def decodeCanonical (u : UUID) (t : Bytes) : Option (Except UUIDError Unit × UUID) := do
  if ← missesDash t [8, 13, 18, 23] then
    some (.error (.message (bytes "uuid: incorrect UUID format " ++ t)), u)
  else u.decodeGroups byteGroups true t 0

def decodeHashLike (u : UUID) (t : Bytes) : Option (Except UUIDError Unit × UUID) :=
  u.decodeInto 0 16 t

def decodePlain (u : UUID) (t : Bytes) : Option (Except UUIDError Unit × UUID) :=
  match t.length with
  | 32 => u.decodeHashLike t
  | 36 => u.decodeCanonical t
  | _ => some (.error (.message (bytes "uuid: incorrrect UUID length: " ++ t)), u)

def lbrace : UInt8 := 123

def rbrace : UInt8 := 125

def decodeBraced (u : UUID) (t : Bytes) : Option (Except UUIDError Unit × UUID) := do
  let l := t.length
  if (← t[0]?) ≠ lbrace ∨ (← t[l - 1]?) ≠ rbrace then
    some (.error (.message (bytes "uuid: incorrect UUID format " ++ t)), u)
  else u.decodePlain (← slice? t 1 (l - 1))

def urnPrefix : Bytes := bytes "urn:uuid:"

def decodeURN (u : UUID) (t : Bytes) : Option (Except UUIDError Unit × UUID) := do
  let total := t.length
  let urnUUIDPrefix ← slice? t 0 9
  if urnUUIDPrefix ≠ urnPrefix then
    some (.error (.message (bytes "uuid: incorrect UUID format: " ++ t)), u)
  else u.decodePlain (← slice? t 9 total)

/-- The error, if there is one, and the UUID as it then is, which the decoders write to as they go;
nothing for a panic. -/
def unmarshalText (u : UUID) (text : Bytes) : Option (Except UUIDError Unit × UUID) :=
  match text.length with
  | 32 => u.decodeHashLike text
  | 36 => u.decodeCanonical text
  | 38 => u.decodeBraced text
  | 41 | 45 => u.decodeURN text
  | _ => some (.error (.message (bytes "uuid: incorrect UUID length: " ++ text)), u)

def fromString (input : Bytes) : Option (Except UUIDError Unit × UUID) := zero.unmarshalText input

/-- `String`: the groups fill the buffer between the dashes. -/
def string (u : UUID) : Bytes :=
  Hex.encode (u.octets.take 4) ++ [byte '-'] ++ Hex.encode ((u.octets.take 6).drop 4)
    ++ [byte '-'] ++ Hex.encode ((u.octets.take 8).drop 6) ++ [byte '-']
    ++ Hex.encode ((u.octets.take 10).drop 8) ++ [byte '-'] ++ Hex.encode (u.octets.drop 10)

end UUID

end Source

section Grammar

def literal (w : Bytes) : Language UInt8 := {w}

def dash : Language UInt8 := literal [byte '-']

def hexdig : Language UInt8 := {w | ∃ c ∈ bytes "0123456789abcdefABCDEF", w = [c]}

def hexoct : Language UInt8 := hexdig * hexdig

def hexoct2 : Language UInt8 := hexoct * hexoct

def hexoct4 : Language UInt8 := hexoct2 * hexoct2

def hexoct6 : Language UInt8 := hexoct4 * hexoct2

def hexoct12 : Language UInt8 := hexoct6 * hexoct6

def braced (plain : Language UInt8) : Language UInt8 :=
  literal [UUID.lbrace] * plain * literal [UUID.rbrace]

def urn (plain : Language UInt8) : Language UInt8 :=
  literal (bytes "urn") * literal (bytes ":") * literal (bytes "uuid") * literal (bytes ":") * plain

/-- The forms that the others are made of. -/
structure Grammar where
  canonical : Language UInt8
  hashlike : Language UInt8

namespace Grammar

def plain (G : Grammar) : Language UInt8 := G.canonical + G.hashlike

def uuid (G : Grammar) : Language UInt8 := G.canonical + G.hashlike + braced G.plain + urn G.plain

/-- As it is written in the comment. -/
def documented : Grammar where
  canonical := hexoct4 * dash * hexoct2 * dash * hexoct2 * dash * hexoct6
  hashlike := hexoct12

/-- With the groups of the examples in the comment. -/
def exemplified : Grammar where
  canonical := hexoct4 * dash * hexoct2 * dash * hexoct2 * dash * hexoct2 * dash * hexoct6
  hashlike := hexoct12 * hexoct4

end Grammar

end Grammar

section Forms

variable {w v : Bytes} {n m : ℕ} {ns : List ℕ}

theorem mem_literal : w ∈ literal v ↔ w = v := Iff.rfl

theorem literal_mul_literal : literal w * literal v = literal (w ++ v) := Set.image2_singleton

theorem mem_hexdig : w ∈ hexdig ↔ ∃ c, Hex.isDigit c = true ∧ w = [c] :=
  exists_congr fun _ => and_congr_left fun _ => Hex.isDigit_iff.symm

theorem mem_hexdig_pow : ∀ {m : ℕ} {w : Bytes},
    w ∈ hexdig ^ m ↔ w.length = m ∧ ∀ c ∈ w, Hex.isDigit c = true
  | 0, w => by
    rw [pow_zero, Language.mem_one, List.length_eq_zero_iff]
    exact ⟨fun h => ⟨h, by simp [h]⟩, And.left⟩
  | m + 1, w => by
    rw [pow_succ', Language.mem_mul]
    constructor
    · rintro ⟨a, ha, b, hb, rfl⟩
      obtain ⟨c, hc, rfl⟩ := mem_hexdig.mp ha
      obtain ⟨hlen, hdigits⟩ := mem_hexdig_pow.mp hb
      simpa [hlen, hc] using hdigits
    · rintro ⟨hlen, hdigits⟩
      rcases w with _ | ⟨c, b⟩
      · cases hlen
      · simp only [List.length_cons, Nat.add_right_cancel_iff] at hlen
        simp only [List.mem_cons, forall_eq_or_imp] at hdigits
        refine ⟨[c], mem_hexdig.mpr ⟨c, hdigits.1, rfl⟩, b, ?_, rfl⟩
        exact mem_hexdig_pow.mpr ⟨hlen, hdigits.2⟩

theorem mem_hexoct_pow :
    w ∈ hexoct ^ n ↔ w.length = 2 * n ∧ ∀ c ∈ w, Hex.isDigit c = true := by
  rw [hexoct, ← sq, ← pow_mul, mem_hexdig_pow]

/-- Groups of so many bytes each, with dashes between them. -/
def grouped : List ℕ → Language UInt8
  | [] => 1
  | [n] => hexoct ^ n
  | n :: m :: ns => hexoct ^ n * dash * grouped (m :: ns)

def width : List ℕ → ℕ
  | [] => 0
  | [n] => 2 * n
  | n :: m :: ns => 2 * n + 1 + width (m :: ns)

def dashes : List ℕ → List ℕ
  | [] | [_] => []
  | n :: m :: ns => 2 * n :: (dashes (m :: ns)).map (· + (2 * n + 1))

/-- The groups without what is between them. -/
def digits : List ℕ → Bytes → Bytes
  | [], _ => []
  | n :: ns, w => w.take (2 * n) ++ digits ns (w.drop (2 * n + 1))

theorem mem_grouped_cons : w ∈ grouped (n :: m :: ns) ↔ ∃ a b, w = a ++ byte '-' :: b
    ∧ a ∈ hexoct ^ n ∧ b ∈ grouped (m :: ns) := by
  rw [grouped, Language.mem_mul]
  constructor
  · rintro ⟨x, hx, b, hb, rfl⟩
    obtain ⟨a, ha, d, hd, rfl⟩ := Language.mem_mul.mp hx
    rw [dash, mem_literal] at hd
    exact ⟨a, b, by simp [hd], ha, hb⟩
  · rintro ⟨a, b, rfl, ha, hb⟩
    exact ⟨a ++ [byte '-'], ⟨a, ha, _, rfl, rfl⟩, b, hb, by simp⟩

theorem digits_cons_append {a b : Bytes} (ha : a.length = 2 * n) (d : UInt8) :
    digits (n :: ns) (a ++ d :: b) = a ++ digits ns b := by
  rw [digits, List.take_left' ha, List.append_cons, List.drop_left' (by simp [ha])]

theorem dashes_cons_append {a b : Bytes} (ha : a.length = 2 * n) :
    (∀ i ∈ dashes (n :: m :: ns), (a ++ byte '-' :: b)[i]? = some (byte '-'))
      ↔ ∀ i ∈ dashes (m :: ns), b[i]? = some (byte '-') := by
  simp only [dashes, List.mem_cons, List.mem_map, forall_eq_or_imp, forall_exists_index, and_imp,
    forall_apply_eq_imp_iff₂]
  rw [and_iff_right (by simp [← ha])]
  refine forall₂_congr fun i _ => ?_
  rw [← ha, List.getElem?_append_right (by omega),
    show i + (a.length + 1) - a.length = i + 1 by omega, List.getElem?_cons_succ]

/-- The text has the length of the groups, the dashes where they belong, and digits elsewhere. -/
structure Spaced (ns : List ℕ) (w : Bytes) : Prop where
  length : w.length = width ns
  dashed : ∀ i ∈ dashes ns, w[i]? = some (byte '-')
  spelt : ∀ c ∈ digits ns w, Hex.isDigit c = true

theorem spaced_cons_append {a b : Bytes} (ha : a.length = 2 * n) :
    Spaced (n :: m :: ns) (a ++ byte '-' :: b)
      ↔ (∀ c ∈ a, Hex.isDigit c = true) ∧ Spaced (m :: ns) b := by
  have hdigits : (∀ c ∈ digits (n :: m :: ns) (a ++ byte '-' :: b), Hex.isDigit c = true)
      ↔ (∀ c ∈ a, Hex.isDigit c = true) ∧ ∀ c ∈ digits (m :: ns) b, Hex.isDigit c = true := by
    simp only [digits_cons_append ha, List.mem_append, or_imp, forall_and]
  have hlength : (a ++ byte '-' :: b).length = width (n :: m :: ns)
      ↔ b.length = width (m :: ns) := by
    simp only [List.length_append, List.length_cons, width, ha]
    omega
  constructor
  · rintro ⟨hlen, hdash, hdig⟩
    exact ⟨(hdigits.mp hdig).1, hlength.mp hlen, (dashes_cons_append ha).mp hdash,
      (hdigits.mp hdig).2⟩
  · rintro ⟨hdig, hb⟩
    exact ⟨hlength.mpr hb.length, (dashes_cons_append ha).mpr hb.dashed,
      hdigits.mpr ⟨hdig, hb.spelt⟩⟩

theorem Spaced.split (h : Spaced (n :: m :: ns) w) :
    ∃ a b, w = a ++ byte '-' :: b ∧ a.length = 2 * n := by
  obtain ⟨hlt, hget⟩ := List.getElem?_eq_some_iff.mp (h.dashed (2 * n) (by simp [dashes]))
  refine ⟨w.take (2 * n), w.drop (2 * n + 1), ?_, List.length_take_of_le hlt.le⟩
  rw [← hget, List.getElem_cons_drop, List.take_append_drop]

theorem width_cons_le : 2 * n ≤ width (n :: ns) := by
  cases ns <;> simp only [width] <;> omega

theorem mem_grouped : ∀ {ns : List ℕ} {w : Bytes}, ns ≠ [] → (w ∈ grouped ns ↔ Spaced ns w)
  | [], _, h => absurd rfl h
  | [n], w, _ => by
    rw [grouped, mem_hexoct_pow]
    constructor
    · rintro ⟨hlen, hdigits⟩
      exact ⟨hlen, by simp [dashes], by simpa [digits, ← hlen] using hdigits⟩
    · rintro ⟨hlen, -, hdigits⟩
      rw [width] at hlen
      exact ⟨hlen, by simpa [digits, ← hlen] using hdigits⟩
  | n :: m :: ns, w, _ => by
    rw [mem_grouped_cons]
    constructor
    · rintro ⟨a, b, rfl, ha, hb⟩
      obtain ⟨hlen, hdigits⟩ := mem_hexoct_pow.mp ha
      exact (spaced_cons_append hlen).mpr ⟨hdigits, (mem_grouped (by simp)).mp hb⟩
    · intro h
      obtain ⟨a, b, rfl, hlen⟩ := h.split
      obtain ⟨hdigits, hb⟩ := (spaced_cons_append hlen).mp h
      exact ⟨a, b, rfl, mem_hexoct_pow.mpr ⟨hlen, hdigits⟩, (mem_grouped (by simp)).mpr hb⟩

theorem isDigit_dash : Hex.isDigit (byte '-') = false := by decide +kernel

theorem Spaced.filter : ∀ {ns : List ℕ} {w : Bytes}, ns ≠ [] → Spaced ns w →
    w.filter Hex.isDigit = digits ns w
  | [], _, hne, _ => absurd rfl hne
  | [n], w, _, h => by
    have hlen := h.length
    have hdigits := h.spelt
    rw [width] at hlen
    simp only [digits, ← hlen, List.take_length, List.append_nil] at hdigits ⊢
    exact List.filter_eq_self.mpr hdigits
  | n :: m :: ns, w, _, h => by
    obtain ⟨a, b, rfl, hlen⟩ := h.split
    obtain ⟨hdigits, hb⟩ := (spaced_cons_append hlen).mp h
    rw [List.filter_append, List.filter_eq_self.mpr hdigits, List.filter_cons, isDigit_dash,
      digits_cons_append hlen, ← Spaced.filter (by simp) hb]
    rfl

theorem hexoct2_eq : hexoct2 = hexoct ^ 2 := (sq _).symm

theorem hexoct4_eq : hexoct4 = hexoct ^ 4 := by rw [hexoct4, hexoct2_eq, ← pow_add]

theorem hexoct6_eq : hexoct6 = hexoct ^ 6 := by rw [hexoct6, hexoct4_eq, hexoct2_eq, ← pow_add]

theorem hexoct12_eq : hexoct12 = hexoct ^ 12 := by rw [hexoct12, hexoct6_eq, ← pow_add]

namespace Grammar

theorem documented_canonical : documented.canonical = grouped [4, 2, 2, 6] := by
  simp only [documented, grouped, hexoct2_eq, hexoct4_eq, hexoct6_eq, mul_assoc]

theorem documented_hashlike : documented.hashlike = grouped [12] := hexoct12_eq

theorem exemplified_canonical : exemplified.canonical = grouped [4, 2, 2, 2, 6] := by
  simp only [exemplified, grouped, hexoct2_eq, hexoct4_eq, hexoct6_eq, mul_assoc]

theorem exemplified_hashlike : exemplified.hashlike = grouped [16] := by
  rw [grouped, exemplified, hexoct12_eq, hexoct4_eq, ← pow_add]

/-- Each form has one length. -/
structure Sized (G : Grammar) (c h : ℕ) : Prop where
  canonical : ∀ w ∈ G.canonical, w.length = c
  hashlike : ∀ w ∈ G.hashlike, w.length = h

theorem documented_sized : documented.Sized 31 24 where
  canonical w hw := ((mem_grouped (by simp)).mp (documented_canonical ▸ hw)).length
  hashlike w hw := ((mem_grouped (by simp)).mp (documented_hashlike ▸ hw)).length

theorem exemplified_sized : exemplified.Sized 36 32 where
  canonical w hw := ((mem_grouped (by simp)).mp (exemplified_canonical ▸ hw)).length
  hashlike w hw := ((mem_grouped (by simp)).mp (exemplified_hashlike ▸ hw)).length

end Grammar

theorem mem_braced {L : Language UInt8} :
    w ∈ braced L ↔ ∃ body ∈ L, w = UUID.lbrace :: body ++ [UUID.rbrace] := by
  rw [braced, Language.mem_mul]
  constructor
  · rintro ⟨x, hx, r, hr, rfl⟩
    obtain ⟨l, hl, body, hbody, rfl⟩ := Language.mem_mul.mp hx
    rw [mem_literal] at hl hr
    exact ⟨body, hbody, by simp [hl, hr]⟩
  · rintro ⟨body, hbody, rfl⟩
    exact ⟨_, ⟨_, rfl, body, hbody, rfl⟩, _, rfl, rfl⟩

theorem braced_add (L M : Language UInt8) : braced (L + M) = braced L + braced M := by
  rw [braced, mul_add, add_mul, braced, braced]

theorem length_of_mem_braced {L : Language UInt8} (hL : ∀ v ∈ L, v.length = n) (h : w ∈ braced L) :
    w.length = n + 2 := by
  obtain ⟨body, hbody, rfl⟩ := mem_braced.mp h
  simp [hL body hbody]

theorem mem_urn {L : Language UInt8} : w ∈ urn L ↔ ∃ body ∈ L, w = UUID.urnPrefix ++ body := by
  have hscheme : literal (bytes "urn") * literal (bytes ":") * literal (bytes "uuid")
      * literal (bytes ":") = literal UUID.urnPrefix := by
    simp only [literal_mul_literal]
    rfl
  rw [urn, hscheme, Language.mem_mul]
  constructor
  · rintro ⟨p, hp, body, hbody, rfl⟩
    exact ⟨body, hbody, by rw [mem_literal.mp hp]⟩
  · rintro ⟨body, hbody, rfl⟩
    exact ⟨_, rfl, body, hbody, rfl⟩

theorem urn_add (L M : Language UInt8) : urn (L + M) = urn L + urn M := mul_add ..

theorem length_of_mem_urn {L : Language UInt8} (hL : ∀ v ∈ L, v.length = n) (h : w ∈ urn L) :
    w.length = n + 9 := by
  obtain ⟨body, hbody, rfl⟩ := mem_urn.mp h
  rw [List.length_append, hL body hbody, add_comm]
  rfl

/-- What a text of the grammar can be, and how long it then is. -/
theorem Grammar.Sized.forms {G : Grammar} {c h : ℕ} (hG : G.Sized c h) (hw : w ∈ G.uuid) :
    w ∈ G.canonical ∧ w.length = c ∨ w ∈ G.hashlike ∧ w.length = h
      ∨ w ∈ braced G.canonical ∧ w.length = c + 2 ∨ w ∈ braced G.hashlike ∧ w.length = h + 2
      ∨ w ∈ urn G.canonical ∧ w.length = c + 9 ∨ w ∈ urn G.hashlike ∧ w.length = h + 9 := by
  simp only [Grammar.uuid, Grammar.plain, braced_add, urn_add, Language.mem_add] at hw
  rcases hw with ((hw | hw) | (hw | hw)) | (hw | hw)
  · exact .inl ⟨hw, hG.canonical w hw⟩
  · exact .inr (.inl ⟨hw, hG.hashlike w hw⟩)
  · exact .inr (.inr (.inl ⟨hw, length_of_mem_braced hG.canonical hw⟩))
  · exact .inr (.inr (.inr (.inl ⟨hw, length_of_mem_braced hG.hashlike hw⟩)))
  · exact .inr (.inr (.inr (.inr (.inl ⟨hw, length_of_mem_urn hG.canonical hw⟩))))
  · exact .inr (.inr (.inr (.inr (.inr ⟨hw, length_of_mem_urn hG.hashlike hw⟩))))

/-- No text has the length of one of both grammars. -/
theorem not_exemplified_of_documented (h : w ∈ Grammar.documented.uuid) :
    w ∉ Grammar.exemplified.uuid := by
  intro h'
  rcases Grammar.documented_sized.forms h with h | h | h | h | h | h <;>
    rcases Grammar.exemplified_sized.forms h' with h' | h' | h' | h' | h' | h' <;>
      omega

end Forms

section Decoders

variable {u : UUID} {off n : ℕ} {ds w t : Bytes}

namespace UUID

/-- The decoder returns; it accepts just what it should, and then leaves such a UUID. -/
def Decodes (r : Option (Except UUIDError Unit × UUID)) (accepted : Prop) (S : UUID → Prop) :
    Prop :=
  ∃ res u', r = some (res, u') ∧ (res = .ok () ↔ accepted) ∧ (res = .ok () → S u')

theorem decodes_error {e : UUIDError} {accepted : Prop} {S : UUID → Prop} (h : ¬accepted) :
    Decodes (some (.error e, u)) accepted S :=
  ⟨_, _, rfl, by simpa using h, by simp⟩

theorem decodeInto_decodes (hoff : off + n ≤ 16) (hlen : ds.length = 2 * n) :
    Decodes (u.decodeInto off n ds) (∀ c ∈ ds, Hex.isDigit c = true) fun u' =>
      ∃ bs, Hex.Spells ds bs ∧ u'.octets.take (off + n) = u.octets.take off ++ bs := by
  have hle : (Hex.decode ds).1.length ≤ n := by
    have := Hex.length_decode_le ds
    omega
  have hres : (Hex.decode ds).2.mapError UUIDError.hex = .ok () ↔ (Hex.decode ds).2 = .ok () := by
    cases (Hex.decode ds).2 <;> simp [Except.mapError]
  refine ⟨_, _, dif_pos ⟨hoff, hle⟩, hres.trans (Hex.decode_ok_iff hlen), fun hok => ?_⟩
  have hspells := Hex.spells_of_decode (hres.mp hok)
  have hn := hspells.length
  have := u.size
  refine ⟨_, hspells, List.take_left' ?_⟩
  simp only [List.length_append, List.length_take]
  omega

theorem decodeGroups_cons {sep : Bytes} {first : Bool} {g : ℕ} (groups : List ℕ)
    (hsep : sep.length = if first then 0 else 1) (hg : g ≤ w.length) :
    decodeGroups (g :: groups) first (sep ++ w) off u
      = (u.decodeInto off (g / 2) (w.take g)).bind fun
        | (.error e, u) => some (.error e, u)
        | (.ok _, u) => decodeGroups groups false (w.drop g) (off + g / 2) u := by
  cases first
  · have hskip : slice? (sep ++ w) 1 (sep ++ w).length = some w := by
      rw [slice?_eq (by simp [hsep]) le_rfl, List.take_length,
        List.drop_left' (by simpa using hsep)]
    simp only [decodeGroups, hskip, Bool.false_eq_true, if_false, Option.bind_eq_bind,
      Option.bind_some, slice?_eq (Nat.zero_le g) hg, List.drop_zero]
  · obtain rfl : sep = [] := by simpa using hsep
    simp only [decodeGroups, List.nil_append, if_true, Option.bind_eq_bind, Option.bind_some,
      slice?_eq (Nat.zero_le g) hg, List.drop_zero]

/-- The loop decodes the digits of the groups, all or up to one that is none. -/
theorem decodeGroups_decodes : ∀ {ns : List ℕ} {first : Bool} {sep w : Bytes} {off : ℕ} {u : UUID},
    ns ≠ [] → sep.length = (if first then 0 else 1) → w.length = width ns → off + ns.sum = 16 →
      Decodes (decodeGroups (ns.map (2 * ·)) first (sep ++ w) off u)
        (∀ c ∈ digits ns w, Hex.isDigit c = true) fun u' =>
          ∃ bs, Hex.Spells (digits ns w) bs ∧ u'.octets = u.octets.take off ++ bs
  | [], _, _, _, _, _, hne, _, _, _ => absurd rfl hne
  | n :: ns, first, sep, w, off, u, _, hsep, hlen, hsum => by
    -- The octets before `off` are those of the groups that are done, so the last group fills up.
    have hwidth : 2 * n ≤ w.length := hlen ▸ width_cons_le
    have htake : (w.take (2 * n)).length = 2 * n := List.length_take_of_le hwidth
    rw [List.sum_cons] at hsum
    obtain ⟨res, u₁, hrun, hok, hspells⟩ :=
      decodeInto_decodes (u := u) (show off + n ≤ 16 by omega) htake
    unfold Decodes
    rw [List.map_cons, decodeGroups_cons _ hsep hwidth, Nat.mul_div_cancel_left n two_pos, hrun]
    have hdigits : (∀ c ∈ digits (n :: ns) w, Hex.isDigit c = true)
        ↔ (∀ c ∈ w.take (2 * n), Hex.isDigit c = true)
          ∧ ∀ c ∈ digits ns (w.drop (2 * n + 1)), Hex.isDigit c = true := by
      simp only [digits, List.mem_append, or_imp, forall_and]
    rw [hdigits, ← hok]
    rcases res with e | ⟨⟩
    · exact ⟨_, _, rfl, by simp, by simp⟩
    obtain ⟨bs, hbs, htaken⟩ := hspells rfl
    rcases ns with _ | ⟨m, ns⟩
    · refine ⟨_, _, rfl, by simp [digits], fun _ => ⟨bs, by simpa [digits] using hbs, ?_⟩⟩
      rw [← htaken, List.take_of_length_le]
      rw [u₁.size]
      simpa using hsum.ge
    · have hlt : 2 * n < w.length := by
        rw [hlen, width]
        omega
      have hsep' : [w[2 * n]].length = if false then 0 else 1 := rfl
      have hlen' : (w.drop (2 * n + 1)).length = width (m :: ns) := by simp [hlen, width]
      have hsum' : off + n + (m :: ns).sum = 16 := by omega
      obtain ⟨res, u', hrest, hok', hspells'⟩ :=
        decodeGroups_decodes (u := u₁) (List.cons_ne_nil m ns) hsep' hlen' hsum'
      rw [List.singleton_append, List.getElem_cons_drop] at hrest
      refine ⟨res, u', hrest, by simpa using hok', fun hres => ?_⟩
      obtain ⟨bs', hbs', hoctets⟩ := hspells' hres
      exact ⟨bs ++ bs', hbs.append hbs', by rw [hoctets, htaken, List.append_assoc]⟩

theorem missesDash_spec : ∀ {is : List ℕ}, (∀ i ∈ is, i < t.length) →
    ∃ b, missesDash t is = some b ∧ (b = false ↔ ∀ i ∈ is, t[i]? = some (byte '-'))
  | [], _ => ⟨false, rfl, by simp⟩
  | i :: is, h => by
    simp only [List.mem_cons, forall_eq_or_imp] at h ⊢
    obtain ⟨b, hb, hiff⟩ := missesDash_spec h.2
    rw [missesDash, List.getElem?_eq_getElem h.1, Option.bind_eq_bind, Option.bind_some,
      Option.some_inj]
    by_cases hi : t[i] = byte '-'
    · exact ⟨b, by rw [if_neg (not_not.mpr hi), hb], by rw [hiff, and_iff_right hi]⟩
    · exact ⟨true, if_pos hi, by simp [hi]⟩

/-- The digits in the text spell the UUID. -/
def Spells (t : Bytes) (u : UUID) : Prop := Hex.Spells (t.filter Hex.isDigit) u.octets

theorem decodeHashLike_decodes (hlen : t.length = 32) :
    Decodes (u.decodeHashLike t) (t ∈ Grammar.exemplified.hashlike) (Spells t) := by
  obtain ⟨res, u', hrun, hok, hspells⟩ := decodeInto_decodes (u := u) (le_refl (0 + 16)) hlen
  have hmem : t ∈ Grammar.exemplified.hashlike ↔ ∀ c ∈ t, Hex.isDigit c = true := by
    rw [Grammar.exemplified_hashlike, grouped, mem_hexoct_pow]
    exact and_iff_right hlen
  refine ⟨res, u', hrun, hok.trans hmem.symm, fun hres => ?_⟩
  obtain ⟨bs, hbs, hoctets⟩ := hspells hres
  rw [List.take_of_length_le (by rw [u'.size]), List.take_zero, List.nil_append] at hoctets
  rwa [Spells, List.filter_eq_self.mpr (hok.mp hres), hoctets]

theorem decodeCanonical_decodes (hlen : t.length = 36) :
    Decodes (u.decodeCanonical t) (t ∈ Grammar.exemplified.canonical) (Spells t) := by
  rw [Grammar.exemplified_canonical, mem_grouped (by simp)]
  have hin : ∀ i ∈ dashes [4, 2, 2, 2, 6], i < t.length := by simp [dashes, hlen]
  obtain ⟨b, hrun, hb⟩ := missesDash_spec hin
  have hdashes : dashes [4, 2, 2, 2, 6] = [8, 13, 18, 23] := rfl
  rw [decodeCanonical, ← hdashes, hrun, Option.bind_eq_bind, Option.bind_some]
  rcases b with _ | _
  · have hsep : ([] : Bytes).length = if true then 0 else 1 := rfl
    have hwidth : t.length = width [4, 2, 2, 2, 6] := hlen
    obtain ⟨res, u', hrun, hok, hspells⟩ :=
      decodeGroups_decodes (u := u) (by simp) hsep hwidth (show 0 + _ = 16 from rfl)
    have hmem : res = .ok () ↔ Spaced [4, 2, 2, 2, 6] t :=
      hok.trans ⟨fun h => ⟨hlen, hb.mp rfl, h⟩, Spaced.spelt⟩
    refine ⟨res, u', hrun, hmem, fun hres => ?_⟩
    obtain ⟨bs, hbs, hoctets⟩ := hspells hres
    rwa [Spells, (hmem.mp hres).filter (by simp), hoctets]
  · refine decodes_error fun h => ?_
    cases hb.mpr h.dashed

theorem decodePlain_decodes :
    Decodes (u.decodePlain t) (t ∈ Grammar.exemplified.plain) (Spells t) := by
  have hsized := Grammar.exemplified_sized
  rw [Grammar.plain, Language.mem_add, decodePlain]
  split
  · next hlen =>
    rw [or_iff_right fun h => by have := hsized.canonical t h; omega]
    exact decodeHashLike_decodes hlen
  · next hlen =>
    rw [or_iff_left fun h => by have := hsized.hashlike t h; omega]
    exact decodeCanonical_decodes hlen
  · next h32 h36 =>
    exact decodes_error fun h => h.elim (h36 ∘ hsized.canonical t) (h32 ∘ hsized.hashlike t)

/-- The text is a plain form, alone, in braces or in a URN, whose digits spell the UUID. -/
def Spelled (t : Bytes) (u : UUID) : Prop :=
  ∃ body ∈ Grammar.exemplified.plain,
    t ∈ literal body + braced (literal body) + urn (literal body) ∧ Spells body u

theorem Decodes.mono {r : Option (Except UUIDError Unit × UUID)} {accepted : Prop}
    {S S' : UUID → Prop} (h : Decodes r accepted S) (hS : accepted → ∀ u', S u' → S' u') :
    Decodes r accepted S' := by
  obtain ⟨res, u', hrun, hok, hu'⟩ := h
  exact ⟨res, u', hrun, hok, fun hres => hS (hok.mp hres) u' (hu' hres)⟩

theorem decodeBraced_eq (l r : UInt8) (body : Bytes) : u.decodeBraced (l :: (body ++ [r])) =
    if l ≠ lbrace ∨ r ≠ rbrace then
      some (.error (.message (bytes "uuid: incorrect UUID format " ++ l :: (body ++ [r]))), u)
    else u.decodePlain body := by
  have hslice : slice? (l :: (body ++ [r])) 1 (body.length + 1) = some body := by
    rw [slice?_eq (by omega) (by simp), List.take_succ_cons, List.take_left, List.drop_one,
      List.tail_cons]
  simp [decodeBraced, hslice]

theorem decodeBraced_decodes (hlen : 2 ≤ t.length) :
    Decodes (u.decodeBraced t) (t ∈ braced Grammar.exemplified.plain) (Spelled t) := by
  rcases t with _ | ⟨l, t⟩
  · cases hlen
  obtain rfl | ⟨body, r, rfl⟩ := List.eq_nil_or_concat t
  · simp at hlen
  have hmem : l :: (body ++ [r]) ∈ braced Grammar.exemplified.plain
      ↔ body ∈ Grammar.exemplified.plain ∧ l = lbrace ∧ r = rbrace := by
    rw [mem_braced]
    constructor
    · rintro ⟨body', hbody', heq⟩
      obtain ⟨hl, heq⟩ := List.cons.inj heq
      obtain ⟨rfl, hr⟩ := List.append_inj' heq rfl
      exact ⟨hbody', hl, List.head_eq_of_cons_eq hr⟩
    · rintro ⟨hbody, rfl, rfl⟩
      exact ⟨body, hbody, rfl⟩
  rw [List.concat_eq_append, decodeBraced_eq, hmem]
  split_ifs with hwrap
  · exact decodes_error fun h => hwrap.elim (· h.2.1) (· h.2.2)
  · obtain ⟨rfl, rfl⟩ : l = lbrace ∧ r = rbrace := by simpa using hwrap
    rw [and_iff_left ⟨rfl, rfl⟩]
    refine decodePlain_decodes.mono fun hbody u' hu' => ⟨body, hbody, Or.inl (Or.inr ?_), hu'⟩
    exact mem_braced.mpr ⟨body, rfl, rfl⟩

theorem decodeURN_eq {head body : Bytes} (hlen : head.length = 9) :
    u.decodeURN (head ++ body) =
      if head ≠ urnPrefix then
        some (.error (.message (bytes "uuid: incorrect UUID format: " ++ (head ++ body))), u)
      else u.decodePlain body := by
  have hscheme : slice? (head ++ body) 0 9 = some head := by
    rw [slice?_eq (by omega) (by simp [hlen]), List.take_left' hlen, List.drop_zero]
  have hbody : slice? (head ++ body) 9 (head ++ body).length = some body := by
    rw [slice?_eq (by simp [hlen]) le_rfl, List.take_length, List.drop_left' hlen]
  rw [decodeURN, hscheme, Option.bind_eq_bind, Option.bind_some, hbody]
  rfl

theorem decodeURN_decodes (hlen : 9 ≤ t.length) :
    Decodes (u.decodeURN t) (t ∈ urn Grammar.exemplified.plain) (Spelled t) := by
  obtain ⟨head, body, hhead, rfl⟩ : ∃ head body : Bytes, head.length = 9 ∧ t = head ++ body :=
    ⟨t.take 9, t.drop 9, List.length_take_of_le hlen, (List.take_append_drop 9 t).symm⟩
  have hmem : head ++ body ∈ urn Grammar.exemplified.plain
      ↔ body ∈ Grammar.exemplified.plain ∧ head = urnPrefix := by
    rw [mem_urn]
    constructor
    · rintro ⟨body', hbody', heq⟩
      obtain ⟨hhead, rfl⟩ := List.append_inj heq hhead
      exact ⟨hbody', hhead⟩
    · rintro ⟨hbody, rfl⟩
      exact ⟨body, hbody, rfl⟩
  rw [decodeURN_eq hhead, hmem]
  split_ifs with hscheme
  · exact decodes_error fun h => hscheme h.2
  · obtain rfl := not_not.mp hscheme
    rw [and_iff_left rfl]
    refine decodePlain_decodes.mono fun hbody u' hu' => ⟨body, hbody, Or.inr ?_, hu'⟩
    exact mem_urn.mpr ⟨body, rfl, rfl⟩

/-- The text is derived from the grammar with the groups of the examples, and it is not a hash-like
form in braces. -/
def Accepted (t : Bytes) : Prop :=
  t ∈ Grammar.exemplified.uuid ∧ t ∉ braced Grammar.exemplified.hashlike

theorem accepted_of_mem (h : t ∈ Grammar.exemplified.uuid) (hlen : t.length ≠ 34) : Accepted t :=
  ⟨h, fun hbraced => hlen (length_of_mem_braced Grammar.exemplified_sized.hashlike hbraced)⟩

/-- The forms that are accepted, by their lengths, which `UnmarshalText` goes by. -/
theorem accepted_iff : Accepted t ↔
    match t.length with
    | 32 => t ∈ Grammar.exemplified.hashlike
    | 36 => t ∈ Grammar.exemplified.canonical
    | 38 => t ∈ braced Grammar.exemplified.plain
    | 41 | 45 => t ∈ urn Grammar.exemplified.plain
    | _ => False := by
  constructor
  · rintro ⟨h, hbraced⟩
    rcases Grammar.exemplified_sized.forms h with
      ⟨hmem, hlen⟩ | ⟨hmem, hlen⟩ | ⟨hmem, hlen⟩ | ⟨hmem, -⟩ | ⟨hmem, hlen⟩ | ⟨hmem, hlen⟩
    · simpa only [hlen] using hmem
    · simpa only [hlen] using hmem
    · simpa only [hlen, Grammar.plain, braced_add, Language.mem_add] using .inl hmem
    · exact absurd hmem hbraced
    · simpa only [hlen, Grammar.plain, urn_add, Language.mem_add] using .inl hmem
    · simpa only [hlen, Grammar.plain, urn_add, Language.mem_add] using .inr hmem
  · split
    · next hlen => exact fun h => accepted_of_mem (Or.inl (Or.inl (Or.inr h))) (by omega)
    · next hlen => exact fun h => accepted_of_mem (Or.inl (Or.inl (Or.inl h))) (by omega)
    · next hlen => exact fun h => accepted_of_mem (Or.inl (Or.inr h)) (by omega)
    · next hlen => exact fun h => accepted_of_mem (Or.inr h) (by omega)
    · next hlen => exact fun h => accepted_of_mem (Or.inr h) (by omega)
    · exact False.elim

theorem unmarshalText_decodes : Decodes (u.unmarshalText t) (Accepted t) (Spelled t) := by
  rw [accepted_iff, unmarshalText]
  split
  · next hlen =>
    exact (decodeHashLike_decodes hlen).mono fun h u' hu' =>
      ⟨t, Or.inr h, Or.inl (Or.inl rfl), hu'⟩
  · next hlen =>
    exact (decodeCanonical_decodes hlen).mono fun h u' hu' =>
      ⟨t, Or.inl h, Or.inl (Or.inl rfl), hu'⟩
  · next hlen => exact decodeBraced_decodes (by omega)
  · next hlen => exact decodeURN_decodes (by omega)
  · next hlen => exact decodeURN_decodes (by omega)
  · exact decodes_error id

theorem take_append_slice {l : Bytes} {i j : ℕ} (h : i ≤ j) :
    l.take i ++ (l.take j).drop i = l.take j := by
  conv_rhs => rw [← List.take_append_drop i (l.take j), List.take_take, min_eq_left h]

theorem encode_mem {bs : Bytes} (h : bs.length = n) : Hex.encode bs ∈ hexoct ^ n :=
  mem_hexoct_pow.mpr ⟨by rw [Hex.length_encode, h], (Hex.spells_encode bs).isDigit⟩

theorem string_canonical (u : UUID) : u.string ∈ Grammar.exemplified.canonical := by
  have hsize := u.size
  simp only [Grammar.exemplified, hexoct2_eq, hexoct4_eq, hexoct6_eq]
  repeat apply Language.append_mem_mul
  all_goals first
    | exact mem_literal.mpr rfl
    | exact encode_mem (by simp [hsize])

theorem spells_string (u : UUID) : Spells u.string u := by
  have hdash : [byte '-'].filter Hex.isDigit = [] := by simp [isDigit_dash]
  have hencode (bs : Bytes) : (Hex.encode bs).filter Hex.isDigit = Hex.encode bs :=
    List.filter_eq_self.mpr (Hex.spells_encode bs).isDigit
  have hjoin : u.octets.take 4 ++ (u.octets.take 6).drop 4 ++ (u.octets.take 8).drop 6
      ++ (u.octets.take 10).drop 8 ++ u.octets.drop 10 = u.octets := by
    rw [take_append_slice (by omega), take_append_slice (by omega), take_append_slice (by omega),
      List.take_append_drop]
  -- Only the octets that are written are cut up, not those that are spelt.
  have hspells := Hex.spells_encode u.octets
  nth_rewrite 1 [← hjoin] at hspells
  simp only [Hex.encode_append] at hspells
  simpa only [Spells, string, List.filter_append, hdash, hencode, List.append_nil] using hspells

theorem fromString_string (u : UUID) : fromString u.string = some (.ok (), u) := by
  have hlen := Grammar.exemplified_sized.canonical _ u.string_canonical
  -- What is read and `u` are spelt by the same digits.
  have hfrom : fromString u.string = zero.decodeCanonical u.string := by
    simp only [fromString, unmarshalText, hlen]
  obtain ⟨res, u', hrun, hok, hspells⟩ := decodeCanonical_decodes (u := zero) hlen
  obtain rfl := hok.mpr u.string_canonical
  have hu' : u' = u := by
    have := (hspells rfl).unique u.spells_string
    cases u'
    cases u
    simpa using this
  rw [hfrom, hrun, hu']

end UUID

end Decoders

/-- The text of a UUID is read as that UUID, and a text that is accepted spells what is read. But
the code does what the grammar says only with a text that is neither of the grammar nor accepted;
with the groups of the examples, only with one that is not a hash-like form in braces. -/
theorem unmarshalText_grammar_iff (u : UUID) (t : Bytes) :
    UUID.fromString u.string = some (.ok (), u)
      ∧ ∃ res u', u.unmarshalText t = some (res, u')
        ∧ (res = .ok () → UUID.Spelled t u')
        ∧ ((res = .ok () ↔ t ∈ Grammar.documented.uuid) ↔ t ∉ Grammar.documented.uuid
          ∧ (t ∈ Grammar.exemplified.uuid → t ∈ braced Grammar.exemplified.hashlike))
        ∧ ((res = .ok () ↔ t ∈ Grammar.exemplified.uuid)
          ↔ t ∉ braced Grammar.exemplified.hashlike) := by
  obtain ⟨res, u', hrun, hok, hspelled⟩ := UUID.unmarshalText_decodes (u := u) (t := t)
  refine ⟨u.fromString_string, res, u', hrun, hspelled, ?_, ?_⟩
  · rw [hok, UUID.Accepted]
    by_cases hdocumented : t ∈ Grammar.documented.uuid
    · simp [hdocumented, not_exemplified_of_documented hdocumented]
    · simp [hdocumented]
  · rw [hok, UUID.Accepted]
    by_cases hbraced : t ∈ braced Grammar.exemplified.hashlike
    · have huuid : t ∈ Grammar.exemplified.uuid := by
        simp [Grammar.uuid, Grammar.plain, braced_add, Language.mem_add, hbraced]
      simp [hbraced, huuid]
    · simp [hbraced]

/-- A hash-like form in braces, which the comment on `decodeBraced` has as an example, is refused;
so is a hash-like form of 12 bytes, and a canonical one of 16 is accepted. -/
theorem unmarshalText_not_grammar :
    (bytes "\x7b6ba7b8109dad11d180b400c04fd430c8\x7d" ∈ Grammar.exemplified.uuid
        ∧ ∃ e, UUID.fromString (bytes "\x7b6ba7b8109dad11d180b400c04fd430c8\x7d")
          = some (.error e, UUID.zero))
      ∧ (bytes "6ba7b8109dad11d180b400c0" ∈ Grammar.documented.uuid
        ∧ ∃ e, UUID.fromString (bytes "6ba7b8109dad11d180b400c0") = some (.error e, UUID.zero))
      ∧ bytes "6ba7b810-9dad-11d1-80b4-00c04fd430c8" ∉ Grammar.documented.uuid
        ∧ ∃ u, UUID.fromString (bytes "6ba7b810-9dad-11d1-80b4-00c04fd430c8")
          = some (.ok (), u) := by
  refine ⟨⟨?_, _, rfl⟩, ⟨?_, _, rfl⟩, ?_, _, rfl⟩
  · have hbody : bytes "6ba7b8109dad11d180b400c04fd430c8" ∈ Grammar.exemplified.hashlike := by
      rw [Grammar.exemplified_hashlike, grouped, mem_hexoct_pow]
      decide +kernel
    exact Or.inl (Or.inr (mem_braced.mpr ⟨_, Or.inr hbody, rfl⟩))
  · have hbody : bytes "6ba7b8109dad11d180b400c0" ∈ Grammar.documented.hashlike := by
      rw [Grammar.documented_hashlike, grouped, mem_hexoct_pow]
      decide +kernel
    exact Or.inl (Or.inl (Or.inr hbody))
  · intro h
    have hlen : (bytes "6ba7b810-9dad-11d1-80b4-00c04fd430c8").length = 36 := rfl
    rcases Grammar.documented_sized.forms h with h | h | h | h | h | h <;> omega

section Generator

inductive Variant
  | ncs
  | rfc4122
  | microsoft
  | future
  deriving DecidableEq

namespace UUID

variable (u : UUID)

def octet (i : ℕ) : UInt8 := u.octets.getD i 0

def setOctet (i : ℕ) (b : UInt8) : UUID := ⟨u.octets.set i b, (List.length_set ..).trans u.size⟩

/-- The bits of `b` under the mask are kept. -/
def setBits (b mask bits : UInt8) : UInt8 := b &&& mask ||| bits

def setVersion (v : UInt8) : UUID := u.setOctet 6 (setBits (u.octet 6) 0x0f (v <<< 4))

def setVariant : Variant → UUID
  | .ncs => u.setOctet 8 (setBits (u.octet 8) ((0xff : UInt8) >>> 1) ((0x00 : UInt8) <<< 7))
  | .rfc4122 => u.setOctet 8 (setBits (u.octet 8) ((0xff : UInt8) >>> 2) ((0x02 : UInt8) <<< 6))
  | .microsoft => u.setOctet 8 (setBits (u.octet 8) ((0xff : UInt8) >>> 3) ((0x06 : UInt8) <<< 5))
  | .future => u.setOctet 8 (setBits (u.octet 8) ((0xff : UInt8) >>> 3) ((0x07 : UInt8) <<< 5))

end UUID

/-- `NewV4`, with what `io.ReadFull` fills the UUID with, if it returns no error. -/
def newV4 : Option UUID → UUID × Bool
  | none => (.zero, false)
  | some u => ((u.setVersion 4).setVariant .rfc4122, true)

/-- What every caller makes of it. -/
def newID (rand : Option UUID) : Bytes := (newV4 rand).1.string

theorem length_newID (rand : Option UUID) : (newID rand).length = 36 :=
  Grammar.exemplified_sized.canonical _ (UUID.string_canonical _)

end Generator

end Rhosus.Util

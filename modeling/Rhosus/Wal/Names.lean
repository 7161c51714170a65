import Mathlib.Data.Char
import Mathlib.Data.List.Lex
import Mathlib.Data.Nat.Digits.Lemmas

/-!
# The names of the log's files

A segment is named by the twenty digits of its first index; a segment being put in place of
others by a truncation carries `.START` or `.END` after them. The loader takes its segments in the
order of these names, so what it finds depends on how they compare: by index, and at one index the
plain name first, `.END` before `.START` (`FileName.name_lt`).
-/

namespace Rhosus.Wal

abbrev Name := List Char

/-- `fmt.Sprintf("%020d", index)` -/
def segmentName (index : ℕ) : Name :=
  let ds := (Nat.digits 10 index).reverse.map Nat.digitChar
  List.replicate (20 - ds.length) '0' ++ ds

def startSuffix : Name := ['.', 'S', 'T', 'A', 'R', 'T']

def endSuffix : Name := ['.', 'E', 'N', 'D']

def tempName : Name := ['T', 'E', 'M', 'P']

def startName (index : ℕ) : Name := segmentName index ++ startSuffix

def endName (index : ℕ) : Name := segmentName index ++ endSuffix

def parseDigits : List Char → ℕ → Option ℕ
  | [], n => some n
  | c :: cs, n =>
    if '0' ≤ c ∧ c ≤ '9' then parseDigits cs (n * 10 + (c.toNat - '0'.toNat)) else none

/-- `strconv.ParseUint(s, 10, 64)` -/
def parseUint (s : List Char) : Option ℕ :=
  match s with
  | [] => none
  | c :: cs => (parseDigits (c :: cs) 0).filter (· < 2 ^ 64)

inductive Kind
  | plain
  | start
  | fin
  deriving DecidableEq

/-- What the loader makes of a file's name: its index and kind, or nothing if it skips the file. -/
def scanName (name : Name) : Option (ℕ × Kind) :=
  if name.length < 20 then none
  else
    match parseUint (name.take 20) with
    | none => none
    | some index =>
      if index = 0 then none
      else if name.length = 26 ∧ startSuffix.isSuffixOf name then some (index, .start)
      else if name.length = 24 ∧ endSuffix.isSuffixOf name then some (index, .fin)
      else if name.length = 20 then some (index, .plain)
      else none

section Digits

theorem digitChar_toNat : ∀ d < 10, '0' ≤ Nat.digitChar d ∧ Nat.digitChar d ≤ '9'
    ∧ (Nat.digitChar d).toNat - '0'.toNat = d := by decide

/-- A list of decimal digits, the highest first, as characters. -/
def IsDigits (cs : List Char) : Prop := ∀ c ∈ cs, '0' ≤ c ∧ c ≤ '9'

theorem parseDigits_map (ds : List ℕ) (hd : ∀ d ∈ ds, d < 10) (n : ℕ) :
    parseDigits (ds.map Nat.digitChar) n =
      some (n * 10 ^ ds.length + Nat.ofDigits 10 ds.reverse) := by
  induction ds generalizing n with
  | nil => simp [parseDigits]
  | cons d ds ih =>
    obtain ⟨h1, h2, h3⟩ := digitChar_toNat d (hd d List.mem_cons_self)
    rw [List.map_cons, parseDigits, if_pos ⟨h1, h2⟩, h3, ih fun e he => hd e (by simp [he])]
    simp only [List.length_cons, List.reverse_cons, Nat.ofDigits_append, List.length_reverse,
      Nat.ofDigits_singleton, Option.some.injEq]
    ring

theorem isDigits_segmentName (n : ℕ) : IsDigits (segmentName n) := by
  intro c hc
  simp only [segmentName, List.mem_append, List.mem_replicate, List.mem_map,
    List.mem_reverse] at hc
  rcases hc with ⟨-, rfl⟩ | ⟨d, hd, rfl⟩
  · decide
  · obtain ⟨h1, h2, -⟩ := digitChar_toNat d (Nat.digits_lt_base (by norm_num) hd)
    exact ⟨h1, h2⟩

theorem parseDigits_replicate_zero (k : ℕ) (cs : List Char) :
    parseDigits (List.replicate k '0' ++ cs) 0 = parseDigits cs 0 := by
  induction k with
  | zero => simp
  | succ k ih =>
    rw [List.replicate_succ, List.cons_append, parseDigits, if_pos (by decide)]
    simpa using ih

theorem parseDigits_segmentName (n : ℕ) : parseDigits (segmentName n) 0 = some n := by
  unfold segmentName
  rw [parseDigits_replicate_zero, parseDigits_map _ fun d hd => Nat.digits_lt_base (by norm_num)
    (List.mem_reverse.mp hd)]
  simp [Nat.ofDigits_digits]

theorem segmentName_inj {n m : ℕ} (h : segmentName n = segmentName m) : n = m := by
  have := parseDigits_segmentName n
  rw [h, parseDigits_segmentName m] at this
  exact (Option.some.inj this).symm

theorem length_segmentName {n : ℕ} (h : n < 10 ^ 20) : (segmentName n).length = 20 := by
  have hl := (Nat.digits_length_le_iff (by norm_num : 1 < 10) n).mpr h
  simp only [segmentName, List.length_append, List.length_replicate, List.length_map,
    List.length_reverse]
  omega

theorem parseUint_segmentName {n : ℕ} (h : n < 2 ^ 64) : parseUint (segmentName n) = some n := by
  have hl : (segmentName n).length = 20 := length_segmentName (h.trans (by norm_num))
  have hp := parseDigits_segmentName n
  rcases hs : segmentName n with _ | ⟨c, cs⟩
  · rw [hs] at hl
    simp at hl
  · rw [hs] at hp
    simpa [parseUint, hp] using h

/-- Of two lists of digits of one length, the one that compares less spells the smaller number. -/
theorem parseDigits_lt : ∀ {xs ys : List Char} {n m a b : ℕ}, xs.length = ys.length →
    parseDigits xs n = some a → parseDigits ys m = some b → (n < m ∨ n = m ∧ xs < ys) → a < b
  | [], [], n, m, a, b, _, ha, hb, h => by
    cases ha
    cases hb
    rcases h with h | ⟨-, h⟩
    · exact h
    · simp at h
  | x :: xs, y :: ys, n, m, a, b, hl, ha, hb, h => by
    simp only [parseDigits] at ha hb
    split_ifs at ha hb with hx hy
    have hx9 : x.toNat - '0'.toNat < 10 := by
      have : x.toNat ≤ '9'.toNat := hx.2
      simp only [Char.reduceToNat] at this ⊢
      omega
    refine parseDigits_lt (by simpa using hl) ha hb ?_
    rcases h with h | ⟨rfl, h⟩
    · left
      omega
    · rcases List.cons_lt_cons_iff.mp h with h | ⟨rfl, h'⟩
      · left
        have h1 : x.toNat < y.toNat := h
        have h0 : '0'.toNat ≤ x.toNat := hx.1
        omega
      · exact .inr ⟨rfl, h'⟩

theorem append_lt_append : ∀ {xs ys : List Char} (as bs : List Char), xs.length = ys.length →
    xs < ys → xs ++ as < ys ++ bs
  | [], [], _, _, _, h => by simp at h
  | x :: xs, y :: ys, as, bs, hl, h => by
    rw [List.cons_append, List.cons_append, List.cons_lt_cons_iff]
    rcases List.cons_lt_cons_iff.mp h with h | ⟨rfl, h'⟩
    · exact .inl h
    · exact .inr ⟨rfl, append_lt_append as bs (by simpa using hl) h'⟩

theorem segmentName_lt {n m : ℕ} (hn : n < m) (hm : m < 10 ^ 20) :
    segmentName n < segmentName m := by
  have hl : (segmentName m).length = (segmentName n).length := by
    rw [length_segmentName hm, length_segmentName (hn.trans hm)]
  rcases lt_trichotomy (segmentName n) (segmentName m) with h | h | h
  · exact h
  · exact absurd (segmentName_inj h) hn.ne
  · have :=
      parseDigits_lt hl (parseDigits_segmentName m) (parseDigits_segmentName n) (.inr ⟨rfl, h⟩)
    omega

end Digits

/-- The files the log makes. -/
inductive FileName
  | seg (n : ℕ)
  | start (n : ℕ)
  | fin (n : ℕ)
  | temp
  deriving DecidableEq

namespace FileName

def name : FileName → Name
  | .seg n => segmentName n
  | .start n => startName n
  | .fin n => endName n
  | .temp => tempName

theorem notMem_segmentName {c : Char} (h : ¬ ('0' ≤ c ∧ c ≤ '9')) (n : ℕ) : c ∉ segmentName n :=
  fun hc => h (isDigits_segmentName n c hc)

/-- Distinct files have distinct names: a suffix shows by its point, and which it is by its last
letter. -/
theorem name_injective : Function.Injective name := by
  have hdot : ∀ n, '.' ∉ segmentName n := notMem_segmentName (by decide)
  have hT : ∀ n, 'T' ∉ segmentName n := notMem_segmentName (by decide)
  have hstart : ∀ n, '.' ∈ startName n := fun n => by simp [startName, startSuffix]
  have hend : ∀ n, '.' ∈ endName n := fun n => by simp [endName, endSuffix]
  have hlast : ∀ n m, startName n ≠ endName m := fun n m h => by
    have := congrArg List.getLast? h
    simp [startName, endName, startSuffix, endSuffix, List.getLast?_append] at this
  rintro (n | n | n | _) (m | m | m | _) h <;> simp only [name] at h
  · rw [segmentName_inj h]
  · exact absurd (h ▸ hstart m) (hdot n)
  · exact absurd (h ▸ hend m) (hdot n)
  · exact absurd (show 'T' ∈ segmentName n by rw [h]; decide) (hT n)
  · exact absurd (h ▸ hstart n) (hdot m)
  · rw [segmentName_inj (List.append_cancel_right h)]
  · exact absurd h (hlast n m)
  · exact absurd (h ▸ hstart n) (by decide)
  · exact absurd (h ▸ hend n) (hdot m)
  · exact absurd h.symm (hlast m n)
  · rw [segmentName_inj (List.append_cancel_right h)]
  · exact absurd (h ▸ hend n) (by decide)
  · exact absurd (show 'T' ∈ segmentName m by rw [← h]; decide) (hT m)
  · exact absurd (h ▸ hstart m) (by decide)
  · exact absurd (h ▸ hend m) (by decide)
  · rfl

@[simp]
theorem name_inj {a b : FileName} : a.name = b.name ↔ a = b := name_injective.eq_iff

/-- Where a file comes among those of its index. -/
def rank : FileName → ℕ
  | .seg _ => 0
  | .fin _ => 1
  | .start _ => 2
  | .temp => 3

def index : FileName → ℕ
  | .seg n | .fin n | .start n => n
  | .temp => 0

theorem name_lt {a b : FileName} (ha : a ≠ .temp) (hb : b ≠ .temp) (hbi : b.index < 10 ^ 20)
    (h : a.index < b.index ∨ a.index = b.index ∧ a.rank < b.rank) : a.name < b.name := by
  have happ : ∀ (n : ℕ) (xs ys : List Char), xs < ys →
      segmentName n ++ xs < segmentName n ++ ys := by
    intro n xs ys hxy
    induction segmentName n with
    | nil => exact hxy
    | cons c cs ih => exact List.cons_lt_cons_iff.mpr (.inr ⟨rfl, ih⟩)
  have hname : ∀ f : FileName, f ≠ .temp → ∃ suf, f.name = segmentName f.index ++ suf
      ∧ suf = [[], endSuffix, startSuffix].getD f.rank [] := by
    rintro (n | n | n | _) hf <;> simp_all [name, index, rank, startName, endName]
  obtain ⟨sa, hsa, hra⟩ := hname a ha
  obtain ⟨sb, hsb, hrb⟩ := hname b hb
  rw [hsa, hsb]
  rcases h with h | ⟨h, hr⟩
  · refine append_lt_append _ _ ?_ (segmentName_lt h hbi)
    rw [length_segmentName hbi, length_segmentName (h.trans hbi)]
  · rw [h]
    refine happ _ _ _ ?_
    rw [hra, hrb]
    rcases a with n | n | n | _ <;> rcases b with m | m | m | _ <;> simp [rank] at hr ha hb ⊢ <;>
      decide

/-- What the loader makes of a file of the log's own. -/
def scanned : FileName → Option (ℕ × Kind)
  | .seg n => some (n, .plain)
  | .start n => some (n, .start)
  | .fin n => some (n, .fin)
  | .temp => none

theorem scanName_name {f : FileName} (h0 : f ≠ .temp → f.index ≠ 0) (h : f.index < 2 ^ 64) :
    scanName f.name = f.scanned := by
  have hlen : ∀ n < 2 ^ 64, (segmentName n).length = 20 :=
    fun n hn => length_segmentName (hn.trans (by norm_num))
  rcases f with n | n | n | _
  · have hl := hlen n h
    have ht : (segmentName n).take 20 = segmentName n := List.take_of_length_le (by omega)
    have hn : n ≠ 0 := h0 (by simp)
    have hp : parseUint (segmentName n) = some n := parseUint_segmentName h
    simp [scanName, scanned, name, hl, ht, hp, hn]
  · have hl := hlen n h
    have ht : (startName n).take 20 = segmentName n := List.take_left' hl
    have hn : n ≠ 0 := h0 (by simp)
    have hls : (startName n).length = 26 := by simp [startName, startSuffix, hl]
    have hsuf : startSuffix.isSuffixOf (startName n) = true :=
      List.isSuffixOf_iff_suffix.mpr (List.suffix_append _ _)
    have hp : parseUint (segmentName n) = some n := parseUint_segmentName h
    simp [scanName, scanned, name, hls, ht, hp, hn, hsuf]
  · have hl := hlen n h
    have ht : (endName n).take 20 = segmentName n := List.take_left' hl
    have hn : n ≠ 0 := h0 (by simp)
    have hls : (endName n).length = 24 := by simp [endName, endSuffix, hl]
    have hsuf : endSuffix.isSuffixOf (endName n) = true :=
      List.isSuffixOf_iff_suffix.mpr (List.suffix_append _ _)
    have hp : parseUint (segmentName n) = some n := parseUint_segmentName h
    simp [scanName, scanned, name, hls, ht, hp, hn, hsuf]
  · decide

end FileName

end Rhosus.Wal

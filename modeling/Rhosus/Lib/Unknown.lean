import Rhosus.Lib.Wire

/-!
# Fields that a message does not have

The generated loop skips a field with a number that it does not know, whatever the kind of its
value; a group, which holds fields of its own, is skipped to its end. So a message is read back
also where such fields stand between its own (`Message.unmarshal_amid`).
-/

namespace Rhosus.Proto

/-- A field with a value of any kind. A group holds fields, up to a tag that ends it. -/
inductive Item
  | varint (num v : ℕ)
  | fixed64 (num : ℕ) (d : Bytes)
  | bytes (num : ℕ) (d : Bytes)
  | group (num : ℕ) (items : List Item)
  | fixed32 (num : ℕ) (d : Bytes)

namespace Item

def num : Item → ℕ
  | .varint num _ | .fixed64 num _ | .bytes num _ | .group num _ | .fixed32 num _ => num

def kind : Item → ℕ
  | .varint .. => 0
  | .fixed64 .. => 1
  | .bytes .. => 2
  | .group .. => 3
  | .fixed32 .. => 5

mutual

def value : Item → Bytes
  | .varint _ v => putUvarint v
  | .fixed64 _ d => d
  | .bytes _ d => putUvarint d.length ++ d
  | .group num items => values items ++ tag num 4
  | .fixed32 _ d => d

def values : List Item → Bytes
  | [] => []
  | x :: xs => tag x.num x.kind ++ value x ++ values xs

end

def encode (x : Item) : Bytes := tag x.num x.kind ++ x.value

mutual

def Fits : Item → Prop
  | .varint num v => (0 < num ∧ num < 2 ^ 28) ∧ v < 2 ^ 64
  | .fixed64 num d => (0 < num ∧ num < 2 ^ 28) ∧ d.length = 8
  | .bytes num d => (0 < num ∧ num < 2 ^ 28) ∧ d.length < 2 ^ 64
  | .group num items => (0 < num ∧ num < 2 ^ 28) ∧ AllFit items
  | .fixed32 num d => (0 < num ∧ num < 2 ^ 28) ∧ d.length = 4

def AllFit : List Item → Prop
  | [] => True
  | x :: xs => Fits x ∧ AllFit xs

end

mutual

def tags : Item → ℕ
  | .group _ items => allTags items + 2
  | .varint .. | .fixed64 .. | .bytes .. | .fixed32 .. => 1

def allTags : List Item → ℕ
  | [] => 0
  | x :: xs => tags x + allTags xs

end

theorem Fits.num_lt : ∀ {x : Item}, x.Fits → 0 < x.num ∧ x.num < 2 ^ 28
  | .varint .., h | .fixed64 .., h | .bytes .., h | .fixed32 .., h | .group .., h => by
    rw [Fits] at h
    exact h.1

theorem kind_lt (x : Item) : x.kind < 6 ∧ x.kind ≠ 4 := by
  cases x <;> simp [kind]

/-- What is left of the bytes after a field, at this depth of groups. -/
def resume (fuel depth : ℕ) (bs : Bytes) : Option Bytes :=
  if depth = 0 then some bs else skip fuel depth bs

theorem after_append {n : ℕ} {d : Bytes} (hd : d.length = n) (rest : Bytes) :
    after n (d ++ rest) = some rest := by
  subst hd
  rw [after, if_pos (by simp), List.drop_left]

mutual

theorem skip_encode : ∀ (x : Item), x.Fits → ∀ {fuel depth : ℕ} (rest : Bytes), x.tags ≤ fuel →
    skip fuel depth (tag x.num x.kind ++ (x.value ++ rest)) = resume (fuel - x.tags) depth rest
  | .varint num v, h, fuel + 1, depth, rest, hf => by
    rw [Fits] at h
    have hmod : (8 * num + 0) % 8 = 0 := by omega
    simp only [Item.num, kind, value]
    rw [skip, readVarint_tag h.1.2 (by norm_num)]
    simp only [hmod, readVarint_put h.2]
    rfl
  | .fixed64 num d, h, fuel + 1, depth, rest, hf => by
    rw [Fits] at h
    have hmod : (8 * num + 1) % 8 = 1 := by omega
    simp only [Item.num, kind, value]
    rw [skip, readVarint_tag h.1.2 (by norm_num)]
    simp only [hmod, after_append h.2]
    rfl
  | .bytes num d, h, fuel + 1, depth, rest, hf => by
    rw [Fits] at h
    have hmod : (8 * num + 2) % 8 = 2 := by omega
    simp only [Item.num, kind, value]
    rw [skip, readVarint_tag h.1.2 (by norm_num)]
    simp only [hmod, List.append_assoc, readVarint_put h.2, Nat.mod_eq_of_lt h.2, after_append rfl]
    rfl
  | .fixed32 num d, h, fuel + 1, depth, rest, hf => by
    rw [Fits] at h
    have hmod : (8 * num + 5) % 8 = 5 := by omega
    simp only [Item.num, kind, value]
    rw [skip, readVarint_tag h.1.2 (by norm_num)]
    simp only [hmod, after_append h.2]
    rfl
  | .group num items, h, fuel + 1, depth, rest, hf => by
    rw [Fits] at h
    rw [tags] at hf ⊢
    have hopen : (8 * num + 3) % 8 = 3 := by omega
    have hend : (8 * num + 4) % 8 = 4 := by omega
    simp only [Item.num, kind, value, List.append_assoc]
    rw [skip, readVarint_tag h.1.2 (by norm_num)]
    simp only [hopen, Option.bind_some, if_neg (Nat.succ_ne_zero depth)]
    rw [skip_values items h.2 (depth + 1) (tag num 4 ++ rest) (Nat.succ_pos _) (by omega)]
    obtain ⟨k, hk⟩ : ∃ k, fuel - allTags items = k + 1 := ⟨fuel - allTags items - 1, by omega⟩
    rw [hk, skip, readVarint_tag h.1.2 (by norm_num)]
    simp only [hend, if_neg (Nat.succ_ne_zero depth), Nat.add_sub_cancel, Option.bind_some]
    rw [show fuel + 1 - (allTags items + 2) = k by omega]
    rfl

theorem skip_values : ∀ (xs : List Item), AllFit xs → ∀ {fuel : ℕ} (depth : ℕ) (rest : Bytes),
    0 < depth → allTags xs ≤ fuel →
    skip fuel depth (values xs ++ rest) = skip (fuel - allTags xs) depth rest
  | [], _, fuel, depth, rest, _, _ => by
    rw [values, allTags, List.nil_append, Nat.sub_zero]
  | x :: xs, h, fuel, depth, rest, hdepth, hf => by
    rw [AllFit] at h
    rw [allTags] at hf ⊢
    rw [values, List.append_assoc, List.append_assoc, skip_encode x h.1 _ (by omega), resume,
      if_neg (by omega), skip_values xs h.2 depth rest hdepth (by omega), Nat.sub_sub]

end

mutual

theorem tags_le : ∀ x : Item, x.tags ≤ x.encode.length
  | .varint num v | .fixed64 num d | .bytes num d | .fixed32 num d => by
    rw [tags, encode, List.length_append]
    exact (putUvarint_length_pos _).trans_le (Nat.le_add_right ..)
  | .group num items => by
    have h := allTags_le items
    have hopen := putUvarint_length_pos (8 * num + 3)
    have hend := putUvarint_length_pos (8 * num + 4)
    rw [← tag] at hopen hend
    simp only [tags, encode, Item.num, kind, value, List.length_append]
    omega

theorem allTags_le : ∀ xs : List Item, allTags xs ≤ (values xs).length
  | [] => Nat.le_refl 0
  | x :: xs => by
    have h := tags_le x
    have h' := allTags_le xs
    rw [allTags, values, List.length_append, ← encode]
    omega

end

theorem chunk {M : Type} {field : ReadField M} {x : Item} (h : x.Fits)
    (hnone : ∀ kind bs m, field x.num kind bs m = none) : Chunk field x.encode id := by
  intro a m' rest hrest fuel hf
  obtain ⟨hnum, hnum'⟩ := h.num_lt
  obtain ⟨hkind, hkind'⟩ := x.kind_lt
  have htags := x.tags_le
  have hpos : 0 < x.encode.length := by
    rw [encode, List.length_append]
    exact (putUvarint_length_pos _).trans_le (Nat.le_add_right ..)
  rw [List.length_append] at hf
  obtain ⟨fuel, rfl⟩ : ∃ k, fuel = k + 1 := ⟨fuel - 1, by omega⟩
  rw [encode, List.append_assoc, unmarshalFrom_tag hnum hnum' ⟨by omega, hkind'⟩, hnone,
    skip_encode x h rest (by omega), resume, if_pos rfl]
  exact hrest fuel (by omega)

end Item

namespace Message

variable {M : Type} {msg : Message M} {m : M}

/-- The bytes are those pieces in turn, with fields between them that the message does not have. -/
inductive Amid (msg : Message M) : List Bytes → Bytes → Prop
  | nil : Amid msg [] []
  | piece {ps : List Bytes} {bs : Bytes} (p : Bytes) (h : Amid msg ps bs) :
    Amid msg (p :: ps) (p ++ bs)
  | item {ps : List Bytes} {bs : Bytes} (x : Item) (hx : x.Fits)
    (hnum : ∀ f ∈ msg.fields, f.num ≠ x.num) (h : Amid msg ps bs) : Amid msg ps (x.encode ++ bs)

theorem reads_amid {ps : List Bytes} {bs : Bytes} (h : Amid msg ps bs) : ∀ {qs : List (Piece M)}
    {a : M}, (∀ p ∈ qs, p.Sound msg.readField) → qs.map Piece.bytes = ps →
    Reads msg.readField a bs (qs.foldl (fun a p => p.step a) a) := by
  induction h with
  | nil =>
    intro qs a _ hps
    rw [List.map_eq_nil_iff.mp hps]
    exact Reads.nil
  | piece p h ih =>
    intro qs a hqs hps
    obtain ⟨q, qs, rfl, rfl, htail⟩ := List.map_eq_cons_iff.mp hps
    exact (hqs q List.mem_cons_self).chunk
      (ih (fun r hr => hqs r (List.mem_cons_of_mem q hr)) htail)
  | item x hx hnum h ih =>
    intro qs a hqs hps
    refine Item.chunk hx (fun kind bs m => ?_) (ih hqs hps)
    rw [readField, List.find?_eq_none.mpr fun f hf => by simpa using hnum f hf]
    rfl

/-- A message is read from its pieces, also with fields between them that it does not have. -/
theorem unmarshal_amid (h : msg.Sound) (hfits : msg.fits m) {bs : Bytes}
    (hbs : Amid msg ((msg.pieces m).map Piece.bytes) bs) :
    msg.unmarshal msg.new bs = (m, true) := by
  rw [unmarshal, (reads_amid hbs (pieces_sound h hfits) rfl).unmarshal, foldl_pieces h hfits]

end Message

end Rhosus.Proto

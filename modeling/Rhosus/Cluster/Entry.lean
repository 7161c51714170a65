import Rhosus.Lib.Proto

/-!
# Log entries

An entry of the replicated log, its bytes in the write-ahead log, and the buffer that holds the
entries a leader has still to send to a peer. `version` and unrecognized fields are left out:
nothing sets them, and what is read back skips them.
-/

namespace Rhosus.Cluster

/-- `Entry_Type` -/
inductive EntryType
  | assignFile
  | deleteFile
  | assignBlocks
  | deleteBlocks
  | createPolicy
  | deletePolicy
  | createToken
  | revokeToken
  deriving DecidableEq

/-- The number of a type on the wire; 2 is not used. -/
def EntryType.code : EntryType → ℤ
  | .assignFile => 0
  | .deleteFile => 1
  | .assignBlocks => 3
  | .deleteBlocks => 4
  | .createPolicy => 5
  | .deletePolicy => 6
  | .createToken => 7
  | .revokeToken => 8

/-- `type` is an `int32`, as the enumeration is open on the wire. -/
structure Entry where
  index : ℕ
  term : ℕ
  type : ℤ
  data : Bytes
  timestamp : ℤ
  deriving DecidableEq

namespace Entry

/-- `uint64(x)` of a signed number. -/
def toUint64 (x : ℤ) : ℕ := (x % 2 ^ 64).toNat

def marshal (e : Entry) : Bytes :=
  Proto.varintField 1 e.index ++ (Proto.varintField 2 e.term ++
    (Proto.varintField 3 (toUint64 e.type) ++ (Proto.bytesField 4 e.data ++
      Proto.varintField 5 (toUint64 e.timestamp))))

/-- Reads a varint of `w` bits into a field, also one it cannot read to its end. -/
def readInto (w : ℕ) (set : ℕ → Entry → Entry) (kind : ℕ) (bs : Bytes) (e : Entry) :
    Entry × Option Bytes :=
  if kind ≠ 0 then (e, none)
  else
    let (v, rest) := Proto.readVarint w bs
    (set v e, rest)

def readField : Proto.ReadField Entry := fun num kind bs e =>
  match num with
  | 1 => some (readInto 64 (fun v e => { e with index := v }) kind bs e)
  | 2 => some (readInto 32 (fun v e => { e with term := v }) kind bs e)
  | 3 => some (readInto 32 (fun v e => { e with type := Int.bmod v (2 ^ 32) }) kind bs e)
  | 4 =>
    if kind ≠ 2 then some (e, none)
    else
      match Proto.readBytes bs with
      | some (data, rest) => some ({ e with data }, some rest)
      | none => some (e, none)
  | 5 => some (readInto 64 (fun v e => { e with timestamp := Int.bmod v (2 ^ 64) }) kind bs e)
  | 99 => if kind ≠ 5 then some (e, none) else some (e, Proto.after 4 bs)
  | _ => none

/-- The entry the bytes hold, and whether they could be read without an error. -/
def unmarshal (bs : Bytes) : Entry × Bool := Proto.unmarshal readField ⟨0, 0, 0, [], 0⟩ bs

/-- The fields are within their types, and the bytes have a length that is an `int`. -/
structure Wf (e : Entry) : Prop where
  index : e.index < 2 ^ 64
  term : e.term < 2 ^ 32
  type : -2 ^ 31 ≤ e.type ∧ e.type < 2 ^ 31
  data : e.data.length + 128 < 2 ^ 63
  timestamp : -2 ^ 63 ≤ e.timestamp ∧ e.timestamp < 2 ^ 63

theorem toUint64_lt (x : ℤ) : toUint64 x < 2 ^ 64 := by
  unfold toUint64
  omega

theorem bmod_toUint64 {x : ℤ} {w : ℕ} (hw : w = 32 ∨ w = 64) (hlo : -2 ^ (w - 1) ≤ x)
    (hhi : x < 2 ^ (w - 1)) : Int.bmod (toUint64 x % 2 ^ w : ℕ) (2 ^ w) = x := by
  unfold toUint64
  rw [Int.bmod_def]
  rcases hw with rfl | rfl <;> norm_num at hlo hhi ⊢ <;> split_ifs <;> omega

theorem readInto_read {w v : ℕ} {bs rest : Bytes} (set : ℕ → Entry → Entry) (e : Entry)
    (h : ∀ w, Proto.readVarint w bs = (v % 2 ^ w, some rest)) :
    readInto w set 0 bs e = (set (v % 2 ^ w) e, some rest) := by
  simp [readInto, h]

theorem unmarshal_marshal {e : Entry} (h : e.Wf) : unmarshal e.marshal = (e, true) := by
  have hterm : e.term < 2 ^ 64 := h.term.trans (by norm_num)
  have hdata : e.data.length < 2 ^ 64 := by
    have := h.data
    omega
  have htype := bmod_toUint64 (w := 32) (.inl rfl) h.type.1 h.type.2
  have htime := bmod_toUint64 (w := 64) (.inr rfl) h.timestamp.1 h.timestamp.2
  refine Proto.Reads.unmarshal ?_
  refine .varint ⟨e.index, 0, 0, [], 0⟩ (by norm_num) (by norm_num) h.index ?_ ?_ ?_
  · intro h0
    rw [h0]
  · intro bs rest hr
    rw [readField, readInto_read _ _ hr, Nat.mod_eq_of_lt h.index]
  refine .varint ⟨e.index, e.term, 0, [], 0⟩ (by norm_num) (by norm_num) hterm ?_ ?_ ?_
  · intro h0
    rw [h0]
  · intro bs rest hr
    rw [readField, readInto_read _ _ hr, Nat.mod_eq_of_lt h.term]
  refine .varint ⟨e.index, e.term, e.type, [], 0⟩ (by norm_num) (by norm_num)
    (toUint64_lt _) ?_ ?_ ?_
  · intro h0
    rw [← htype, h0]
    rfl
  · intro bs rest hr
    rw [readField, readInto_read _ _ hr, htype]
  refine .bytes ⟨e.index, e.term, e.type, e.data, 0⟩ (by norm_num) (by norm_num) hdata
    ?_ ?_ ?_
  · intro h0
    rw [h0]
  · intro bs rest hr
    simp [readField, hr]
  rw [← List.append_nil (Proto.varintField 5 _)]
  refine .varint e (by norm_num) (by norm_num) (toUint64_lt _) ?_ ?_ .nil
  · intro h0
    rw [h0] at htime
    cases e
    simp only [mk.injEq, true_and]
    exact htime.symm
  · intro bs rest hr
    rw [readField, readInto_read _ _ hr, htime]

theorem length_varintField_le (num v : ℕ) : (Proto.varintField num v).length ≤ 20 := by
  have htag : (Proto.tag num 0).length ≤ 10 := putUvarint_length_le _
  have := putUvarint_length_le v
  unfold Proto.varintField
  split_ifs
  · simp
  · rw [List.length_append]
    omega

theorem length_marshal_lt {e : Entry} (h : e.Wf) : e.marshal.length < 2 ^ 63 := by
  have hdata := h.data
  have htag : (Proto.tag 4 2).length ≤ 10 := putUvarint_length_le _
  have hlen := putUvarint_length_le e.data.length
  have hbytes : (Proto.bytesField 4 e.data).length ≤ 20 + e.data.length := by
    unfold Proto.bytesField
    split_ifs
    · simp
    · simp only [List.length_append]
      omega
  have := length_varintField_le 1 e.index
  have := length_varintField_le 2 e.term
  have := length_varintField_le 3 (toUint64 e.type)
  have := length_varintField_le 5 (toUint64 e.timestamp)
  simp only [marshal, List.length_append]
  omega

end Entry

end Rhosus.Cluster

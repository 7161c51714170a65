import Rhosus.Lib.Ring
import Rhosus.Util.Slices

/-!
# The byte queue

A queue in a ring of cells that is doubled when it is full and halved when it is no more than half
full after a removal. A ring of more than the initial capacity is more than half full, so it is
halved when it is half full exactly: the items fill the new ring, and what `resize` copies is in its
bounds. The results of any calls are those of a list (`byteQueue_fifo`).
-/

namespace Rhosus.Util

/-- A number as an `int`. -/
def toInt (x : ℤ) : ℤ := Int.bmod x (2 ^ 64)

/-- `a % n` -/
def mod? (a n : ℕ) : Option ℕ := if n = 0 then none else some (a % n)

theorem toInt_add (x y : ℤ) : toInt (toInt x + y) = toInt (x + y) := Int.bmod_add_bmod

theorem toInt_sub (x y : ℤ) : toInt (toInt x - y) = toInt (x - y) := Int.bmod_sub_bmod

theorem mod?_eq (a : ℕ) {n : ℕ} (h : 0 < n) : mod? a n = some (a % n) := if_neg h.ne'

/-- The mutex and the condition are left out: each call is one step, and `Wait` is not modelled. -/
structure ByteQueue where
  nodes : List Bytes
  head : ℕ
  tail : ℕ
  cnt : ℕ
  size : ℤ
  closed : Bool
  initCap : ℕ

def initialCapacity : ℕ := 2

namespace ByteQueue

def new : ByteQueue where
  nodes := List.replicate initialCapacity []
  head := 0
  tail := 0
  cnt := 0
  size := 0
  closed := false
  initCap := initialCapacity

def copied (n : ℕ) (q : ByteQueue) : Option (List Bytes) :=
  let nodes := List.replicate n []
  if q.head < q.tail then do
    let items ← slice? q.nodes q.head q.tail
    copy? nodes 0 items
  else do
    let items ← slice? q.nodes q.head q.nodes.length
    let nodes ← copy? nodes 0 items
    let items ← slice? q.nodes 0 q.tail
    copy? nodes (q.nodes.length - q.head) items

def resize (n : ℕ) (q : ByteQueue) : Option ByteQueue := do
  let nodes ← q.copied n
  let tail ← mod? q.cnt n
  some { q with tail, head := 0, nodes }

def grow (q : ByteQueue) : Option ByteQueue :=
  if q.cnt = q.nodes.length then q.resize (q.cnt * 2) else some q

def add (i : Bytes) (q : ByteQueue) : Option (Bool × ByteQueue) :=
  if q.closed then some (false, q)
  else do
    let q ← q.grow
    let nodes ← set? q.nodes q.tail i
    let tail ← mod? (q.tail + 1) nodes.length
    let size := toInt (q.size + i.length)
    some (true, { q with nodes, tail, size, cnt := q.cnt + 1 })

def close (q : ByteQueue) : ByteQueue := { q with closed := true, cnt := 0, nodes := [], size := 0 }

def drain (nodes : List Bytes) : ℕ → ℕ → List Bytes → Option (ℕ × List Bytes)
  | 0, head, rem => some (head, rem)
  | cnt + 1, head, rem => do
    let i ← nodes[head]?
    let head ← mod? (head + 1) nodes.length
    drain nodes cnt head (rem ++ [i])

def closeRemaining (q : ByteQueue) : Option (List Bytes × ByteQueue) :=
  if q.closed then some ([], q)
  else do
    let (head, rem) ← drain q.nodes q.cnt q.head []
    some (rem, { q with head }.close)

def shrink (q : ByteQueue) : Option ByteQueue :=
  let n := q.nodes.length / 2
  if q.initCap ≤ n ∧ q.cnt ≤ n then q.resize n else some q

def remove (q : ByteQueue) : Option ((Bytes × Bool) × ByteQueue) :=
  if q.cnt = 0 then some (([], false), q)
  else do
    let i ← q.nodes[q.head]?
    let head ← mod? (q.head + 1) q.nodes.length
    let size := toInt (q.size - i.length)
    let q ← { q with head, cnt := q.cnt - 1, size }.shrink
    some ((i, true), q)

end ByteQueue

section Calls

inductive Call
  | add (i : Bytes)
  | remove
  | close
  | closeRemaining
  | closed
  | len
  | size

inductive Result
  | added (ok : Bool)
  | removed (i : Bytes) (ok : Bool)
  | done
  | remaining (items : List Bytes)
  | closed (yes : Bool)
  | len (n : ℕ)
  | size (n : ℤ)
  deriving DecidableEq

/-- Nothing where an index or a bound is exceeded. -/
def ByteQueue.exec (q : ByteQueue) : Call → Option (Result × ByteQueue)
  | .add i => (q.add i).map fun r => (.added r.1, r.2)
  | .remove => q.remove.map fun r => (.removed r.1.1 r.1.2, r.2)
  | .close => some (.done, q.close)
  | .closeRemaining => q.closeRemaining.map fun r => (.remaining r.1, r.2)
  | .closed => some (.closed q.closed, q)
  | .len => some (.len q.cnt, q)
  | .size => some (.size q.size, q)

def ByteQueue.run : List Call → ByteQueue → Option (List Result × ByteQueue)
  | [], q => some ([], q)
  | c :: cs, q => do
    let (r, q) ← q.exec c
    let (rs, q) ← run cs q
    some (r :: rs, q)

/-- A list, and whether it is closed. -/
structure Fifo where
  items : List Bytes
  closed : Bool

/-- The sum of the lengths, which is an `int`. -/
def total (items : List Bytes) : ℤ := toInt (items.map List.length).sum

def Fifo.exec (f : Fifo) : Call → Result × Fifo
  | .add i =>
    if f.closed then (.added false, f) else (.added true, { f with items := f.items ++ [i] })
  | .remove =>
    match f.items with
    | [] => (.removed [] false, f)
    | i :: items => (.removed i true, { f with items })
  | .close => (.done, ⟨[], true⟩)
  | .closeRemaining => (.remaining f.items, ⟨[], true⟩)
  | .closed => (.closed f.closed, f)
  | .len => (.len f.items.length, f)
  | .size => (.size (total f.items), f)

def Fifo.run : List Call → Fifo → List Result × Fifo
  | [], f => ([], f)
  | c :: cs, f => ((f.exec c).1 :: (run cs (f.exec c).2).1, (run cs (f.exec c).2).2)

end Calls

namespace ByteQueue

/-- The items of an open queue stand in its ring from `head` on. -/
structure Laid (q : ByteQueue) (items : List Bytes) : Prop where
  isOpen : q.closed = false
  initCap : q.initCap = initialCapacity
  cnt_le : q.cnt ≤ q.nodes.length
  head_lt : q.head < q.nodes.length
  tail : q.tail = (q.head + q.cnt) % q.nodes.length
  contents : window q.nodes q.head q.cnt = items
  size : q.size = total items

/-- Also, a ring that could be halved is more than half full. -/
structure Holds (q : ByteQueue) (items : List Bytes) : Prop extends q.Laid items where
  dense : q.nodes.length / 2 < initialCapacity ∨ q.nodes.length / 2 < q.cnt

inductive Refines : ByteQueue → Fifo → Prop
  | opened {q : ByteQueue} {items : List Bytes} (h : q.Holds items) : Refines q ⟨items, false⟩
  | closed {q : ByteQueue} (hclosed : q.closed = true) (hcnt : q.cnt = 0) (hsize : q.size = 0) :
    Refines q ⟨[], true⟩

variable {q : ByteQueue} {items : List Bytes} {f : Fifo}

theorem Laid.length_items (h : q.Laid items) : items.length = q.cnt := by
  rw [← h.contents, length_window h.cnt_le]

/-- The items stand at the beginning of the new ring, if they fit in. -/
theorem copied_eq {n : ℕ} (hcnt : 0 < q.cnt) (hle : q.cnt ≤ q.nodes.length)
    (hhead : q.head < q.nodes.length) (htail : q.tail = (q.head + q.cnt) % q.nodes.length)
    (hn : q.cnt ≤ n) :
    q.copied n = some (window q.nodes q.head q.cnt ++ List.replicate (n - q.cnt) []) := by
  unfold copied
  by_cases hwrap : q.head + q.cnt < q.nodes.length
  · rw [Nat.mod_eq_of_lt hwrap] at htail
    have hlen := length_window (h := q.head) hle
    rw [htail, if_pos (by omega), slice?_eq (by omega) hwrap.le, ← window_eq_slice hwrap.le]
    have hcopy := copy?_append [] (List.replicate n []) (window q.nodes q.head q.cnt)
      (by rw [hlen, List.length_replicate]; exact hn)
    rw [hlen, List.drop_replicate] at hcopy
    exact hcopy
  · have htail' : q.tail = q.head + q.cnt - q.nodes.length := by
      rw [htail, Nat.mod_eq_sub_mod (not_lt.mp hwrap), Nat.mod_eq_of_lt (by omega)]
    rw [if_neg (by omega), slice?_eq hhead.le le_rfl, List.take_length,
      slice?_eq (Nat.zero_le _) (by omega), List.drop_zero, htail',
      window_eq_slices hhead.le (not_lt.mp hwrap), List.take_take, min_eq_left (by omega)]
    have hfirst := copy?_append [] (List.replicate n []) (q.nodes.drop q.head)
      (by rw [List.length_drop, List.length_replicate]; omega)
    have hsecond := copy?_append (q.nodes.drop q.head)
      (List.replicate (n - (q.nodes.length - q.head)) [])
      (q.nodes.take (q.head + q.cnt - q.nodes.length))
      (by rw [List.length_take, List.length_replicate]; omega)
    rw [List.nil_append, List.length_nil, List.length_drop, List.drop_replicate] at hfirst
    rw [List.length_drop, List.length_take, min_eq_left (by omega), List.drop_replicate] at hsecond
    simp only [Option.bind_eq_bind, Option.bind_some, hfirst, List.nil_append, hsecond]
    congr 3
    omega

theorem Laid.resize (h : q.Laid items) {n : ℕ} (hcnt : 0 < q.cnt) (hn : q.cnt ≤ n) :
    ∃ q', q.resize n = some q' ∧ q'.Laid items ∧ q'.nodes.length = n ∧ q'.cnt = q.cnt := by
  have hlen := length_window (h := q.head) h.cnt_le
  have hcells : (window q.nodes q.head q.cnt ++ List.replicate (n - q.cnt) []).length = n := by
    rw [List.length_append, hlen, List.length_replicate]
    omega
  have hresize : q.resize n = some { q with
      nodes := window q.nodes q.head q.cnt ++ List.replicate (n - q.cnt) []
      head := 0
      tail := q.cnt % n } := by
    rw [ByteQueue.resize, copied_eq hcnt h.cnt_le h.head_lt h.tail hn,
      mod?_eq _ (hcnt.trans_le hn)]
    rfl
  refine ⟨_, hresize, ⟨h.isOpen, h.initCap, hcells.symm ▸ hn, ?_, ?_, ?_, h.size⟩, hcells, rfl⟩
  · rw [hcells]
    exact hcnt.trans_le hn
  · rw [hcells, Nat.zero_add]
  · rw [window, List.rotate_zero, List.take_append_of_le_length hlen.ge,
      List.take_of_length_le hlen.le]
    exact h.contents

theorem total_append (items : List Bytes) (i : Bytes) :
    total (items ++ [i]) = toInt (total items + i.length) := by
  rw [total, total, toInt_add, List.map_append, List.sum_append, Nat.cast_add, List.map_singleton,
    List.sum_singleton]

theorem total_tail (i : Bytes) (items : List Bytes) :
    total items = toInt (total (i :: items) - i.length) := by
  rw [total, total, toInt_sub, List.map_cons, List.sum_cons, Nat.cast_add, add_sub_cancel_left]

theorem Laid.put (h : q.Laid items) (hroom : q.cnt < q.nodes.length) (i : Bytes) :
    Laid { q with
      nodes := q.nodes.set q.tail i
      tail := (q.tail + 1) % q.nodes.length
      size := toInt (q.size + i.length)
      cnt := q.cnt + 1 } (items ++ [i]) := by
  refine ⟨h.isOpen, h.initCap, ?_, ?_, ?_, ?_, ?_⟩
  · rw [List.length_set]
    exact hroom
  · rw [List.length_set]
    exact h.head_lt
  · rw [List.length_set, h.tail, Nat.mod_add_mod, Nat.add_assoc]
  · rw [h.tail, window_set hroom, h.contents]
  · rw [total_append, h.size]

/-- A full ring is doubled, and then half full. -/
theorem Holds.grow (h : q.Holds items) : ∃ q', q.grow = some q' ∧ q'.Laid items
    ∧ q'.cnt < q'.nodes.length
    ∧ (q'.nodes.length / 2 < initialCapacity ∨ q'.nodes.length / 2 < q'.cnt + 1) := by
  have hpos : 0 < q.nodes.length := Nat.zero_lt_of_lt h.head_lt
  unfold ByteQueue.grow
  split_ifs with hfull
  · obtain ⟨q', hq', hl, hlen, hcnt⟩ := h.toLaid.resize (n := q.cnt * 2) (by omega) (by omega)
    exact ⟨q', hq', hl, by omega, .inr (by omega)⟩
  · exact ⟨q, rfl, h.toLaid, lt_of_le_of_ne h.cnt_le hfull, h.dense.imp_right (by omega)⟩

theorem Holds.add (h : q.Holds items) (i : Bytes) :
    ∃ q', q.add i = some (true, q') ∧ q'.Holds (items ++ [i]) := by
  obtain ⟨q', hq', hl, hroom, hdense⟩ := h.grow
  have htail : q'.tail < q'.nodes.length := by
    rw [hl.tail]
    exact Nat.mod_lt _ (Nat.zero_lt_of_lt hroom)
  refine ⟨_, ?_, hl.put hroom i, ?_⟩
  · simp only [ByteQueue.add, h.isOpen, Bool.false_eq_true, if_false, hq', Option.bind_eq_bind,
      Option.bind_some, set?_eq htail, List.length_set, mod?_eq _ (Nat.zero_lt_of_lt hroom)]
  · rw [List.length_set]
    exact hdense

theorem Laid.take {i : Bytes} (h : q.Laid (i :: items)) :
    q.nodes[q.head]? = some i ∧ Laid { q with
      head := (q.head + 1) % q.nodes.length
      cnt := q.cnt - 1
      size := toInt (q.size - i.length) } items := by
  obtain ⟨n, hn⟩ : ∃ n, q.cnt = n + 1 := ⟨items.length, h.length_items.symm⟩
  have hle : n + 1 ≤ q.nodes.length := hn ▸ h.cnt_le
  have hwindow := h.contents
  rw [hn, window_succ hle (List.getElem?_eq_getElem h.head_lt)] at hwindow
  obtain ⟨hi, hitems⟩ := List.cons.inj hwindow
  refine ⟨by rw [List.getElem?_eq_getElem h.head_lt, hi], h.isOpen, h.initCap, ?_, ?_, ?_, ?_, ?_⟩
  · exact (Nat.sub_le _ _).trans h.cnt_le
  · exact Nat.mod_lt _ (Nat.zero_lt_of_lt h.head_lt)
  · rw [h.tail, hn, Nat.add_sub_cancel, Nat.mod_add_mod, Nat.add_assoc, Nat.add_comm 1 n]
  · rw [hn, Nat.add_sub_cancel]
    exact hitems
  · dsimp only
    rw [h.size, ← total_tail]

/-- A ring that is halved is then full. -/
theorem Laid.shrink (h : q.Laid items) (hdense : q.nodes.length / 2 < initialCapacity
    ∨ q.nodes.length / 2 ≤ q.cnt) : ∃ q', q.shrink = some q' ∧ q'.Holds items := by
  have hcap : initialCapacity = 2 := rfl
  unfold ByteQueue.shrink
  dsimp only
  split_ifs with hhalf
  · rw [h.initCap] at hhalf
    obtain ⟨q', hq', hl, hlen, hcnt⟩ := h.resize (n := q.nodes.length / 2) (by omega) hhalf.2
    exact ⟨q', hq', hl, .inr (by omega)⟩
  · rw [h.initCap] at hhalf
    exact ⟨q, rfl, h, by omega⟩

theorem Holds.remove {i : Bytes} (h : q.Holds (i :: items)) :
    ∃ q', q.remove = some ((i, true), q') ∧ q'.Holds items := by
  obtain ⟨hi, hl⟩ := h.toLaid.take
  have hcnt : items.length + 1 = q.cnt := h.length_items
  have hpos : 0 < q.nodes.length := Nat.zero_lt_of_lt h.head_lt
  obtain ⟨q', hq', hholds⟩ := hl.shrink (h.dense.imp_right fun hlt => Nat.le_sub_one_of_lt hlt)
  refine ⟨q', ?_, hholds⟩
  simp only [ByteQueue.remove, if_neg (by omega : ¬ q.cnt = 0), hi, Option.bind_eq_bind,
    Option.bind_some, mod?_eq _ hpos, hq']

theorem drain_eq : ∀ {items : List Bytes} {nodes : List Bytes} {head : ℕ} (rem : List Bytes),
    head < nodes.length → items.length ≤ nodes.length → window nodes head items.length = items →
      ∃ head', drain nodes items.length head rem = some (head', rem ++ items)
  | [], nodes, head, rem, _, _, _ => ⟨head, by rw [List.append_nil]; rfl⟩
  | i :: items, nodes, head, rem, hhead, hle, hwindow => by
    rw [List.length_cons, window_succ hle (List.getElem?_eq_getElem hhead)] at hwindow
    obtain ⟨hi, hitems⟩ := List.cons.inj hwindow
    have hpos : 0 < nodes.length := Nat.zero_lt_of_lt hhead
    obtain ⟨head', hrest⟩ := drain_eq (rem ++ [i]) (Nat.mod_lt (head + 1) hpos)
      (Nat.le_of_succ_le hle) hitems
    refine ⟨head', ?_⟩
    rw [List.length_cons, drain, List.getElem?_eq_getElem hhead, hi, mod?_eq _ hpos]
    simpa using hrest

theorem Holds.closeRemaining (h : q.Holds items) :
    ∃ head, q.closeRemaining = some (items, { q with head }.close) := by
  obtain ⟨head, hdrain⟩ := drain_eq [] h.head_lt (h.length_items ▸ h.cnt_le)
    (h.length_items ▸ h.contents)
  refine ⟨head, ?_⟩
  rw [h.length_items, List.nil_append] at hdrain
  simp only [ByteQueue.closeRemaining, h.isOpen, Bool.false_eq_true, if_false, hdrain,
    Option.bind_eq_bind, Option.bind_some]

theorem refines_new : new.Refines ⟨[], false⟩ :=
  .opened ⟨⟨rfl, rfl, by decide, by decide, rfl, rfl, rfl⟩, .inl (by decide)⟩

theorem refines_close (q : ByteQueue) : q.close.Refines ⟨[], true⟩ := .closed rfl rfl rfl

theorem Holds.exec (h : q.Holds items) (c : Call) :
    ∃ q', q.exec c = some ((Fifo.exec ⟨items, false⟩ c).1, q')
      ∧ q'.Refines (Fifo.exec ⟨items, false⟩ c).2 := by
  cases c with
  | add i =>
    obtain ⟨q', hadd, h'⟩ := h.add i
    exact ⟨q', by rw [ByteQueue.exec, hadd]; rfl, .opened h'⟩
  | remove =>
    rcases items with _ | ⟨i, items⟩
    · have hcnt : q.cnt = 0 := h.length_items.symm
      exact ⟨q, by rw [ByteQueue.exec, ByteQueue.remove, if_pos hcnt]; rfl, .opened h⟩
    · obtain ⟨q', hremove, h'⟩ := h.remove
      exact ⟨q', by rw [ByteQueue.exec, hremove]; rfl, .opened h'⟩
  | close => exact ⟨q.close, rfl, refines_close q⟩
  | closeRemaining =>
    obtain ⟨head, hclose⟩ := h.closeRemaining
    exact ⟨_, by rw [ByteQueue.exec, hclose]; rfl, refines_close _⟩
  | closed => exact ⟨q, by rw [ByteQueue.exec, h.isOpen]; rfl, .opened h⟩
  | len => exact ⟨q, by rw [ByteQueue.exec, ← h.length_items]; rfl, .opened h⟩
  | size => exact ⟨q, by rw [ByteQueue.exec, h.size]; rfl, .opened h⟩

/-- A queue that is closed stays as it is, or is closed once more. -/
theorem exec_closed (hclosed : q.closed = true) (hcnt : q.cnt = 0) (hsize : q.size = 0) (c : Call) :
    ∃ q', q.exec c = some ((Fifo.exec ⟨[], true⟩ c).1, q')
      ∧ q'.Refines (Fifo.exec ⟨[], true⟩ c).2 := by
  have hsame : q.Refines ⟨[], true⟩ := .closed hclosed hcnt hsize
  cases c with
  | add i => exact ⟨q, by rw [ByteQueue.exec, ByteQueue.add, if_pos hclosed]; rfl, hsame⟩
  | remove => exact ⟨q, by rw [ByteQueue.exec, ByteQueue.remove, if_pos hcnt]; rfl, hsame⟩
  | close => exact ⟨q.close, rfl, refines_close q⟩
  | closeRemaining =>
    exact ⟨q, by rw [ByteQueue.exec, ByteQueue.closeRemaining, if_pos hclosed]; rfl, hsame⟩
  | closed => exact ⟨q, by rw [ByteQueue.exec, hclosed]; rfl, hsame⟩
  | len => exact ⟨q, by rw [ByteQueue.exec, hcnt]; rfl, hsame⟩
  | size => exact ⟨q, by rw [ByteQueue.exec, hsize]; rfl, hsame⟩

/-- Each call does what it does to the list. -/
theorem Refines.exec (h : q.Refines f) (c : Call) :
    ∃ q', q.exec c = some ((f.exec c).1, q') ∧ q'.Refines (f.exec c).2 := by
  cases h with
  | opened h => exact h.exec c
  | closed hclosed hcnt hsize => exact exec_closed hclosed hcnt hsize c

theorem Refines.run : ∀ (cs : List Call) {q : ByteQueue} {f : Fifo}, q.Refines f →
    ∃ q', q.run cs = some ((f.run cs).1, q') ∧ q'.Refines (f.run cs).2
  | [], q, _, h => ⟨q, rfl, h⟩
  | c :: cs, q, f, h => by
    obtain ⟨q₁, hexec, h₁⟩ := h.exec c
    obtain ⟨q', hrun, h'⟩ := Refines.run cs h₁
    refine ⟨q', ?_, h'⟩
    simp only [ByteQueue.run, hexec, Option.bind_eq_bind, Option.bind_some, hrun, Fifo.run]

theorem Refines.contents (h : q.Refines f) : window q.nodes q.head q.cnt = f.items
    ∧ q.cnt = f.items.length ∧ q.size = total f.items ∧ q.closed = f.closed := by
  cases h with
  | opened h => exact ⟨h.contents, h.length_items.symm, h.size, h.isOpen⟩
  | closed hclosed hcnt hsize =>
    rw [hcnt]
    exact ⟨window_zero _ _, rfl, hsize, hclosed⟩

end ByteQueue

/-- Whatever calls are made on a new queue, no index or bound is exceeded, the results are those of
a list, and the cells of the queue from `head` on are its items. -/
theorem byteQueue_fifo (cs : List Call) : ∃ q, ByteQueue.new.run cs
      = some ((Fifo.run cs ⟨[], false⟩).1, q)
    ∧ window q.nodes q.head q.cnt = (Fifo.run cs ⟨[], false⟩).2.items
    ∧ q.cnt = (Fifo.run cs ⟨[], false⟩).2.items.length
    ∧ q.size = total (Fifo.run cs ⟨[], false⟩).2.items
    ∧ q.closed = (Fifo.run cs ⟨[], false⟩).2.closed := by
  obtain ⟨q, hrun, h⟩ := ByteQueue.refines_new.run cs
  exact ⟨q, hrun, h.contents⟩

example : (ByteQueue.new.run [.add [1], .add [2], .remove, .add [3], .add [4, 5], .remove, .size,
    .closeRemaining, .remove]).map Prod.fst = some [.added true, .added true, .removed [1] true,
      .added true, .added true, .removed [2] true, .size 3, .remaining [[3], [4, 5]],
      .removed [] false] := by decide

end Rhosus.Util

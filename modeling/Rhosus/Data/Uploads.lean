import Rhosus.Data.Custody
import Rhosus.Lib.Calls

/-!
# Uploads to a data node

What the steps of a data node can do is said once (`nodeStepped`). Where every block that is
uploaded has an id of its own, so have the blocks on their way (`Sound.step`), and what a step is to
one sink is nothing, a step of that sink, or the `put` of a block that a call had still to put
(`Sound.touched`).
-/

namespace Rhosus.Data

section Cases

inductive NodeStepped (n : DataNode) : NodeMove → DataNode → Prop
  | part {pid : Bytes} {l : Move} {s s' : Sink} (hput : ∀ b, l ≠ .put b)
    (hs : n.parts.lookup pid = some s) (hstep : s.step l = some s') :
    NodeStepped n (.part pid l) (n.setSink pid s')
  | create {pid : Bytes} (hnew : pid ∉ n.parts) :
    NodeStepped n (.create pid) (n.setSink pid newSink)
  | assign {order : List Bytes} {blocks : List Block} (stage : AssignStage)
    (hstage : stage = .looking ∨ ∃ e, stage = .failed e) : NodeStepped n (.assign order blocks)
      { n with calls := n.calls ++ [⟨blocks, order, [], 0, [], stage⟩] }
  | look {k : ℕ} {created : Option Bytes} {a : Assign} (hk : n.calls[k]? = some a)
    (ha : a.stage = .looking) (looking parts : List Bytes) (stage : AssignStage)
    (hparts : ∀ pid ∈ parts, pid ∈ a.parts ∨ pid ∈ n.parts)
    (hstage : stage ≠ .waiting ∧ stage ≠ .done) :
    NodeStepped n (.look k created) (n.setCall k { a with looking, parts, stage })
  | lookCreate {k : ℕ} {created : Option Bytes} {a : Assign} {pid : Bytes}
    (hk : n.calls[k]? = some a) (ha : a.stage = .looking) (hnew : pid ∉ n.parts) :
    NodeStepped n (.look k created)
      ((n.setSink pid newSink).setCall k { a with parts := [pid], stage := .putting })
  | put {k : ℕ} {a : Assign} {b : Block} {pid : Bytes} {s s' : Sink}
    (hk : n.calls[k]? = some a) (ha : a.stage = .putting ∨ a.stage = .waiting)
    (ht : a.target = some (b, pid)) (hs : n.parts.lookup pid = some s)
    (hstep : s.step (.put b) = some s') :
    NodeStepped n (.put k) ((n.setSink pid s').setCall k (a.placed b pid))
  | wait {k : ℕ} {a : Assign} {b : Block} {pid : Bytes} {s : Sink} (hk : n.calls[k]? = some a)
    (ha : a.stage = .putting) (ht : a.target = some (b, pid)) (hs : n.parts.lookup pid = some s)
    (hfull : sinkCapacity ≤ s.queue.length) :
    NodeStepped n (.wait k) (n.setCall k { a with stage := .waiting })
  | expire {k : ℕ} {a : Assign} (hk : n.calls[k]? = some a) (ha : a.stage = .waiting) :
    NodeStepped n (.expire k) (n.setCall k { a with next := a.next + 1, stage := .putting })
  | finish {k : ℕ} {a : Assign} (hk : n.calls[k]? = some a) (ha : a.stage = .putting)
    (hall : a.blocks.length ≤ a.next) :
    NodeStepped n (.finish k) (n.setCall k { a with stage := .done })

variable {n n' : DataNode} {l : NodeMove}

theorem DataNode.createPartition_eq {pid : Bytes} (h : n.createPartition pid = some n') :
    pid ∉ n.parts ∧ n' = n.setSink pid newSink := by
  unfold createPartition at h
  split_ifs at h with hnew
  exact ⟨hnew, (Option.some.inj h).symm⟩

theorem DataNode.look_stepped {k : ℕ} {created : Option Bytes} {a : Assign}
    (hk : n.calls[k]? = some a) (ha : a.stage = .looking) (h : n.look k a created = some n') :
    NodeStepped n (.look k created) n' := by
  unfold look at h
  split at h
  · obtain rfl := Option.some.inj h
    refine .look hk ha _ _ a.stage (fun q hq => ?_) (by rw [ha]; decide)
    split_ifs at hq with hav
    · rcases List.mem_append.mp hq with hq | hq
      · exact .inl hq
      · obtain rfl := List.mem_singleton.mp hq
        refine .inr (AList.lookup_isSome.mp ?_)
        unfold isAvailable at hav
        rcases hs : n.parts.lookup q with _ | s <;> rw [hs] at hav
        · cases hav
        · rfl
    · exact .inl hq
  · split_ifs at h
    · obtain ⟨n₁, hn₁, rfl⟩ := Option.map_eq_some_iff.mp h
      obtain ⟨hnew, rfl⟩ := createPartition_eq hn₁
      exact .lookCreate hk ha hnew
    · exact Option.some.inj h ▸ .look hk ha _ _ _ (fun q hq => .inl hq) (by decide)
  · obtain rfl := Option.some.inj h
    refine .look hk ha _ _ _ (fun q hq => .inl hq) ?_
    split_ifs <;> decide

theorem DataNode.call_stepped {k : ℕ} {a : Assign} (hk : n.calls[k]? = some a)
    (hl : l = .put k ∨ l = .wait k ∨ l = .expire k ∨ l = .finish k ∨ ∃ c, l = .look k c)
    (h : n.call k a l = some n') : NodeStepped n l n' := by
  have hput : ∀ {a : Assign}, n.calls[k]? = some a → (a.stage = .putting ∨ a.stage = .waiting) →
      n.put k a = some n' → NodeStepped n (.put k) n' := by
    intro a hk ha h
    unfold put at h
    split at h
    · rename_i b pid ht
      split at h
      · rename_i s hs
        obtain ⟨s', hs', rfl⟩ := Option.map_eq_some_iff.mp h
        exact .put hk ha ht hs hs'
      · cases h
    · cases h
  rcases hl with rfl | rfl | rfl | rfl | ⟨c, rfl⟩ <;> unfold call at h <;>
    rcases ha : a.stage with _ | _ | _ | _ | _ <;> simp only [ha, reduceCtorEq] at h
  · exact hput hk (.inl ha) h
  · exact hput hk (.inr ha) h
  · unfold wait at h
    split at h
    · rename_i b pid ht
      split at h
      · rename_i s hs
        split_ifs at h with hfull
        exact Option.some.inj h ▸ .wait hk ha ht hs hfull
      · cases h
    · cases h
  · exact Option.some.inj h ▸ .expire hk ha
  · split_ifs at h with hall
    exact Option.some.inj h ▸ .finish hk ha hall
  · exact look_stepped hk ha h

theorem DataNode.call_of_step {k : ℕ}
    (hl : l = .put k ∨ l = .wait k ∨ l = .expire k ∨ l = .finish k ∨ ∃ c, l = .look k c)
    (h : n.step l = some n') : ∃ a, n.calls[k]? = some a ∧ n.call k a l = some n' := by
  rcases hk : n.calls[k]? with _ | a
  · rcases hl with rfl | rfl | rfl | rfl | ⟨c, rfl⟩ <;> simp [step, hk] at h
  · refine ⟨a, rfl, ?_⟩
    rcases hl with rfl | rfl | rfl | rfl | ⟨c, rfl⟩ <;> simpa only [step, hk] using h

theorem nodeStepped (h : n.step l = some n') : NodeStepped n l n' := by
  have hcall : ∀ {k : ℕ}, (l = .put k ∨ l = .wait k ∨ l = .expire k ∨ l = .finish k
      ∨ ∃ c, l = .look k c) → NodeStepped n l n' := by
    intro k hl
    obtain ⟨a, hk, hcall⟩ := DataNode.call_of_step hl h
    exact DataNode.call_stepped hk hl hcall
  cases l with
  | part pid l =>
    unfold DataNode.step at h
    split at h
    · cases h
    · rename_i hput heq
      obtain ⟨rfl, rfl⟩ := NodeMove.part.inj heq
      split at h
      · rename_i s hs
        obtain ⟨s', hs', rfl⟩ := Option.map_eq_some_iff.mp h
        exact .part (fun b hb => hput b hb) hs hs'
      · cases h
    all_goals rename_i heq; cases heq
  | create pid =>
    obtain ⟨hnew, rfl⟩ := DataNode.createPartition_eq h
    exact .create hnew
  | assign order blocks =>
    unfold DataNode.step at h
    dsimp only at h
    split_ifs at h
    · exact Option.some.inj h ▸ .assign _ (.inr ⟨_, rfl⟩)
    · exact Option.some.inj h ▸ .assign _ (.inl rfl)
  | look k c => exact hcall (.inr (.inr (.inr (.inr ⟨c, rfl⟩))))
  | put k => exact hcall (.inl rfl)
  | wait k => exact hcall (.inr (.inl rfl))
  | expire k => exact hcall (.inr (.inr (.inl rfl)))
  | finish k => exact hcall (.inr (.inr (.inr (.inl rfl))))

end Cases

section Sinks

variable {s s' : Sink} {l : Move} {m : Bytes → Option Bytes}

/-- The ids of the blocks on their way through the sink. -/
def Sink.ids (s : Sink) : List Bytes := s.queued ++ s.stage.ids

/-- Blocks come to a sink by a `put` only. -/
theorem Sink.ids_step (hs : s.Holds m) (hput : ∀ b, l ≠ .put b) (hstep : s.step l = some s') :
    s'.queued.Sublist s.queued ∧ s'.ids ⊆ s.ids := by
  have hsame : s'.queue = s.queue → s'.stage.ids ⊆ s.stage.ids →
      s'.queued.Sublist s.queued ∧ s'.ids ⊆ s.ids := by
    intro hq hst
    have hqueued : s'.queued = s.queued := congrArg (List.map Block.id) hq
    refine ⟨by rw [hqueued], fun id hid => ?_⟩
    rw [ids, hqueued] at hid
    exact (List.mem_append.mp hid).elim (List.mem_append_left _)
      fun h => List.mem_append_right _ (hst h)
  cases stepped hstep with
  | put b => exact absurd rfl (hput b)
  | tick => exact hsame rfl (by simp [Stage.ids, Stage.blocks])
  | @take blocks b queue hst hq =>
    refine ⟨by simp [queued, hq], fun id hid => ?_⟩
    rw [ids, queued, Stage.ids_draining, List.mem_append, ← AList.mem_keys, AList.mem_insert] at hid
    rw [ids, queued, hq, hst, Stage.ids_draining, List.mem_append, List.map_cons, List.mem_cons,
      ← AList.mem_keys]
    tauto
  | empty hst hq =>
    refine hsame rfl ?_
    dsimp only
    split_ifs
    · simp [Stage.ids, Stage.blocks]
    · exact List.Subset.refl _
  | @check blocks hst =>
    refine hsame rfl ?_
    rw [hst]
    dsimp only
    split_ifs
    · exact List.Subset.refl _
    · exact List.Subset.refl _
  | @choose blocks order hst ho =>
    refine hsame rfl (List.map_subset _ fun b hb => ?_)
    rw [hst]
    exact ho.subset ((length_firstBlocks hs.part.wf order).2 b hb)
  | write | refusedWrite => exact hsame rfl (by simp [Stage.ids, Stage.blocks])
  | remove | refusedRemove => exact hsame rfl (List.Subset.refl _)
  | touch _ removals hfile hmap hclosed hstage =>
    rcases hstage with rfl | ⟨-, rfl⟩
    · exact hsame rfl (List.Subset.refl _)
    · exact hsame rfl (by simp [Stage.ids, Stage.blocks])

theorem Sink.queued_put {b : Block} (hstep : s.step (.put b) = some s') :
    s'.queued = s.queued ++ [b.id] ∧ s'.stage = s.stage := by
  cases stepped hstep with
  | put => exact ⟨by simp [queued], rfl⟩
  | touch hl => cases hl

end Sinks

section Sound

variable {n n' : DataNode} {l : NodeMove} {pid : Bytes} {k : ℕ} {a a' : Assign}

/-- The ids of the blocks that the call has still to put. -/
def Assign.todo (a : Assign) : List Bytes := (a.blocks.drop a.next).map Block.id

def DataNode.todo (n : DataNode) : List Bytes := n.calls.flatMap Assign.todo

/-- The ids of the blocks that were ever uploaded. -/
def DataNode.used (n : DataNode) : List Bytes := n.calls.flatMap fun a => a.blocks.map Block.id

/-- Blocks fit the slots, and file operations succeed. -/
def NodeMove.Plain : NodeMove → Prop
  | .part _ l => l.Plain
  | .assign _ blocks => ∀ b ∈ blocks, b.data.length ≤ defaultBlockSize
  | _ => True

instance : ∀ l : NodeMove, Decidable l.Plain
  | .part _ l => inferInstanceAs (Decidable l.Plain)
  | .assign _ blocks => inferInstanceAs (Decidable (∀ b ∈ blocks, _))
  | .create _ | .look _ _ | .put _ | .wait _ | .expire _ | .finish _ =>
    inferInstanceAs (Decidable True)

/-- The blocks that are uploaded have new ids. -/
def NodeMove.Fresh (l : NodeMove) (n : DataNode) : Prop :=
  match l with
  | .assign _ blocks => (blocks.map Block.id).Nodup ∧ ∀ b ∈ blocks, b.id ∉ n.used
  | _ => True

instance NodeMove.decidableFresh : ∀ (l : NodeMove) (n : DataNode), Decidable (l.Fresh n)
  | .assign _ blocks, n =>
    inferInstanceAs (Decidable ((blocks.map Block.id).Nodup ∧ ∀ b ∈ blocks, b.id ∉ n.used))
  | .part .., _ | .create _, _ | .look _ _, _ | .put _, _ | .wait _, _ | .expire _, _
  | .finish _, _ => inferInstanceAs (Decidable True)

/-- No block in a queue has the id of another there or of one still to be put. -/
structure Sound (n : DataNode) : Prop where
  up : n.shutdown = false
  holds : ∀ pid s, n.parts.lookup pid = some s → ∃ m, s.Holds m
  queued : ∀ pid s, n.parts.lookup pid = some s → s.queued.Nodup
  todo : n.todo.Nodup
  apart : ∀ pid s, n.parts.lookup pid = some s → ∀ id ∈ n.todo, id ∉ s.ids
  used : ∀ pid s, n.parts.lookup pid = some s → ∀ id ∈ s.ids, id ∈ n.used
  small : ∀ a ∈ n.calls, ∀ b ∈ a.blocks, b.data.length ≤ defaultBlockSize
  parts : ∀ a ∈ n.calls, ∀ pid ∈ a.parts, pid ∈ n.parts

theorem sound_new : Sound .new := by
  constructor <;> simp [DataNode.new, DataNode.todo]

theorem DataNode.todo_subset_used (n : DataNode) : n.todo ⊆ n.used := fun id hid => by
  obtain ⟨a, ha, hid⟩ := List.mem_flatMap.mp hid
  exact List.mem_flatMap.mpr ⟨a, ha, List.map_subset _ (List.drop_subset _ _) hid⟩

theorem DataNode.mem_used {b : Block} (ha : a ∈ n.calls) (hb : b ∈ a.blocks) : b.id ∈ n.used :=
  List.mem_flatMap.mpr ⟨a, ha, List.mem_map_of_mem hb⟩

theorem DataNode.used_setCall {id : Bytes} (hid : id ∈ n.used) (hk : n.calls[k]? = some a)
    (hb : a'.blocks = a.blocks) : id ∈ (n.setCall k a').used := by
  rw [used, setCall, flatMap_set_eq hk (by rw [hb])]
  exact hid

theorem DataNode.todo_setCall (hk : n.calls[k]? = some a) (hb : a'.blocks = a.blocks)
    (hnext : a.next ≤ a'.next) : (n.setCall k a').todo.Sublist n.todo := by
  refine flatMap_set_sublist hk (List.Sublist.map _ ?_)
  rw [hb, ← Nat.add_sub_cancel' hnext, ← List.drop_drop]
  exact List.drop_sublist _ _

theorem DataNode.mem_todo {id : Bytes} (hid : id ∈ (n.setCall k a').todo)
    (hk : n.calls[k]? = some a) (hb : a'.blocks = a.blocks) (hnext : a.next ≤ a'.next) :
    id ∈ n.todo :=
  (todo_setCall hk hb hnext).mem hid

theorem DataNode.lookup_setSink {q : Bytes} {s s' : Sink}
    (h : (n.setSink pid s').parts.lookup q = some s) :
    q = pid ∧ s = s' ∨ q ≠ pid ∧ n.parts.lookup q = some s := by
  by_cases hq : q = pid
  · subst hq
    rw [setSink, AList.lookup_insert] at h
    exact .inl ⟨rfl, (Option.some.inj h).symm⟩
  · rw [setSink, AList.lookup_insert_ne hq] at h
    exact .inr ⟨hq, h⟩

theorem Sound.setSink (h : Sound n) {s : Sink} (hs : ∃ m, s.Holds m) (hnd : s.queued.Nodup)
    (hapart : ∀ id ∈ n.todo, id ∉ s.ids) (hused : ∀ id ∈ s.ids, id ∈ n.used) :
    Sound (n.setSink pid s) where
  up := h.up
  holds q s' hq := by
    rcases DataNode.lookup_setSink hq with ⟨-, rfl⟩ | ⟨-, hq⟩
    · exact hs
    · exact h.holds q s' hq
  queued q s' hq := by
    rcases DataNode.lookup_setSink hq with ⟨-, rfl⟩ | ⟨-, hq⟩
    · exact hnd
    · exact h.queued q s' hq
  todo := h.todo
  apart q s' hq := by
    rcases DataNode.lookup_setSink hq with ⟨-, rfl⟩ | ⟨-, hq⟩
    · exact hapart
    · exact h.apart q s' hq
  used q s' hq := by
    rcases DataNode.lookup_setSink hq with ⟨-, rfl⟩ | ⟨-, hq⟩
    · exact hused
    · exact h.used q s' hq
  small := h.small
  parts a ha q hq := (AList.mem_insert _).mpr (.inr (h.parts a ha q hq))

theorem Sound.setCall (h : Sound n) (hk : n.calls[k]? = some a) (hb : a'.blocks = a.blocks)
    (hnext : a.next ≤ a'.next) (hparts : ∀ pid ∈ a'.parts, pid ∈ n.parts) :
    Sound (n.setCall k a') := by
  have hsub := DataNode.todo_setCall hk hb hnext
  have ha := List.mem_of_getElem? hk
  refine ⟨h.up, h.holds, h.queued, h.todo.sublist hsub, fun q s hq id hid => ?_,
    fun q s hq id hid => ?_, fun c hc => ?_, fun c hc => ?_⟩
  · exact h.apart q s hq id (hsub.mem hid)
  · exact DataNode.used_setCall (h.used q s hq id hid) hk hb
  · rcases List.mem_or_eq_of_mem_set hc with hc | rfl
    · exact h.small c hc
    · rw [hb]
      exact h.small a ha
  · rcases List.mem_or_eq_of_mem_set hc with hc | rfl
    · exact h.parts c hc
    · exact hparts

theorem Sound.create (h : Sound n) : Sound (n.setSink pid newSink) :=
  h.setSink ⟨_, Sink.holds_new _ _⟩ .nil
    (by simp [newSink, Sink.new, Sink.ids, Sink.queued, Stage.ids, Stage.blocks])
    (by simp [newSink, Sink.new, Sink.ids, Sink.queued, Stage.ids, Stage.blocks])

theorem Sound.assign (h : Sound n) {blocks : List Block} (looking : List Bytes)
    (stage : AssignStage) (hnd : (blocks.map Block.id).Nodup)
    (hfresh : ∀ b ∈ blocks, b.id ∉ n.used)
    (hsmall : ∀ b ∈ blocks, b.data.length ≤ defaultBlockSize) :
    Sound { n with calls := n.calls ++ [⟨blocks, looking, [], 0, [], stage⟩] } := by
  have hnew : ∀ id ∈ blocks.map Block.id, id ∉ n.used := fun id hid => by
    obtain ⟨b, hb, rfl⟩ := List.mem_map.mp hid
    exact hfresh b hb
  have htodo : DataNode.todo { n with calls := n.calls ++ [⟨blocks, looking, [], 0, [], stage⟩] }
      = n.todo ++ blocks.map Block.id := by
    simp [DataNode.todo, Assign.todo]
  refine ⟨h.up, h.holds, h.queued, ?_, fun q s hq id hid hs => ?_, fun q s hq id hid => ?_,
    fun c hc => ?_, fun c hc => ?_⟩
  · rw [htodo, List.nodup_append]
    refine ⟨h.todo, hnd, fun id hid id' hid' heq => ?_⟩
    subst heq
    exact hnew id hid' (n.todo_subset_used hid)
  · rw [htodo] at hid
    rcases List.mem_append.mp hid with hid | hid
    · exact h.apart q s hq id hid hs
    · exact hnew id hid (h.used q s hq id hs)
  · rw [DataNode.used, List.flatMap_append]
    exact List.mem_append_left _ (h.used q s hq id hid)
  · rcases List.mem_append.mp hc with hc | hc
    · exact h.small c hc
    · rw [List.mem_singleton.mp hc]
      exact hsmall
  · rcases List.mem_append.mp hc with hc | hc
    · exact h.parts c hc
    · rw [List.mem_singleton.mp hc]
      simp

theorem Assign.target_eq {b : Block} (h : a.target = some (b, pid)) :
    a.blocks[a.next]? = some b ∧ a.parts[a.next % a.parts.length]? = some pid := by
  unfold target at h
  split at h
  · rename_i hb hp
    obtain ⟨rfl, rfl⟩ := Prod.mk.inj (Option.some.inj h)
    exact ⟨hb, hp⟩
  · cases h

theorem Assign.todo_placed {b : Block} (h : a.target = some (b, pid)) :
    a.todo = b.id :: (a.placed b pid).todo := by
  obtain ⟨hb, -⟩ := target_eq h
  obtain ⟨hlt, hget⟩ := List.getElem?_eq_some_iff.mp hb
  rw [todo, List.drop_eq_getElem_cons hlt, hget]
  rfl

theorem Assign.target_todo {b : Block} (hk : n.calls[k]? = some a)
    (h : a.target = some (b, pid)) : b.id ∈ n.todo := by
  refine List.mem_flatMap.mpr ⟨a, List.mem_of_getElem? hk, ?_⟩
  rw [todo_placed h]
  exact List.mem_cons_self

theorem Sound.put (h : Sound n) {b : Block} {s s' : Sink} (hk : n.calls[k]? = some a)
    (ht : a.target = some (b, pid)) (hs : n.parts.lookup pid = some s)
    (hstep : s.step (.put b) = some s') :
    Sound ((n.setSink pid s').setCall k (a.placed b pid)) := by
  have ha := List.mem_of_getElem? hk
  have hb := List.mem_of_getElem? (Assign.target_eq ht).1
  have htodo := Assign.target_todo hk ht
  obtain ⟨hqueued, hstage⟩ := Sink.queued_put hstep
  have hids : ∀ id ∈ s'.ids, id ∈ s.ids ∨ id = b.id := by
    intro id hid
    rw [Sink.ids, hqueued, hstage] at hid
    simp only [List.mem_append, List.mem_singleton, Sink.ids] at hid ⊢
    tauto
  have hcall : Sound (n.setCall k (a.placed b pid)) :=
    h.setCall hk rfl (Nat.le_succ _) (h.parts a ha)
  refine hcall.setSink ?_ ?_ (fun id hid hs' => ?_) fun id hid => ?_
  · obtain ⟨m, hm⟩ := h.holds pid s hs
    have hplain : (Move.put b).Plain := h.small a ha b hb
    exact ⟨_, hm.step hplain hstep⟩
  · rw [hqueued, List.nodup_append]
    refine ⟨h.queued pid s hs, List.nodup_singleton _, fun id hid id' hid' heq => ?_⟩
    rw [List.mem_singleton.mp hid'] at heq
    exact h.apart pid s hs _ (heq ▸ htodo) (List.mem_append_left _ hid)
  · rcases hids id hs' with hs' | rfl
    · exact hcall.apart pid s hs id hid hs'
    · exact notMem_flatMap_set hk (Assign.todo_placed ht) h.todo hid
  · rcases hids id hid with hid | rfl
    · exact hcall.used pid s hs id hid
    · exact DataNode.used_setCall (DataNode.mem_used ha hb) hk rfl

theorem Sound.step (h : Sound n) (hplain : l.Plain) (hfresh : l.Fresh n)
    (hstep : n.step l = some n') : Sound n' := by
  cases nodeStepped hstep with
  | @part pid l s s' hput hs hsink =>
    obtain ⟨m, hm⟩ := h.holds pid s hs
    obtain ⟨hsub, hids⟩ := Sink.ids_step hm hput hsink
    exact h.setSink ⟨_, hm.step hplain hsink⟩ ((h.queued pid s hs).sublist hsub)
      (fun id hid hid' => h.apart pid s hs id hid (hids hid'))
      fun id hid => h.used pid s hs id (hids hid)
  | create => exact h.create
  | @assign order blocks stage => exact h.assign order stage hfresh.1 hfresh.2 hplain
  | @look k created a hk ha looking parts stage hparts =>
    exact h.setCall hk rfl le_rfl fun pid hpid =>
      (hparts pid hpid).elim (h.parts a (List.mem_of_getElem? hk) pid) id
  | lookCreate hk =>
    exact h.create.setCall hk rfl le_rfl fun q hq => by
      rw [List.mem_singleton.mp hq]
      exact (AList.mem_insert _).mpr (.inl rfl)
  | put hk ha ht hs hput => exact h.put hk ht hs hput
  | @wait k a _ _ _ hk | @finish k a hk =>
    exact h.setCall hk rfl le_rfl (h.parts a (List.mem_of_getElem? hk))
  | @expire k a hk =>
    exact h.setCall hk rfl (Nat.le_succ _) (h.parts a (List.mem_of_getElem? hk))

/-- What a step of the node does to the sink of a partition. -/
inductive Touched (n : DataNode) (l : NodeMove) (pid : Bytes) (s : Sink) : Sink → Prop
  | same : Touched n l pid s s
  | own {l' : Move} {s' : Sink} (hl : l = .part pid l') (hput : ∀ b, l' ≠ .put b)
    (hstep : s.step l' = some s') : Touched n l pid s s'
  | put {b : Block} {s' : Sink} (htodo : b.id ∈ n.todo)
    (hsmall : b.data.length ≤ defaultBlockSize) (hstep : s.step (.put b) = some s') :
    Touched n l pid s s'

theorem Sound.touched (h : Sound n) (hstep : n.step l = some n') {s : Sink}
    (hs : n.parts.lookup pid = some s) :
    ∃ s', n'.parts.lookup pid = some s' ∧ Touched n l pid s s' := by
  have hcreate : ∀ {q : Bytes}, q ∉ n.parts →
      (n.setSink q newSink).parts.lookup pid = some s := fun {q} hq => by
    refine (AList.lookup_insert_ne fun hpid => hq ?_).trans hs
    rw [← hpid, ← AList.lookup_isSome, hs]
    rfl
  cases nodeStepped hstep with
  | @part q l s₁ s' hput hs₁ hsink =>
    by_cases hq : pid = q
    · subst hq
      obtain rfl := Option.some.inj (hs.symm.trans hs₁)
      exact ⟨s', AList.lookup_insert _, .own rfl hput hsink⟩
    · exact ⟨s, (AList.lookup_insert_ne hq).trans hs, .same⟩
  | create hnew => exact ⟨s, hcreate hnew, .same⟩
  | lookCreate _ _ hnew => exact ⟨s, hcreate hnew, .same⟩
  | @put k a b q s₁ s' hk ha ht hs₁ hput =>
    by_cases hq : pid = q
    · subst hq
      obtain rfl := Option.some.inj (hs.symm.trans hs₁)
      have hb := List.mem_of_getElem? (Assign.target_eq ht).1
      exact ⟨s', AList.lookup_insert _, .put (Assign.target_todo hk ht)
        (h.small a (List.mem_of_getElem? hk) b hb) hput⟩
    · exact ⟨s, (AList.lookup_insert_ne hq).trans hs, .same⟩
  | assign | look | wait | expire | finish => exact ⟨s, hs, .same⟩

/-- What a step leaves to be put was so before, or is new. -/
theorem DataNode.todo_step (hfresh : l.Fresh n) (hstep : n.step l = some n') {id : Bytes}
    (hid : id ∈ n'.todo) : id ∈ n.todo ∨ id ∉ n.used := by
  cases nodeStepped hstep with
  | part | create => exact .inl hid
  | @assign order blocks stage =>
    rw [todo, List.flatMap_append] at hid
    refine (List.mem_append.mp hid).imp_right fun hid => ?_
    have hid : id ∈ blocks.map Block.id := by simpa [Assign.todo] using hid
    obtain ⟨b, hb, rfl⟩ := List.mem_map.mp hid
    exact hfresh.2 b hb
  | look hk | lookCreate hk | wait hk | finish hk => exact .inl (mem_todo hid hk rfl le_rfl)
  | put hk | expire hk => exact .inl (mem_todo hid hk rfl (Nat.le_succ _))

theorem DataNode.used_step (hstep : n.step l = some n') {id : Bytes} (hid : id ∈ n.used) :
    id ∈ n'.used := by
  cases nodeStepped hstep with
  | part | create => exact hid
  | assign =>
    rw [used, List.flatMap_append]
    exact List.mem_append_left _ hid
  | look hk | lookCreate hk | put hk | wait hk | expire hk | finish hk =>
    exact used_setCall hid hk rfl

theorem DataNode.calls_step (hk : n.calls[k]? = some a) (ha : a.stage = .done)
    (hstep : n.step l = some n') : n'.calls[k]? = some a := by
  have hset : ∀ {j : ℕ} {c c' : Assign}, n.calls[j]? = some c → c.stage ≠ .done →
      (n.calls.set j c')[k]? = some a := by
    intro j c c' hj hc
    refine (List.getElem?_set_ne fun hjk => hc ?_).trans hk
    subst hjk
    obtain rfl := Option.some.inj (hj.symm.trans hk)
    exact ha
  cases nodeStepped hstep with
  | part | create => exact hk
  | assign => exact (List.getElem?_append_left (List.getElem?_eq_some_iff.mp hk).1).trans hk
  | look hj hc | lookCreate hj hc => exact hset hj (by rw [hc]; decide)
  | put hj hc => exact hset hj (by rcases hc with hc | hc <;> rw [hc] <;> decide)
  | wait hj hc | expire hj hc | finish hj hc => exact hset hj (by rw [hc]; decide)

end Sound

end Rhosus.Data

import Rhosus.Cluster.Replication

/-!
# Concurrent writes on one registry

`writeEntry` reads the last index, sets it and writes the entry to the log under one lock each, and
nothing keeps another call out in between. Here each of these is a step of its own, and any number
of calls take them in any order. The steps of one call in turn are `writeEntry` (`writeEntry_run`).
The entries get the indexes one after the other as long as no call reads the last index while
another is on its way from reading it to the log (`concurrent_writes_numbered`).
-/

namespace Rhosus.Cluster

variable {ι σ : Type}

/-- How far a call of `writeEntry` is. -/
inductive Writing
  | called
  /-- It has found the registry running. -/
  | running
  | readIndex (lastLogIndex : ℕ)
  | readTerm (lastLogIndex currentTerm : ℕ)
  | setIndex (lastLogIndex : ℕ) (entry : Entry)
  | setTerm (lastLogIndex : ℕ) (entry : Entry)
  /-- The write to the log has failed, and the index is to be rolled back. -/
  | failed (lastLogIndex : ℕ) (e : Err)
  | logged (entry : Entry)
  | done (r : Except Err Unit)
  deriving DecidableEq

structure WriteCall where
  typ : EntryType
  data : Payload
  stage : Writing

/-- A registry, and the calls of `writeEntry` on it. -/
structure Writers (ι σ : Type) where
  node : Node ι σ
  calls : List WriteCall

inductive WriteLabel (ι : Type)
  | call (typ : EntryType) (data : Payload)
  /-- The call `c` goes on. -/
  | go (c : ℕ)
  /-- The call `c` makes its entry at the time `now`, and sets the last index. -/
  | setIndex (c : ℕ) (now : Int64)
  /-- The call `c` hands its entry to the pipeline. -/
  | handOver (c : ℕ) (timely : Bool) (order : List ι)

namespace Writers

def move (w : Writers ι σ) (c : ℕ) (call : WriteCall) (stage : Writing) (node : Node ι σ) :
    Writers ι σ := ⟨node, w.calls.set c { call with stage }⟩

variable (env : Env σ)

def go (w : Writers ι σ) (c : ℕ) (call : WriteCall) : Option (Writers ι σ) :=
  match call.stage with
  | .called =>
    some (w.move c call (if w.node.shutdown then .done (.error .shutdown) else .running) w.node)
  | .running => some (w.move c call (.readIndex w.node.lastLogIndex) w.node)
  | .readIndex lastLogIndex =>
    some (w.move c call (.readTerm lastLogIndex w.node.currentTerm) w.node)
  | .setIndex lastLogIndex entry =>
    some (w.move c call (.setTerm lastLogIndex entry) { w.node with lastLogTerm := entry.term })
  | .setTerm lastLogIndex entry =>
    match w.node.onWal (Wal.write env.lru entry.index entry.marshal) with
    | none => none
    | some (.error e, n) => some (w.move c call (.failed lastLogIndex (.wal e)) n)
    | some (.ok _, n) => some (w.move c call (.logged entry) n)
  | .failed lastLogIndex e => some (w.move c call (.done (.error e)) { w.node with lastLogIndex })
  | .readTerm .. | .logged _ | .done _ => none

def step [DecidableEq ι] : WriteLabel ι → Writers ι σ → Option (Writers ι σ)
  | .call typ data, w => some { w with calls := w.calls ++ [⟨typ, data, .called⟩] }
  | .go c, w =>
    match w.calls[c]? with
    | none => none
    | some call => w.go env c call
  | .setIndex c now, w =>
    match w.calls[c]? with
    | some ⟨typ, data, .readTerm lastLogIndex currentTerm⟩ =>
      let entry : Entry := ⟨(lastLogIndex + 1) % 2 ^ 64, currentTerm, typ.code, data, now.toInt⟩
      some (w.move c ⟨typ, data, .readTerm lastLogIndex currentTerm⟩ (.setIndex lastLogIndex entry)
        { w.node with lastLogIndex := entry.index })
    | _ => none
  | .handOver c timely order, w =>
    match w.calls[c]? with
    | some ⟨typ, data, .logged entry⟩ =>
      let (r, n) := Cluster.handOver entry timely order w.node
      some (w.move c ⟨typ, data, .logged entry⟩ (.done r) n)
    | _ => none

end Writers

section Alone

variable [DecidableEq ι] {env : Env σ} {n n' : Node ι σ}

/-- The steps of one call in turn do what `writeEntry` does. -/
theorem writeEntry_run {typ : EntryType} {data : Payload} {now : Int64} {timely : Bool}
    {order : List ι} {r : Except Err Unit}
    (h : writeEntry env typ data now timely order n = some (r, n')) :
    ∃ ls, runSteps (Writers.step env) ls ⟨n, [⟨typ, data, .called⟩]⟩
      = some ⟨n', [⟨typ, data, .done r⟩]⟩ := by
  unfold writeEntry at h
  split_ifs at h with hshut
  · obtain ⟨rfl, rfl⟩ := Prod.mk.inj (Option.some.inj h)
    exact ⟨[.go 0], by simp [runSteps, Writers.step, Writers.go, Writers.move, hshut]⟩
  · -- as far as the write to the log
    obtain ⟨ls, hread⟩ : ∃ ls, runSteps (Writers.step env) ls ⟨n, [⟨typ, data, .called⟩]⟩
        = some ⟨n.endWith (n.nextEntry typ data now),
          [⟨typ, data, .setTerm n.lastLogIndex (n.nextEntry typ data now)⟩]⟩ := by
      refine ⟨[.go 0, .go 0, .go 0, .setIndex 0 now, .go 0], ?_⟩
      simp only [runSteps, Writers.step, Writers.go, Writers.move, List.getElem?_cons_zero,
        List.set_cons_zero, if_neg hshut]
      rfl
    dsimp only at h
    rcases hw : (n.endWith (n.nextEntry typ data now)).onWal (Wal.write env.lru
      (n.nextEntry typ data now).index (n.nextEntry typ data now).marshal) with
        _ | ⟨e | _, n₁⟩ <;> rw [hw] at h
    · cases h
    · obtain ⟨rfl, rfl⟩ := Prod.mk.inj (Option.some.inj h)
      refine ⟨ls ++ [.go 0, .go 0], ?_⟩
      rw [runSteps_append, hread]
      simp only [Option.bind_some, runSteps, Writers.step, Writers.go, Writers.move, hw,
        List.getElem?_cons_zero, List.set_cons_zero]
    · have hover := Option.some.inj h
      refine ⟨ls ++ [.go 0, .handOver 0 timely order], ?_⟩
      rw [runSteps_append, hread]
      simp only [Option.bind_some, runSteps, Writers.step, Writers.go, Writers.move, hw, hover,
        List.getElem?_cons_zero, List.set_cons_zero]

/-- Between reading the last index and writing to the log. -/
def Writing.inside : Writing → Bool
  | .readIndex _ | .readTerm .. | .setIndex .. | .setTerm .. | .failed .. => true
  | .called | .running | .logged _ | .done _ => false

def Writing.recorded : Writing → Bool
  | .logged _ | .done _ => true
  | _ => false

/-- If this step reads the last index, then no call is on its way from reading it to the log, and
there is an index left. -/
def Alone (l : WriteLabel ι) (w : Writers ι σ) : Prop :=
  match l with
  | .go c => ∀ call ∈ w.calls[c]?, call.stage = .running →
      (∀ other ∈ w.calls, other.stage.inside = false) ∧ w.node.lastLogIndex + 1 < 2 ^ 64
  | _ => True

instance (l : WriteLabel ι) (w : Writers ι σ) : Decidable (Alone l w) := by
  unfold Alone
  split <;> infer_instance

/-- The registry's log has `k` records, whose entries have the indexes from 1 to `k` in turn, and
`k` is its last index. -/
def Node.Numbered (n : Node ι σ) (k : ℕ) : Prop :=
  ∃ recs ∈ n.records, recs.map (fun r => (Entry.unmarshal r).1.index) = List.range' 1 k
    ∧ n.lastLogIndex = k

/-- The registry runs and its log is `es`, but for its last index and term. -/
structure Node.Keeps (n : Node ι σ) (es : List Entry) : Prop where
  rep : Wal.Rep n.wal (logOf es)
  plan : n.wal.plan = []
  index : Consecutive 0 es
  wf : ∀ e ∈ es, e.Wf
  running : n.shutdown = false
  term : n.currentTerm < 2 ^ 32

omit [DecidableEq ι] in
theorem Node.Keeps.congr {es : List Entry} (h : n.Keeps es) (hwal : n'.wal = n.wal)
    (hrun : n'.shutdown = n.shutdown) (hterm : n'.currentTerm = n.currentTerm) : n'.Keeps es :=
  ⟨hwal ▸ h.rep, hwal ▸ h.plan, h.index, h.wf, hrun ▸ h.running, hterm ▸ h.term⟩

/-- What a call has read and made agrees with the log and the last index. -/
def Writing.Agrees (es : List Entry) (last : ℕ) : Writing → Prop
  | .readIndex i => i = es.length ∧ last = es.length ∧ last + 1 < 2 ^ 64
  | .readTerm i t => i = es.length ∧ last = es.length ∧ last + 1 < 2 ^ 64 ∧ t < 2 ^ 32
  | .setIndex _ e | .setTerm _ e => e.index = es.length + 1 ∧ e.Wf ∧ last = es.length + 1
  | .failed .. => False
  | .called | .running | .logged _ | .done _ => True

theorem Writing.agrees_of_outside {es : List Entry} {last : ℕ} :
    ∀ {stage : Writing}, stage.inside = false → stage.Agrees es last
  | .called, _ | .running, _ | .logged _, _ | .done _, _ => trivial

/-- What holds at every moment: one call at most is inside, and `k` records were in
the log before. -/
structure Writers.Orderly (w : Writers ι σ) (es : List Entry) (k : ℕ) : Prop where
  keeps : w.node.Keeps es
  one : ∀ {c c' : ℕ} {a b : WriteCall}, w.calls[c]? = some a → w.calls[c']? = some b →
    a.stage.inside = true → b.stage.inside = true → c = c'
  agrees : ∀ a ∈ w.calls, a.stage.Agrees es w.node.lastLogIndex
  idle : (∀ a ∈ w.calls, a.stage.inside = false) → w.node.lastLogIndex = es.length
  count : es.length = k + w.calls.countP (·.stage.recorded)

namespace Writers.Orderly

variable {w w' : Writers ι σ} {es es' : List Entry} {k c : ℕ} {a : WriteCall} {stage : Writing}

omit [DecidableEq ι] in
theorem countP_move (hc : w.calls[c]? = some a) (stage : Writing) (n : Node ι σ) :
    (w.move c a stage n).calls.countP (·.stage.recorded) + (if a.stage.recorded then 1 else 0)
      = w.calls.countP (·.stage.recorded) + if stage.recorded then 1 else 0 := by
  obtain ⟨hlt, hget⟩ := List.getElem?_eq_some_iff.mp hc
  have hpos : a.stage.recorded = true → 0 < w.calls.countP (·.stage.recorded) := fun hr =>
    List.countP_pos_iff.mpr ⟨a, List.mem_of_getElem? hc, hr⟩
  simp only [Writers.move, List.countP_set hlt, hget]
  by_cases hr : a.stage.recorded = true
  · have := hpos hr
    rw [if_pos hr]
    omega
  · rw [if_neg hr]
    omega

omit [DecidableEq ι] in
theorem move (h : w.Orderly es k) (hc : w.calls[c]? = some a)
    (hothers : ∀ c' b, c' ≠ c → w.calls[c']? = some b → b.stage.inside = false)
    (hkeeps : n.Keeps es') (hagrees : stage.Agrees es' n.lastLogIndex)
    (hidle : stage.inside = false → n.lastLogIndex = es'.length)
    (hcount : es'.length + (if a.stage.recorded then 1 else 0)
      = es.length + if stage.recorded then 1 else 0) :
    (w.move c a stage n).Orderly es' k := by
  have hlt := (List.getElem?_eq_some_iff.mp hc).1
  have hself : (w.calls.set c { a with stage })[c]? = some { a with stage } :=
    List.getElem?_set_self hlt
  have hinside : ∀ {c' : ℕ} {b : WriteCall}, (w.calls.set c { a with stage })[c']? = some b →
      b.stage.inside = true → c' = c := by
    intro c' b hb hin
    by_contra hne
    rw [List.getElem?_set_ne (Ne.symm hne)] at hb
    rw [hothers c' b hne hb] at hin
    cases hin
  refine ⟨hkeeps, fun hx hy hix hiy => (hinside hx hix).trans (hinside hy hiy).symm, fun b hb => ?_,
    fun hall => hidle (hall _ (List.mem_of_getElem? hself)), ?_⟩
  · obtain ⟨c', hb⟩ := List.mem_iff_getElem?.mp hb
    by_cases hne : c' = c
    · subst hne
      obtain rfl := Option.some.inj (hself.symm.trans hb)
      exact hagrees
    · rw [Writers.move, List.getElem?_set_ne (Ne.symm hne)] at hb
      exact Writing.agrees_of_outside (hothers c' b hne hb)
  · have := h.count
    have := countP_move hc stage n
    omega

omit [DecidableEq ι] in
theorem outside (h : w.Orderly es k) (hc : w.calls[c]? = some a) (hbefore : a.stage.inside = false)
    (hafter : stage.inside = false) (hrec : a.stage.recorded = stage.recorded) (hkeeps : n.Keeps es)
    (hlast : n.lastLogIndex = w.node.lastLogIndex) : (w.move c a stage n).Orderly es k := by
  have hlt := (List.getElem?_eq_some_iff.mp hc).1
  have hinside : ∀ {c' : ℕ} {b : WriteCall}, (w.calls.set c { a with stage })[c']? = some b →
      b.stage.inside = true → w.calls[c']? = some b := by
    intro c' b hb hin
    by_cases hne : c = c'
    · subst hne
      rw [List.getElem?_set_self hlt] at hb
      obtain rfl := Option.some.inj hb
      rw [hafter] at hin
      cases hin
    · rwa [List.getElem?_set_ne hne] at hb
  refine ⟨hkeeps, fun hx hy hix hiy => h.one (hinside hx hix) (hinside hy hiy) hix hiy,
    fun b hb => ?_, fun hall => ?_, ?_⟩
  · rw [Writers.move, hlast]
    rcases List.mem_or_eq_of_mem_set hb with hb | rfl
    · exact h.agrees b hb
    · exact Writing.agrees_of_outside hafter
  · rw [Writers.move, hlast]
    refine h.idle fun b hb => ?_
    obtain ⟨c', hb⟩ := List.mem_iff_getElem?.mp hb
    by_cases hne : c = c'
    · subst hne
      obtain rfl := Option.some.inj (hc.symm.trans hb)
      exact hbefore
    · exact hall b (List.mem_of_getElem? ((List.getElem?_set_ne hne).trans hb))
  · have := h.count
    have := countP_move hc stage n
    rw [hrec] at this
    omega

omit [DecidableEq ι] in
theorem call (h : w.Orderly es k) (typ : EntryType) (data : Payload) :
    Orderly { w with calls := w.calls ++ [⟨typ, data, .called⟩] } es k := by
  have hinside : ∀ {c : ℕ} {b : WriteCall},
      (w.calls ++ [⟨typ, data, .called⟩])[c]? = some b → b.stage.inside = true →
        w.calls[c]? = some b := by
    intro c b hb hin
    rcases lt_or_ge c w.calls.length with hlt | hge
    · rwa [List.getElem?_append_left hlt] at hb
    · rw [List.getElem?_append_right hge] at hb
      obtain rfl := List.mem_singleton.mp (List.mem_of_getElem? hb)
      cases hin
  refine ⟨h.keeps, fun hx hy hix hiy => h.one (hinside hx hix) (hinside hy hiy) hix hiy,
    fun b hb => ?_, fun hall => h.idle fun b hb => hall b (List.mem_append_left _ hb), ?_⟩
  · rcases List.mem_append.mp hb with hb | hb
    · exact h.agrees b hb
    · rw [List.mem_singleton.mp hb]
      trivial
  · simpa [Writing.recorded] using h.count

omit [DecidableEq ι] in
theorem others (h : w.Orderly es k) (hc : w.calls[c]? = some a) (hin : a.stage.inside = true)
    (c' : ℕ) (b : WriteCall) (hne : c' ≠ c) (hb : w.calls[c']? = some b) :
    b.stage.inside = false := by
  rw [Bool.eq_false_iff]
  exact fun hbin => hne (h.one hb hc hbin hin)

omit [DecidableEq ι] in
theorem go (hlru : env.lru.Lawful) (h : w.Orderly es k) (hc : w.calls[c]? = some a)
    (hl : a.stage = .running → (∀ other ∈ w.calls, other.stage.inside = false)
      ∧ w.node.lastLogIndex + 1 < 2 ^ 64) (hs : w.go env c a = some w') :
    ∃ es', w'.Orderly es' k := by
  have hagrees := h.agrees a (List.mem_of_getElem? hc)
  unfold Writers.go at hs
  rcases hst : a.stage with _ | _ | i | ⟨i, t⟩ | ⟨i, e⟩ | ⟨i, e⟩ | ⟨i, e⟩ | e | r <;>
    rw [hst] at hs hagrees <;> dsimp only at hs
  · -- called
    rw [h.keeps.running] at hs
    obtain rfl := Option.some.inj hs
    exact ⟨es, h.outside hc (by rw [hst]; rfl) rfl (by rw [hst]; rfl) h.keeps rfl⟩
  · -- running
    obtain rfl := Option.some.inj hs
    obtain ⟨hout, hb⟩ := hl hst
    have hlast := h.idle hout
    exact ⟨es, h.move hc (fun c' b _ hb => hout b (List.mem_of_getElem? hb)) h.keeps
      ⟨hlast, hlast, hb⟩ (fun hin => by cases hin) (by rw [hst]; rfl)⟩
  · -- readIndex
    obtain rfl := Option.some.inj hs
    obtain ⟨hi, hlast, hb⟩ := hagrees
    exact ⟨es, h.move hc (h.others hc (by rw [hst]; rfl)) h.keeps
      ⟨hi, hlast, hb, h.keeps.term⟩ (fun hin => by cases hin) (by rw [hst]; rfl)⟩
  · cases hs
  · -- setIndex
    obtain rfl := Option.some.inj hs
    exact ⟨es, h.move hc (h.others hc (by rw [hst]; rfl)) (h.keeps.congr rfl rfl rfl) hagrees
      (fun hin => by cases hin) (by rw [hst]; rfl)⟩
  · -- setTerm
    obtain ⟨hi, hwf, hlast⟩ := hagrees
    have hkeeps := h.keeps
    obtain ⟨wal, hw, hrep, hp⟩ := write_logOf hlru hkeeps.rep hkeeps.plan hi hwf
    rw [Node.onWal_ok hw] at hs
    obtain rfl := Option.some.inj hs
    refine ⟨es ++ [e], h.move hc (h.others hc (by rw [hst]; rfl)) ⟨hrep, hp, ?_, ?_,
      hkeeps.running, hkeeps.term⟩ trivial (fun _ => ?_) (by rw [hst]; simp [Writing.recorded])⟩
    · exact consecutive_append.mpr ⟨hkeeps.index, by simp [Consecutive, hi]⟩
    · intro e' he'
      rcases List.mem_append.mp he' with he' | he'
      · exact hkeeps.wf e' he'
      · exact List.mem_singleton.mp he' ▸ hwf
    · simpa using hlast
  · exact hagrees.elim
  · cases hs
  · cases hs

theorem step (hlru : env.lru.Lawful) (h : w.Orderly es k) {l : WriteLabel ι} (hl : Alone l w)
    (hs : Writers.step env l w = some w') : ∃ es', w'.Orderly es' k := by
  cases l with
  | call typ data =>
    obtain rfl := Option.some.inj hs
    exact ⟨es, h.call typ data⟩
  | go c =>
    rw [Writers.step] at hs
    rcases hc : w.calls[c]? with _ | a <;> rw [hc] at hs
    · cases hs
    · exact h.go hlru hc (hl a hc) hs
  | setIndex c now =>
    rw [Writers.step] at hs
    split at hs
    · rename_i typ data i t hc
      obtain rfl := Option.some.inj hs
      obtain ⟨rfl, hlast, hb, ht⟩ : i = es.length ∧ _ := h.agrees _ (List.mem_of_getElem? hc)
      have hindex : (es.length + 1) % 2 ^ 64 = es.length + 1 := Nat.mod_eq_of_lt (hlast ▸ hb)
      refine ⟨es, h.move hc (h.others hc rfl)
        (h.keeps.congr rfl rfl rfl)
        ⟨hindex, ⟨Nat.mod_lt _ (by norm_num), ht, ?_, data.2, Int64.le_toInt now,
          Int64.toInt_lt now⟩, hindex⟩ (fun hin => by cases hin) rfl⟩
      cases typ <;> norm_num [EntryType.code]
    · cases hs
  | handOver c timely order =>
    rw [Writers.step] at hs
    split at hs
    · rename_i typ data e hc
      obtain ⟨peers, pipeline, hn⟩ := handOver_eq e timely order w.node
      rcases hover : handOver e timely order w.node with ⟨r, n⟩
      rw [hover] at hs hn
      obtain rfl := Option.some.inj hs
      rw [show n = _ from hn]
      exact ⟨es, h.outside hc rfl rfl rfl (h.keeps.congr rfl rfl rfl) rfl⟩
    · cases hs

omit [DecidableEq ι] in
/-- With no call inside, the log is numbered. -/
theorem numbered (h : w.Orderly es k) (hidle : ∀ a ∈ w.calls, a.stage.inside = false) :
    w.node.Numbered (k + w.calls.countP (·.stage.recorded)) := by
  have hindex : ∀ {i : ℕ} {es : List Entry}, Consecutive i es → (∀ e ∈ es, e.Wf) →
      (es.map Entry.marshal).map (fun r => (Entry.unmarshal r).1.index)
        = List.range' (i + 1) es.length := by
    intro i es
    induction es generalizing i with
    | nil => exact fun _ _ => rfl
    | cons e es ih =>
      intro hc hwf
      rw [List.map_cons, List.map_cons, Entry.unmarshal_marshal (hwf e List.mem_cons_self), hc.1,
        ih hc.2 fun e' he' => hwf e' (List.mem_cons_of_mem _ he'), List.length_cons,
        List.range'_succ]
  refine ⟨_, h.keeps.rep.diskRecords, ?_, by rw [h.idle hidle, h.count]⟩
  rw [← h.count]
  exact hindex h.keeps.index h.keeps.wf

end Writers.Orderly

/-- Calls of `writeEntry` on a registry whose log has the entries `es`, in any number and in any
order of their steps: if no call reads the last index while another is on its way from reading it to
the log, then, once none is, the entries of the calls are in the log after those before, their
indexes are consecutive, and the last of them is the last index. -/
theorem concurrent_writes_numbered (hlru : env.lru.Lawful) {es : List Entry} (h : n.Logs es)
    (hrun : n.shutdown = false) (hterm : n.currentTerm < 2 ^ 32) (ls : List (WriteLabel ι))
    {w : Writers ι σ} (hls : Along (Writers.step env) Alone ls ⟨n, []⟩)
    (hw : runSteps (Writers.step env) ls ⟨n, []⟩ = some w)
    (hidle : ∀ a ∈ w.calls, a.stage.inside = false) :
    w.node.Numbered (es.length + w.calls.countP (·.stage.recorded)) := by
  have hinit : Writers.Orderly ⟨n, []⟩ es es.length :=
    ⟨⟨h.rep, h.plan, h.index, h.wf, hrun, hterm⟩, by simp, by simp, fun _ => h.lastLogIndex, rfl⟩
  have hstep : ∀ l (w w' : Writers ι σ), (∃ es', w.Orderly es' es.length) → Alone l w →
      Writers.step env l w = some w' → ∃ es', w'.Orderly es' es.length := by
    rintro l w w' ⟨es', hes'⟩ hl hs
    exact hes'.step hlru hl hs
  obtain ⟨es', hes'⟩ := Along.invariant hstep ls ⟨es, hinit⟩ hls hw
  exact hes'.numbered hidle

end Alone

section Two

def oneCall : WriteLabel (Fin 2) := .call .assignFile Payload.empty

/-- The second call reads the last index when the first has written its entry, and hands its own
over before the first does. -/
def inTurn : List (WriteLabel (Fin 2)) :=
  [oneCall, oneCall, .go 0, .go 0, .go 0, .setIndex 0 0, .go 0, .go 1, .go 0,
    .go 1, .go 1, .setIndex 1 0, .go 1, .go 1, .handOver 1 true [1], .handOver 0 true [1]]

/-- Both calls read the last index before either sets it. -/
def overlapping : List (WriteLabel (Fin 2)) :=
  [oneCall, oneCall, .go 0, .go 0, .go 1, .go 1, .go 0, .setIndex 0 0, .go 0, .go 0,
    .handOver 0 true [1], .go 1, .setIndex 1 0, .go 1, .go 1, .handOver 1 true [1]]

def idleNode : Writers (Fin 2) Unit := ⟨.new 0 freshWal (), []⟩

theorem concurrent_writes_numbered_inTurn : ∃ w,
    runSteps (Writers.step plain) inTurn idleNode = some w ∧ w.node.Numbered 2 := by
  obtain ⟨w, hrun⟩ : ∃ w, runSteps (Writers.step plain) inTurn idleNode = some w :=
    Option.isSome_iff_exists.mp (by decide +kernel)
  have hend : (runSteps (Writers.step plain) inTurn idleNode).map
      (fun w => (w.calls.all fun a => !a.stage.inside, w.calls.countP (·.stage.recorded)))
        = some (true, 2) := by decide +kernel
  rw [hrun, Option.map_some, Option.some.injEq, Prod.mk.injEq] at hend
  have hlru : plain.lru.Lawful := lruSet_lawful
  have hnum := concurrent_writes_numbered hlru (logs_new 0 ()) rfl (by decide) inTurn
    (by decide +kernel) hrun (by simpa using hend.1)
  rw [hend.2] at hnum
  exact ⟨w, hrun, hnum⟩

/-- Both entries are in the log with the index 1, which is the last index. -/
theorem concurrent_writes_overlapping : ∃ w recs,
    runSteps (Writers.step plain) overlapping idleNode = some w
      ∧ w.node.records = some recs
      ∧ recs.map (fun r => (Entry.unmarshal r).1.index) = [1, 1]
      ∧ w.node.lastLogIndex = 1 ∧ ∀ k, ¬ w.node.Numbered k := by
  obtain ⟨w, hrun⟩ : ∃ w, runSteps (Writers.step plain) overlapping idleNode = some w :=
    Option.isSome_iff_exists.mp (by decide +kernel)
  have hend : (runSteps (Writers.step plain) overlapping idleNode).map
      (fun w => (w.node.records.map fun recs => recs.map fun r => (Entry.unmarshal r).1.index,
        w.node.lastLogIndex)) = some (some [1, 1], 1) := by decide +kernel
  rw [hrun, Option.map_some, Option.some.injEq, Prod.mk.injEq] at hend
  obtain ⟨recs, hrecs, hindex⟩ := Option.map_eq_some_iff.mp hend.1
  refine ⟨w, recs, hrun, hrecs, hindex, hend.2, fun k hk => ?_⟩
  obtain ⟨recs', hrecs', hnum, hlast⟩ := hk
  obtain rfl := Option.some.inj (hrecs.symm.trans hrecs')
  rw [hindex, ← hlast, hend.2] at hnum
  cases hnum

end Two

end Rhosus.Cluster

import Rhosus.Cluster.Node

/-!
# The buffer of a peer

`WritePipeline` puts batches into the buffer of each peer, and `dispatchEntries` takes out what is
there. Whatever batches come, and however often the buffer is read in between, an entry that is
appended is handed over once and in its turn, and what is handed over at a time is in order
(`buffer_handsOver`). An entry is judged by the last one in the buffer, which is the one that the
batch itself has brought last, and none at all after a `Read`.
-/

namespace Rhosus.Cluster

section Calls

inductive BufferCall
  | writeBatch (entries : List Entry)
  | read

/-- The buffer, and what has come of the calls on it. -/
structure BufferHistory where
  buffer : List Entry
  /-- The entries that were appended, in this order. -/
  appended : List Entry
  /-- What each `Read` has returned. -/
  reads : List (List Entry)

namespace BufferHistory

def new : BufferHistory := ⟨[], [], []⟩

def append (h : BufferHistory) (e : Entry) : BufferHistory :=
  { h with buffer := h.buffer ++ [e], appended := h.appended ++ [e] }

/-- `WriteBatch`, which leaves a trace of each entry that it appends. -/
def writeBatch : BufferHistory → List Entry → Except Err Unit × BufferHistory
  | h, [] => (.ok (), h)
  | h, e :: es =>
    match h.buffer.getLast? with
    | none => (h.append e).writeBatch es
    | some last =>
      if e.index ≤ last.index then (.error .corrupt, h)
      else if e.term < last.term then h.writeBatch es
      else (h.append e).writeBatch es

def read (h : BufferHistory) : BufferHistory :=
  { h with buffer := [], reads := h.reads ++ [h.buffer] }

def exec : BufferHistory → BufferCall → BufferHistory
  | h, .writeBatch entries => (h.writeBatch entries).2
  | h, .read => h.read

/-- After some calls on a new buffer. -/
def after (calls : List BufferCall) : BufferHistory := calls.foldl exec new

end BufferHistory

/-- Each entry has a greater index than those before it, and no lesser term. -/
def Ascending (es : List Entry) : Prop :=
  es.Pairwise fun e e' => e.index < e'.index ∧ e.term ≤ e'.term

/-- An entry of the batch comes to be judged that is not above the last one of the buffer then. -/
def Refused (b batch : List Entry) : Prop :=
  ∃ before e after last, batch = before ++ e :: after ∧ (writeBatch b before).1 = .ok ()
    ∧ (writeBatch b before).2.getLast? = some last ∧ e.index ≤ last.index

end Calls

section Batches

variable {b es : List Entry}

theorem Ascending.le_getLast (h : Ascending b) {last : Entry} (hlast : b.getLast? = some last) :
    ∀ e ∈ b, e.index ≤ last.index ∧ e.term ≤ last.term := by
  obtain ⟨before, rfl⟩ := List.getLast?_eq_some_iff.mp hlast
  intro e he
  simp only [List.mem_append, List.mem_singleton] at he
  rcases he with he | rfl
  · have := (List.pairwise_append.mp h).2.2 e he last (by simp)
    exact ⟨this.1.le, this.2⟩
  · exact ⟨le_rfl, le_rfl⟩

theorem Ascending.concat (h : Ascending b) {e : Entry}
    (hlast : ∀ last ∈ b.getLast?, last.index < e.index ∧ last.term ≤ e.term) :
    Ascending (b ++ [e]) := by
  refine List.pairwise_append.mpr ⟨h, by simp, fun e' he' e'' he'' => ?_⟩
  obtain rfl := List.mem_singleton.mp he''
  rcases hb : b.getLast? with _ | last
  · simp [List.getLast?_eq_none_iff.mp hb] at he'
  · have hle := h.le_getLast hb e' he'
    have hlt := hlast last hb
    exact ⟨hle.1.trans_lt hlt.1, hle.2.trans hlt.2⟩

theorem Ascending.writeBatch : ∀ {es b : List Entry}, Ascending b → Ascending (writeBatch b es).2
  | [], b, h => h
  | e :: es, b, h => by
    rw [Cluster.writeBatch]
    rcases hb : b.getLast? with _ | last
    · exact Ascending.writeBatch (h.concat (by simp [hb]))
    · simp only
      split_ifs with hindex hterm
      · exact h
      · exact Ascending.writeBatch h
      · refine Ascending.writeBatch (h.concat fun last' hlast' => ?_)
        obtain rfl := Option.some.inj (hb.symm.trans hlast')
        exact ⟨not_le.mp hindex, not_lt.mp hterm⟩

theorem writeBatch_append : ∀ (es es' b : List Entry), writeBatch b (es ++ es')
    = match writeBatch b es with
      | (.ok _, b') => writeBatch b' es'
      | res => res
  | [], es', b => rfl
  | e :: es, es', b => by
    rw [List.cons_append, writeBatch, writeBatch]
    rcases b.getLast? with _ | last
    · exact writeBatch_append es es' _
    · simp only
      split_ifs
      · rfl
      · exact writeBatch_append es es' _
      · exact writeBatch_append es es' _

theorem writeBatch_cases (b es : List Entry) :
    (writeBatch b es).1 = .ok () ∨ (writeBatch b es).1 = .error .corrupt := by
  fun_induction writeBatch b es <;> simp_all

theorem writeBatch_of_refused (h : Refused b es) : (writeBatch b es).1 = .error .corrupt := by
  obtain ⟨before, e, after, last, rfl, hok, hlast, hindex⟩ := h
  rw [writeBatch_append]
  rcases hb : writeBatch b before with ⟨_ | _, b'⟩ <;> simp only [hb] at hok hlast
  · cases hok
  · simp [writeBatch, hlast, hindex]

theorem Refused.cons {e : Entry} {b' : List Entry} (h : Refused b' es)
    (hstep : writeBatch b [e] = (.ok (), b')) : Refused b (e :: es) := by
  obtain ⟨before, e', after, last, rfl, hok, hlast, hindex⟩ := h
  have hbefore : writeBatch b (e :: before) = writeBatch b' before := by
    rw [← List.singleton_append, writeBatch_append, hstep]
  exact ⟨e :: before, e', after, last, rfl, by rwa [hbefore], by rwa [hbefore], hindex⟩

theorem refused_of_error : ∀ {es b : List Entry}, (writeBatch b es).1 = .error .corrupt →
    Refused b es
  | [], b, h => by cases h
  | e :: es, b, h => by
    rw [writeBatch] at h
    rcases hb : b.getLast? with _ | last <;> simp only [hb] at h
    · exact (refused_of_error h).cons (by simp [writeBatch, hb])
    · split_ifs at h with hindex hterm
      · exact ⟨[], e, es, last, rfl, rfl, hb, hindex⟩
      · exact (refused_of_error h).cons (by simp [writeBatch, hb, hindex, hterm])
      · exact (refused_of_error h).cons (by simp [writeBatch, hb, hindex, hterm])

end Batches

section Histories

variable {h : BufferHistory}

namespace BufferHistory

/-- The traces leave the call as it is, and it appends the same to both. -/
theorem writeBatch_spec : ∀ (es : List Entry) (h : BufferHistory), ∃ es',
    (Cluster.writeBatch h.buffer es).2 = h.buffer ++ es'
      ∧ h.writeBatch es = ((Cluster.writeBatch h.buffer es).1,
        { h with buffer := h.buffer ++ es', appended := h.appended ++ es' })
  | [], h => ⟨[], by simp [writeBatch, Cluster.writeBatch]⟩
  | e :: es, h => by
    have happend : ∃ es', (Cluster.writeBatch (h.buffer ++ [e]) es).2 = h.buffer ++ es'
        ∧ (h.append e).writeBatch es = ((Cluster.writeBatch (h.buffer ++ [e]) es).1,
          { h with buffer := h.buffer ++ es', appended := h.appended ++ es' }) := by
      obtain ⟨es', hbuffer, hres⟩ := writeBatch_spec es (h.append e)
      exact ⟨e :: es', by simpa [append] using hbuffer, by simpa [append] using hres⟩
    rw [writeBatch, Cluster.writeBatch]
    rcases h.buffer.getLast? with _ | last
    · exact happend
    · simp only
      split_ifs
      · exact ⟨[], by simp⟩
      · exact writeBatch_spec es h
      · exact happend

/-- What was appended is what was read, and then what is there. -/
structure Kept (h : BufferHistory) : Prop where
  appended : h.appended = h.reads.flatten ++ h.buffer
  reads : ∀ r ∈ h.reads, Ascending r
  buffer : Ascending h.buffer

theorem kept_new : new.Kept := ⟨rfl, by simp [new], .nil⟩

theorem Kept.writeBatch (hk : h.Kept) (es : List Entry) : (h.writeBatch es).2.Kept := by
  obtain ⟨es', hbuffer, hres⟩ := writeBatch_spec es h
  rw [hres]
  refine ⟨by simp [hk.appended], hk.reads, ?_⟩
  simp only
  rw [← hbuffer]
  exact hk.buffer.writeBatch

theorem Kept.read (hk : h.Kept) : h.read.Kept := by
  refine ⟨by simp [BufferHistory.read, hk.appended], fun r hr => ?_, .nil⟩
  simp only [BufferHistory.read, List.mem_append, List.mem_singleton] at hr
  rcases hr with hr | rfl
  · exact hk.reads r hr
  · exact hk.buffer

theorem Kept.exec (hk : h.Kept) (call : BufferCall) : (h.exec call).Kept := by
  cases call with
  | writeBatch entries => exact hk.writeBatch entries
  | read => exact hk.read

theorem Kept.run : ∀ (calls : List BufferCall) {h : BufferHistory}, h.Kept →
    (calls.foldl BufferHistory.exec h).Kept
  | [], _, hk => hk
  | call :: calls, _, hk => Kept.run calls (hk.exec call)

end BufferHistory

end Histories

/-- Whatever calls have been made on a buffer: the entries appended so far are those that were read,
in this order, and then those still there; what each `Read` has returned is in order; and
`WriteBatch` returns `ErrCorrupt` if one of the entries is not above the last one of the buffer
when its turn comes, and no error if none is. -/
theorem buffer_handsOver (calls : List BufferCall) :
    (BufferHistory.after calls).appended
        = (BufferHistory.after calls).reads.flatten ++ (BufferHistory.after calls).buffer
      ∧ (∀ r ∈ (BufferHistory.after calls).reads, Ascending r)
      ∧ ∀ batch, let b := (BufferHistory.after calls).buffer
        ((writeBatch b batch).1 = .error .corrupt ↔ Refused b batch)
          ∧ ((writeBatch b batch).1 = .ok () ↔ ¬ Refused b batch) := by
  have hkept : (BufferHistory.after calls).Kept := BufferHistory.kept_new.run calls
  refine ⟨hkept.appended, hkept.reads, fun batch => ⟨⟨refused_of_error, writeBatch_of_refused⟩, ?_⟩⟩
  refine ⟨fun hok href => ?_, fun hnot => ?_⟩
  · cases hok.symm.trans (writeBatch_of_refused href)
  · exact (writeBatch_cases _ batch).resolve_right fun herr => hnot (refused_of_error herr)

/-- The second entry is of a lower term and skipped, and the third is refused and the fourth not
looked at; after the `Read` a lesser index will do. -/
example : (BufferHistory.after [.writeBatch [⟨3, 2, 0, [], 0⟩, ⟨4, 1, 0, [], 0⟩, ⟨3, 2, 0, [], 0⟩,
    ⟨9, 9, 0, [], 0⟩], .read, .writeBatch [⟨1, 1, 0, [], 0⟩]]).reads = [[⟨3, 2, 0, [], 0⟩]] := by
  decide

end Rhosus.Cluster

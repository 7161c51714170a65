import Rhosus.Wal.Writes

/-!
# Recovering the log

A truncation cut short leaves a directory in one of two shapes: a `.START` file with plain files
before it that are still to go, or an `.END` file with plain files after it, and perhaps the plain
file it is to replace. `Recov d cs` says that `d` has such a shape and that the log to recover from
it has the chunks `cs`. Opening the log recovers it, and wherever opening is itself cut short the
same log is still to be recovered (`create_spec`).
-/

namespace Rhosus.Wal

section Shapes

/-- The order in which the directory lists the files. -/
def Before (a b : FileName × Bytes) : Prop :=
  a.1.index < b.1.index ∨ a.1.index = b.1.index ∧ a.1.rank < b.1.rank

def plainFiles (os : List (ℕ × Bytes)) : List (FileName × Bytes) := os.map fun o => (.seg o.1, o.2)

theorem exists_plainFiles {os : List (ℕ × Bytes)} {fs : List (FileName × Bytes)}
    (h : fs.Sublist (plainFiles os)) : ∃ os', fs = plainFiles os' := by
  obtain ⟨os', -, rfl⟩ := List.sublist_map_iff.mp h
  exact ⟨os', rfl⟩

theorem segFiles_eq_plainFiles (cs : List Chunk) :
    segFiles cs = plainFiles (cs.map fun c => (c.index, encode c.recs)) := by
  simp [segFiles, plainFiles, segFile]

/-- The files of a directory in order, and the chunks of the log to recover from them. -/
inductive Shape : List (FileName × Bytes) → List Chunk → Prop
  | fresh : Shape [] [⟨1, []⟩]
  | clean (cs : List Chunk) : Shape (segFiles cs) cs
  | front (old : List (ℕ × Bytes)) (c : Chunk) (rest : List Chunk) :
    Shape (plainFiles old ++ (.start c.index, encode c.recs) :: segFiles rest) (c :: rest)
  | back (init : List Chunk) (c : Chunk) (dup later : List (ℕ × Bytes))
    (hdup : ∀ o ∈ dup, o.1 = c.index) :
    Shape (segFiles init ++ (plainFiles dup ++ (.fin c.index, encode c.recs) :: plainFiles later))
      (init ++ [c])

/-- The files stand in order, under names the loader reads back. -/
structure Listed (fs : List (FileName × Bytes)) : Prop where
  sorted : fs.Pairwise Before
  own : ∀ f ∈ fs, f.1 ≠ .temp
  pos : ∀ f ∈ fs, f.1.index ≠ 0
  bound : ∀ f ∈ fs, f.1.index < 2 ^ 64

theorem Listed.sublist {fs gs : List (FileName × Bytes)} (h : Listed fs) (hs : gs.Sublist fs) :
    Listed gs :=
  ⟨h.sorted.sublist hs, fun f hf => h.own f (hs.subset hf), fun f hf => h.pos f (hs.subset hf),
    fun f hf => h.bound f (hs.subset hf)⟩

theorem Listed.congr {fs gs : List (FileName × Bytes)} (h : Listed fs)
    (he : gs.map Prod.fst = fs.map Prod.fst) : Listed gs := by
  have hmem : ∀ g ∈ gs, ∃ f ∈ fs, f.1 = g.1 := fun g hg =>
    List.mem_map.mp (he ▸ List.mem_map_of_mem hg)
  have hsorted : ∀ {as : List (FileName × Bytes)}, as.Pairwise Before
      ↔ (as.map Prod.fst).Pairwise fun a b => Before (a, []) (b, []) := by
    intro as
    rw [List.pairwise_map]
    rfl
  refine ⟨?_, fun g hg => ?_, fun g hg => ?_, fun g hg => ?_⟩
  · rw [hsorted, he]
    exact hsorted.mp h.sorted
  all_goals
    obtain ⟨f, hf, hfg⟩ := hmem g hg
    rw [← hfg]
  · exact h.own f hf
  · exact h.pos f hf
  · exact h.bound f hf

/-- The log with the chunks `cs` can be recovered from `d`. -/
def Recov (d : Dir Name) (cs : List Chunk) : Prop :=
  ∃ fs, Holds d fs ∧ Listed fs ∧ Shape fs cs

theorem Listed.name_lt {fs : List (FileName × Bytes)} (h : Listed fs) :
    (fs.map (·.1.name)).Pairwise (· < ·) := by
  rw [List.pairwise_map]
  refine h.sorted.imp_of_mem fun {a b} ha hb hab => ?_
  exact FileName.name_lt (h.own a ha) (h.own b hb) ((h.bound b hb).trans (by norm_num)) hab

theorem Listed.nodup {fs : List (FileName × Bytes)} (h : Listed fs) :
    (fs.map Prod.fst).Nodup := by
  have hn : ((fs.map Prod.fst).map FileName.name).Nodup := by
    rw [List.map_map]
    exact h.name_lt.imp ne_of_lt
  exact hn.of_map

end Shapes

section Finish

theorem Holds.finish_front {d : Dir Name} {n : ℕ} {b : Bytes} {rest : List Chunk}
    (hd : Holds d ((.start n, b) :: segFiles rest)) (hne : ∀ r ∈ rest, r.index ≠ n) :
    Holds ((d.erase (startName n)).insert (segmentName n) b) ((.seg n, b) :: segFiles rest) := by
  refine hd.rename (f := .start n) (g := .seg n) (b := b) fun x => ?_
  have hseg : x ∈ segFiles rest → x.1 ≠ .seg n := segFiles_ne hne
  have hown : x ∈ segFiles rest → x.1 ≠ .start n := fun hx he => by
    simpa [he, FileName.rank] using segFiles_own hx
  have hst : x = (.start n, b) → x.1 = .start n := fun hx => by rw [hx]
  rw [List.mem_cons, List.mem_cons]
  grind

/-- The `.END` file takes its place, and that of the file with its index if there is one. -/
theorem Holds.finish_back {d : Dir Name} {n : ℕ} {b : Bytes} {init : List Chunk}
    (hlt : ∀ a ∈ init, a.index < n) (dup : List (ℕ × Bytes)) (hdup : ∀ o ∈ dup, o.1 = n)
    (hd : Holds d (segFiles init ++ (plainFiles dup ++ [(.fin n, b)]))) :
    Holds ((d.erase (endName n)).insert (segmentName n) b) (segFiles init ++ [(.seg n, b)]) := by
  refine hd.rename (f := .fin n) (g := .seg n) (b := b) fun x => ?_
  have hown : x ∈ segFiles init → x.1 ≠ .fin n := fun hx he => by
    simpa [he, FileName.rank] using segFiles_own hx
  have hinit : x ∈ segFiles init → x.1 ≠ .seg n := segFiles_ne fun a ha => (hlt a ha).ne
  have hdup' : x ∈ plainFiles dup → x.1 = .seg n := fun hx => by
    obtain ⟨o, ho, rfl⟩ := List.mem_map.mp hx
    rw [hdup o ho]
  have hfin : x = (.fin n, b) → x.1 = .fin n := fun hx => by rw [hx]
  simp only [List.mem_append, List.mem_singleton]
  grind

end Finish

section Scan

theorem scanStep_temp (s : Scan) : scanStep s tempName = s := by
  have h : scanName tempName = none := by decide
  simp only [scanStep, h]

theorem foldl_scanStep_filter (names : List Name) (s : Scan) :
    names.foldl scanStep s = (names.filter (· ≠ tempName)).foldl scanStep s := by
  induction names generalizing s with
  | nil => rfl
  | cons n names ih =>
    by_cases hn : n = tempName
    · subst hn
      simp [scanStep_temp, ih]
    · simp [hn, ih]

/-- The directory's listing, but for the temporary file, is the files in order. -/
theorem Holds.listing {d : Dir Name} {fs : List (FileName × Bytes)} (h : Holds d fs)
    (hl : Listed fs) :
    (d.keys.insertionSort (· ≤ ·)).filter (· ≠ tempName) = fs.map (·.1.name) := by
  have hmem : ∀ n, n ∈ (d.keys.insertionSort (· ≤ ·)).filter (· ≠ tempName)
      ↔ n ∈ fs.map (·.1.name) := by
    intro n
    simp only [List.mem_filter, List.mem_insertionSort, List.mem_map, decide_eq_true_eq]
    constructor
    · rintro ⟨hn, hne⟩
      obtain ⟨f, b, hfb, rfl⟩ := (h.only n hn).resolve_left hne
      exact ⟨(f, b), hfb, rfl⟩
    · rintro ⟨⟨f, b⟩, hfb, rfl⟩
      refine ⟨?_, fun hn => hl.own (f, b) hfb (FileName.name_injective hn)⟩
      rw [← AList.mem_keys, ← AList.lookup_isSome, h.has f b hfb]
      rfl
  have hnd : ((d.keys.insertionSort (· ≤ ·)).filter (· ≠ tempName)).Nodup :=
    ((List.perm_insertionSort _ _).nodup_iff.mpr d.keys_nodup).filter _
  have hperm := (List.perm_ext_iff_of_nodup hnd (hl.name_lt.imp ne_of_lt)).mpr hmem
  refine hperm.eq_of_pairwise (fun a b _ _ h1 h2 => le_antisymm h1 h2) ?_ (hl.name_lt.imp le_of_lt)
  exact (List.pairwise_insertionSort (· ≤ ·) _).filter _

/-- What the loader records of a file. -/
def found (f : FileName × Bytes) : ℕ × Name := (f.1.index, f.1.name)

theorem scanStep_file {f : FileName × Bytes} (h : Listed [f]) (s : Scan) :
    scanStep s f.1.name = ⟨s.found ++ [found f],
      if f.1.rank = 2 then some s.found.length else s.startIdx,
      if f.1.rank = 1 ∧ s.endIdx = none then some s.found.length else s.endIdx⟩ := by
  have hown := h.own f (by simp)
  have hscan : scanName f.1.name = f.1.scanned :=
    FileName.scanName_name (fun _ => h.pos f (by simp)) (h.bound f (by simp))
  obtain ⟨f, b⟩ := f
  cases f with
  | seg i => simp [scanStep, hscan, found, FileName.scanned, FileName.index, FileName.rank]
  | start i => simp [scanStep, hscan, found, FileName.scanned, FileName.index, FileName.rank]
  | fin i => simp [scanStep, hscan, found, FileName.scanned, FileName.index, FileName.rank]
  | temp => exact absurd rfl hown

theorem Listed.single {fs : List (FileName × Bytes)} (h : Listed fs) {f : FileName × Bytes}
    (hf : f ∈ fs) : Listed [f] := h.sublist (List.singleton_sublist.mpr hf)

theorem foldl_scanStep_plain {fs : List (FileName × Bytes)} (h : Listed fs)
    (hseg : ∀ f ∈ fs, f.1.rank = 0) (s : Scan) :
    (fs.map (·.1.name)).foldl scanStep s = { s with found := s.found ++ fs.map found } := by
  induction fs generalizing s with
  | nil => simp
  | cons f fs ih =>
    have hf := hseg f List.mem_cons_self
    rw [List.map_cons, List.foldl_cons, scanStep_file (h.single List.mem_cons_self),
      ih (h.sublist (List.sublist_cons_self _ _)) (fun g hg => hseg g (List.mem_cons_of_mem _ hg))]
    simp [hf]

theorem plainFiles_own {os : List (ℕ × Bytes)} {f : FileName × Bytes} (hf : f ∈ plainFiles os) :
    f.1.rank = 0 := by
  obtain ⟨o, -, rfl⟩ := List.mem_map.mp hf
  rfl

/-- What the loader makes of plain files around one with a suffix. -/
theorem scan_one {as bs : List (FileName × Bytes)} {f : FileName × Bytes}
    (h : Listed (as ++ f :: bs)) (ha : ∀ g ∈ as, g.1.rank = 0) (hb : ∀ g ∈ bs, g.1.rank = 0) :
    scanDir ((as ++ f :: bs).map (·.1.name)) = ⟨(as ++ f :: bs).map found,
      if f.1.rank = 2 then some as.length else none,
      if f.1.rank = 1 then some as.length else none⟩ := by
  have h1 : Listed as := h.sublist (List.sublist_append_left _ _)
  have h2 : Listed bs :=
    h.sublist ((List.sublist_cons_self _ _).trans (List.sublist_append_right _ _))
  have hf : Listed [f] := h.single (by simp)
  rw [scanDir, List.map_append, List.foldl_append, foldl_scanStep_plain h1 ha, List.map_cons,
    List.foldl_cons, scanStep_file hf, foldl_scanStep_plain h2 hb]
  simp

end Scan

section Raw

theorem forall₂_split {α β : Type} {R : α → β → Prop} {l : List α} {as bs : List β} {f : β}
    (h : List.Forall₂ R l (as ++ f :: bs)) : ∃ ps p qs, l = ps ++ p :: qs
      ∧ List.Forall₂ R ps as ∧ R p f ∧ List.Forall₂ R qs bs := by
  have h1 := List.forall₂_take as.length h
  have h2 := List.forall₂_drop as.length h
  rw [List.take_left] at h1
  rw [List.drop_left] at h2
  rcases hd : l.drop as.length with _ | ⟨p, qs⟩ <;> rw [hd] at h2 <;> cases h2
  rename_i hp hqs
  exact ⟨l.take as.length, p, qs, by rw [← hd, List.take_append_drop], h1, hp, hqs⟩

/-- The object the loader makes for a file. -/
def IsNew (w : WAL) (p : Ptr) (f : FileName × Bytes) : Prop :=
  w.heap p = ⟨f.1.name, f.1.index, [], []⟩

/-- The segment objects are those of the files `fs`, with nothing loaded and nothing cached. -/
structure Raw (w : WAL) (fs : List (FileName × Bytes)) : Prop where
  rel : List.Forall₂ (IsNew w) w.segments fs
  nodup : w.segments.Nodup
  fresh : ∀ p ∈ w.segments, p < w.next
  scache : w.scache = []
  corrupt : w.corrupt = false
  closed : w.closed = false

namespace Raw

variable {w : WAL} {fs gs : List (FileName × Bytes)}

theorem rel_store {ps : List Ptr} (h : List.Forall₂ (IsNew w) ps fs) {p : Ptr} (hp : p ∉ ps)
    {w' : WAL} {s : Segment} (hw : w'.heap = Function.update w.heap p s) :
    List.Forall₂ (IsNew w') ps fs := by
  have hne : ∀ q ∈ ps, q ≠ p := fun q hq he => hp (he ▸ hq)
  refine ((List.forall₂_and_left _ _).mpr ⟨hne, h⟩).imp fun q f hqf => ?_
  rw [IsNew, hw, Function.update_of_ne hqf.1]
  exact hqf.2

theorem alloc (h : Raw w gs) (f : FileName × Bytes) : Raw
    { w with
      heap := Function.update w.heap w.next ⟨f.1.name, f.1.index, [], []⟩
      next := w.next + 1
      segments := w.segments ++ [w.next] } (gs ++ [f]) := by
  have hnew : w.next ∉ w.segments := fun hm => lt_irrefl _ (h.fresh _ hm)
  refine ⟨?_, ?_, ?_, h.scache, h.corrupt, h.closed⟩
  · refine List.rel_append (rel_store h.rel hnew rfl) (.cons ?_ .nil)
    exact Function.update_self ..
  · exact List.nodup_append.mpr ⟨h.nodup, List.nodup_singleton _, fun p hp q hq he =>
      hnew (List.mem_singleton.mp hq ▸ he ▸ hp)⟩
  · intro p hp
    rcases List.mem_append.mp hp with hp | hp
    · exact Nat.lt_succ_of_lt (h.fresh p hp)
    · rw [List.mem_singleton.mp hp]
      exact Nat.lt_succ_self _

theorem allocAll (h : Raw w gs) (fs : List (FileName × Bytes)) :
    Raw (allocAll (fs.map found) w) (gs ++ fs) := by
  induction fs generalizing w gs with
  | nil => simpa [Wal.allocAll] using h
  | cons f fs ih =>
    have := ih (h.alloc f)
    rw [List.append_assoc] at this
    exact this

theorem sublist (h : Raw w fs) {ps : List Ptr} (hs : ps.Sublist w.segments)
    (hrel : List.Forall₂ (IsNew w) ps gs) : Raw { w with segments := ps } gs :=
  ⟨hrel, h.nodup.sublist hs, fun p hp => h.fresh p (hs.subset hp), h.scache, h.corrupt, h.closed⟩

theorem drop (h : Raw w fs) (n : ℕ) : Raw { w with segments := w.segments.drop n } (fs.drop n) :=
  h.sublist (List.drop_sublist _ _) (List.forall₂_drop n h.rel)

theorem paths {ps : List Ptr} (h : List.Forall₂ (IsNew w) ps fs) :
    List.Forall₂ (fun p o => (w.heap p).path = o.1.name) ps fs :=
  h.imp fun p f hpf => by rw [hpf]

theorem rename {qs : List Ptr} {p : Ptr} {bs : List (FileName × Bytes)} {f : FileName × Bytes}
    (ps : List Ptr) (as : List (FileName × Bytes)) (g : FileName × Bytes)
    (h : Raw w (as ++ f :: bs)) (hw : w.segments = ps ++ p :: qs)
    (ha : List.Forall₂ (IsNew w) ps as) (hp : IsNew w p f) (hb : List.Forall₂ (IsNew w) qs bs)
    (hi : g.1.index = f.1.index) :
    Raw (w.store p { w.heap p with path := g.1.name }) (as ++ g :: bs) := by
  have hnd := h.nodup
  rw [hw, List.nodup_append] at hnd
  have hps : p ∉ ps := fun hm => hnd.2.2 p hm p List.mem_cons_self rfl
  have hqs : p ∉ qs := (List.nodup_cons.mp hnd.2.1).1
  refine ⟨?_, h.nodup, h.fresh, h.scache, h.corrupt, h.closed⟩
  change List.Forall₂ _ w.segments _
  rw [hw]
  refine List.rel_append (rel_store ha hps rfl) (.cons ?_ (rel_store hb hqs rfl))
  change Function.update w.heap p _ p = _
  rw [Function.update_self, hp, hi]

theorem segs {cs : List Chunk} (h : Raw w (segFiles cs)) : Segs w cs cs.length := by
  have hlen : w.segments.length = cs.length := by
    rw [h.rel.length_eq]
    simp [segFiles]
  refine ⟨hlen, h.nodup, h.fresh, fun k p c hp hc => ?_, by simp [h.scache], by simp [h.scache]⟩
  obtain ⟨hk, rfl⟩ := List.getElem?_eq_some_iff.mp hp
  obtain ⟨hk', rfl⟩ := List.getElem?_eq_some_iff.mp hc
  have := h.rel.get hk (by simpa [segFiles] using hk')
  simp only [List.get_eq_getElem, segFiles, List.getElem_map] at this
  rw [this]
  exact ⟨rfl, rfl, .inr ⟨by omega, rfl, rfl⟩⟩

theorem tidy (h : Raw w fs) {q : Ptr} (hq : w.segments.getLast? = some q) (s : Segment) :
    Tidy (w.store q s) := by
  intro k p hp hk hload
  change w.segments[k]? = some p at hp
  change k + 1 < w.segments.length at hk
  have hpq : p ≠ q := by
    rintro rfl
    rw [List.getLast?_eq_getElem?] at hq
    have := (List.getElem?_inj (List.getElem?_eq_some_iff.mp hp).1 h.nodup).mp (hp.trans hq.symm)
    omega
  refine absurd ?_ hload
  obtain ⟨hk', rfl⟩ := List.getElem?_eq_some_iff.mp hp
  have hnew := h.rel.get hk' (by rw [← h.rel.length_eq]; exact hk')
  change (Function.update w.heap q s _).epos = []
  rw [Function.update_of_ne hpq]
  exact congrArg Segment.epos hnew

end Raw

end Raw

section Clean

variable {W : World Name WAL} {first : ℕ} {cs : List Chunk}
variable {Q : Except Err Unit → World Name WAL → Prop} {C : Dir Name → Prop}

theorem removeAll_trace (rest : List (FileName × Bytes)) :
    ∀ {ps : List Ptr} {os : List (FileName × Bytes)} {W : World Name WAL},
      List.Forall₂ (fun p o => (W.mem.heap p).path = o.1.name) ps os → Holds W.dir (os ++ rest) →
      ((os ++ rest).map Prod.fst).Nodup →
      ∃ qs d, Trace (Prog.each removeSegment ps) W qs (.ok ()) ⟨W.mem, d, W.plan⟩ ∧ Holds d rest
        ∧ qs.length = os.length ∧ ∀ {j : ℕ} {pt : Point Name WAL}, qs[j]? = some pt →
          pt = .clean W.mem pt.dir ∧ Holds pt.dir (os.drop j ++ rest)
  | [], _, W, .nil, hd, _ => ⟨[], W.dir, .pure, hd, rfl, by simp⟩
  | p :: ps, o :: os, W, .cons hp hps, hd, hnd => by
    rw [List.cons_append, List.map_cons, List.nodup_cons] at hnd
    have hgone : Holds (W.dir.erase o.1.name) (os ++ rest) := by
      refine hd.erase fun x => ?_
      rw [List.cons_append, List.mem_cons]
      refine ⟨fun hx => ⟨.inr hx, fun he => hnd.1 (he ▸ List.mem_map_of_mem hx)⟩, ?_⟩
      rintro ⟨rfl | hx, hne⟩
      · exact absurd rfl hne
      · exact hx
    have hrm : Trace (removeSegment p) W [.clean W.mem W.dir] (.ok ())
        ⟨W.mem, W.dir.erase o.1.name, W.plan⟩ :=
      .getMem (.fileOp (by rw [hp, hd.has o.1 o.2 (by simp)]; rfl))
    obtain ⟨qs, d, htr, hend, hlen, hpts⟩ :=
      removeAll_trace rest (W := ⟨W.mem, W.dir.erase o.1.name, W.plan⟩) hps hgone hnd.2
    refine ⟨_, d, .bind_one hrm htr, hend, by simp [hlen], fun {j pt} hj => ?_⟩
    cases j with
    | zero =>
      cases hj
      exact ⟨rfl, hd⟩
    | succ j => exact hpts hj

theorem removeAll_ends {ps : List Ptr} {os : List (FileName × Bytes)}
    (rest : List (FileName × Bytes)) (hplan : NoFail W.plan)
    (hpath : List.Forall₂ (fun p o => (W.mem.heap p).path = o.1.name) ps os)
    (hd : Holds W.dir (os ++ rest)) (hnd : ((os ++ rest).map Prod.fst).Nodup)
    (hC : ∀ d os', os' <:+ os → Holds d (os' ++ rest) → C d)
    (hQ : ∀ d pl, Holds d rest → NoFail pl → Q (.ok ()) ⟨W.mem, d, pl⟩) :
    Ends (Prog.each removeSegment ps) W Q C := by
  obtain ⟨qs, d, htr, hend, -, hpts⟩ := removeAll_trace rest hpath hd hnd
  refine htr.ends (r := .ok ()) hplan (fun pt hpt => ?_) fun pl hpl => hQ d pl hend hpl
  obtain ⟨j, hj⟩ := List.getElem?_of_mem hpt
  exact hC _ _ (List.drop_suffix j os) (hpts hj).2

theorem unsuffix_ends {p : Ptr} {n : ℕ} {suffix : Name} {b : Bytes} (hplan : NoFail W.plan)
    (hpath : (W.mem.heap p).path = segmentName n ++ suffix)
    (hfile : W.dir.lookup (segmentName n ++ suffix) = some b)
    (hC : C W.dir)
    (hQ : ∀ pl, NoFail pl → Q (.ok ()) ⟨W.mem.store p { W.mem.heap p with path := segmentName n },
      (W.dir.erase (segmentName n ++ suffix)).insert (segmentName n) b, pl⟩) :
    Ends (unsuffix p suffix) W Q C := by
  have hfinal : (segmentName n ++ suffix).take ((segmentName n ++ suffix).length - suffix.length)
      = segmentName n := by
    rw [List.length_append, Nat.add_sub_cancel, List.take_left]
  refine .bind (.getMem ?_)
  simp only [hpath, hfinal]
  exact .bind (.fileOp hplan (by rw [hfile]; rfl) hC fun pl hpl => .modifyMem (hQ pl hpl))

theorem openTail_trace {n : Name} {b : Bytes} (hfile : W.dir.lookup n = some b) :
    Trace (openTail n) W [.clean { W.mem with sfile := none } W.dir,
      .clean { W.mem with sfile := some n } W.dir] (.ok b.length)
      ⟨{ W.mem with sfile := some n }, W.dir, W.plan⟩ :=
  .modifyMem (.bind_one (.fileOp (by rw [hfile]; rfl)) (.modifyMem (.bind_one .touch .pure)))

theorem openTail_ends {Q : Except Err ℕ → World Name WAL → Prop} {n : Name} {b : Bytes}
    (hplan : NoFail W.plan) (hfile : W.dir.lookup n = some b) (hC : C W.dir)
    (hQ : ∀ pl, NoFail pl → Q (.ok b.length) ⟨{ W.mem with sfile := some n }, W.dir, pl⟩) :
    Ends (openTail n) W Q C := by
  refine (openTail_trace hfile).ends (r := .ok b.length) hplan ?_ hQ
  simpa [Point.clean] using hC

theorem openLog_spec (hl : Layout first cs) (hraw : Raw W.mem (segFiles cs))
    (hd : Holds W.dir (segFiles cs)) (hplan : NoFail W.plan) :
    Ends openLog W (fun r W' => r = .ok () ∧ Good W' first cs ∧ Tidy W'.mem) (· = W.dir) := by
  have hlen : 0 < cs.length := List.length_pos_iff.mpr hl.ne
  have hsegs := hraw.segs
  obtain ⟨t, ht, hstop⟩ := hl.getLast
  obtain ⟨q, hq, hq'⟩ := getLast?_segments hsegs hl.ne
  obtain ⟨p, hp⟩ := hsegs.ptr (List.getElem?_eq_getElem hlen)
  have hfirst : (W.mem.heap p).index = first := by
    rw [(hsegs.seg 0 p _ hp (List.getElem?_eq_getElem hlen)).index,
      hl.index_eq (List.getElem?_eq_getElem hlen)]
    simp
  have htail := hsegs.seg _ q t hq' ht
  have hfile : W.dir.lookup (segmentName t.index) = some (encode t.recs) :=
    hd.has (.seg t.index) _ (List.mem_map_of_mem (List.mem_of_getElem? ht))
  have hpos := hl.pos
  have hle := hl.first_le ht
  rw [← List.head?_eq_getElem?] at hp
  refine .bind (.getMem (.bind (.orPanic hp (.bind (.orPanic hq (.bind (.modifyMem ?_)))))))
  simp only [htail.path]
  refine .bind (openTail_ends hplan hfile rfl fun pl hpl => ?_)
  refine .bind (loadSegmentEntries_ends hpl ?_ (hl.fits_at ht) rfl
    fun pl hpl => .modifyMem ⟨rfl, ?_, hraw.tidy hq _⟩)
  · rw [← htail.path] at hfile
    exact hfile
  · refine ⟨hl, ⟨?_, hraw.corrupt, hraw.closed, hfirst, ?_, ?_⟩, hd, hpl⟩
    · have hload := hsegs.store hq' ht (s := { W.mem.heap q with
        ebuf := encode t.recs
        epos := positions t.recs }) ⟨htail.path, htail.index, .inl ⟨rfl, rfl⟩⟩
      have hlast : Segs (W.mem.store q { W.mem.heap q with
          ebuf := encode t.recs
          epos := positions t.recs }) cs (cs.length - 1) := by
        refine hload.sharpen (fun k p' c hk hp' hc => ?_) (by simp [WAL.store, hraw.scache])
        obtain rfl : k = cs.length - 1 := by
          have := (List.getElem?_eq_some_iff.mp hc).1
          omega
        obtain rfl : p' = q := Option.some.inj (hp'.symm.trans hq')
        obtain rfl : c = t := Option.some.inj (hc.symm.trans ht)
        simp [WAL.store, Loaded]
      exact ⟨hlast.length, hlast.nodup, hlast.fresh, hlast.seg, hlast.cached, hlast.keys⟩
    · simp only [WAL.store, Function.update_self, length_positions, htail.index]
      omega
    · intro t' ht'
      rw [Option.some.inj (ht'.symm.trans ht)]
      rfl

theorem Layout.listed (hl : Layout first cs) (hb : ∀ c ∈ cs, c.index < 2 ^ 64) :
    Listed (segFiles cs) := by
  have hpos := hl.pos
  refine ⟨?_, List.forall_mem_map.mpr fun c _ => by simp [segFile],
    List.forall_mem_map.mpr fun c hc => ?_, List.forall_mem_map.mpr hb⟩
  · rw [List.pairwise_iff_getElem]
    intro k k' hk hk' hlt
    simp only [segFiles, List.length_map] at hk hk'
    have := hl.index_lt (List.getElem?_eq_getElem hk) (List.getElem?_eq_getElem hk') hlt
    simp only [segFiles, List.getElem_map]
    exact .inl this
  · obtain ⟨k, hk⟩ := List.getElem?_of_mem hc
    have := hl.first_le hk
    change c.index ≠ 0
    omega

theorem cleanStart_spec {old : List (ℕ × Bytes)} {c : Chunk} {rest : List Chunk}
    (hraw : Raw W.mem (plainFiles old ++ (.start c.index, encode c.recs) :: segFiles rest))
    (hd : Holds W.dir (plainFiles old ++ (.start c.index, encode c.recs) :: segFiles rest))
    (hlist : Listed (plainFiles old ++ (.start c.index, encode c.recs) :: segFiles rest))
    (hplan : NoFail W.plan) :
    Ends (cleanStart old.length) W (fun r W' => r = .ok () ∧ Raw W'.mem (segFiles (c :: rest))
      ∧ Holds W'.dir (segFiles (c :: rest)) ∧ NoFail W'.plan) (Recov · (c :: rest)) := by
  have hlen : (plainFiles old).length = old.length := by simp [plainFiles]
  have hlt : ∀ r ∈ rest, r.index ≠ c.index := by
    intro r hr he
    have hb := List.rel_of_pairwise_cons (List.pairwise_append.mp hlist.sorted).2.1
      (List.mem_map_of_mem hr)
    simp [Before, segFile, FileName.index, FileName.rank, he] at hb
  obtain ⟨ps, p, qs, hsegs, hps, hp, hqs⟩ := forall₂_split hraw.rel
  have hpslen : ps.length = old.length := by rw [hps.length_eq, hlen]
  refine .bind (.getMem ?_)
  dsimp only
  rw [hsegs, ← hpslen, List.take_left]
  refine .bind (removeAll_ends _ hplan (Raw.paths hps) hd hlist.nodup ?_ fun d pl hd hpl => ?_)
  · intro d os' hsuf hd'
    refine ⟨_, hd', hlist.sublist (hsuf.sublist.append_right _), ?_⟩
    obtain ⟨os, rfl⟩ := exists_plainFiles hsuf.sublist
    exact .front os c rest
  · refine .bind (.modifyMem (.bind (.getMem ?_)))
    have hraw' := hraw.drop ps.length
    have hdrop : W.mem.segments.drop ps.length = p :: qs := by rw [hsegs, List.drop_left]
    rw [hps.length_eq, List.drop_left] at hraw'
    rw [hps.length_eq] at hdrop ⊢
    have hfile := hd.has (.start c.index) _ List.mem_cons_self
    refine .bind (.orPanic (by simp only [hdrop]; rfl)
      (unsuffix_ends hpl ?_ hfile ?_ fun pl hpl => ?_))
    · exact congrArg Segment.path hp
    · exact ⟨_, hd, hlist.sublist (List.sublist_append_right _ _), .front [] c rest⟩
    · refine ⟨rfl, hraw'.rename [] [] (segFile c) hdrop .nil hp hqs rfl, ?_, hpl⟩
      exact hd.finish_front hlt

/-- The end of `cleanEnd`: the `.END` file takes its place, over the one it replaces. -/
theorem finishEnd_ends {init : List Chunk} {c : Chunk} {dup : List (ℕ × Bytes)} {w : WAL}
    {fs : List (FileName × Bytes)} {ps : List Ptr} {p : Ptr} {d : Dir Name} {pl : List Fault}
    (hl : Layout first (init ++ [c])) (hdup : ∀ o ∈ dup, o.1 = c.index) (hraw : Raw w fs)
    (hps : List.Forall₂ (IsNew w) ps (segFiles init))
    (hp : IsNew w p (.fin c.index, encode c.recs)) (hsub : (ps ++ [p]).Sublist w.segments)
    (hd : Holds d (segFiles init ++ (plainFiles dup ++ [(.fin c.index, encode c.recs)])))
    (hlist : Listed (segFiles init ++ (plainFiles dup ++ [(.fin c.index, encode c.recs)])))
    (hpl : NoFail pl) :
    Ends (unsuffix p endSuffix) ⟨{ w with segments := ps ++ [p] }, d, pl⟩ (fun r W' => r = .ok ()
      ∧ Raw W'.mem (segFiles (init ++ [c])) ∧ Holds W'.dir (segFiles (init ++ [c]))
      ∧ NoFail W'.plan) (Recov · (init ++ [c])) := by
  have hraw' : Raw { w with segments := ps ++ [p] }
      (segFiles init ++ [(.fin c.index, encode c.recs)]) :=
    hraw.sublist hsub (List.rel_append hps (.cons hp .nil))
  have hfile := hd.has (.fin c.index) (encode c.recs) (by simp)
  refine unsuffix_ends hpl (congrArg Segment.path hp) hfile ?_ fun pl hpl => ?_
  · exact ⟨_, hd, hlist, .back init c dup [] hdup⟩
  · refine ⟨rfl, segFiles_append .. ▸ hraw'.rename ps _ (segFile c) rfl hps hp .nil rfl, ?_, hpl⟩
    rw [segFiles_append]
    exact Holds.finish_back (fun a ha => hl.index_lt_tail ha) dup hdup hd

theorem cleanEnd_spec {init : List Chunk} {c : Chunk} {dup later : List (ℕ × Bytes)}
    (hl : Layout first (init ++ [c])) (hdup : ∀ o ∈ dup, o.1 = c.index)
    (hraw : Raw W.mem (segFiles init ++ (plainFiles dup ++ (.fin c.index, encode c.recs)
      :: plainFiles later)))
    (hd : Holds W.dir (segFiles init ++ (plainFiles dup ++ (.fin c.index, encode c.recs)
      :: plainFiles later)))
    (hlist : Listed (segFiles init ++ (plainFiles dup ++ (.fin c.index, encode c.recs)
      :: plainFiles later)))
    (hplan : NoFail W.plan) :
    Ends (cleanEnd (init.length + dup.length)) W (fun r W' => r = .ok ()
      ∧ Raw W'.mem (segFiles (init ++ [c])) ∧ Holds W'.dir (segFiles (init ++ [c]))
      ∧ NoFail W'.plan) (Recov · (init ++ [c])) := by
  rw [← List.append_assoc] at hraw
  obtain ⟨ps, p, qs, hsegs, hps, hp, hqs⟩ := forall₂_split hraw.rel
  have hpslen : ps.length = init.length + dup.length := by
    rw [hps.length_eq]
    simp [segFiles, plainFiles]
  refine .bind (.getMem ?_)
  dsimp only
  rw [hsegs, ← hpslen, List.drop_append, List.drop_of_length_le (by omega)]
  simp only [Nat.add_sub_cancel_left, List.drop_succ_cons, List.drop_zero, List.nil_append]
  obtain ⟨rest, hrest⟩ : ∃ rest, rest = segFiles init
      ++ (plainFiles dup ++ [(FileName.fin c.index, encode c.recs)]) := ⟨_, rfl⟩
  have hsplit : ∀ os : List (ℕ × Bytes), segFiles init ++ (plainFiles dup
      ++ (.fin c.index, encode c.recs) :: plainFiles os) = rest ++ plainFiles os := by
    simp [hrest]
  refine .bind (removeAll_ends rest hplan (List.rel_reverse (Raw.paths hqs)) ?_ ?_ ?_
    fun d pl hd hpl => ?_)
  · refine hd.congr fun x => ?_
    rw [hsplit, List.mem_append, List.mem_append, List.mem_reverse, or_comm (a := x ∈ rest)]
  · rw [hsplit] at hlist
    refine (List.Perm.nodup_iff (List.Perm.map _ ?_)).mp hlist.nodup
    exact List.perm_append_comm.trans ((List.reverse_perm _).symm.append_right _)
  · intro d os' hsuf hd'
    have hpre : os'.reverse <+: plainFiles later := by
      rw [← List.reverse_suffix, List.reverse_reverse]
      exact hsuf
    obtain ⟨os, hos⟩ := exists_plainFiles hpre.sublist
    refine ⟨_, hd'.congr fun x => ?_, hlist.sublist ?_, .back init c dup os hdup⟩
    · rw [hsplit, ← hos, List.mem_append, List.mem_append, List.mem_reverse, or_comm]
    · rw [hsplit, hsplit, ← hos]
      exact hpre.sublist.append_left _
  · have hclean : ∀ ps', List.Forall₂ (IsNew W.mem) ps' (segFiles init) → ps'.Sublist ps →
        Ends (unsuffix p endSuffix) ⟨{ W.mem with segments := ps' ++ [p] }, d, pl⟩
          (fun r W' => r = .ok () ∧ Raw W'.mem (segFiles (init ++ [c]))
            ∧ Holds W'.dir (segFiles (init ++ [c])) ∧ NoFail W'.plan) (Recov · (init ++ [c])) := by
      intro ps' hps' hsub
      refine finishEnd_ends hl hdup hraw hps' hp ?_ (hrest ▸ hd) (hrest ▸ hlist.sublist ?_) hpl
      · rw [hsegs]
        exact hsub.append (List.singleton_sublist.mpr List.mem_cons_self)
      · rw [hsplit]
        exact List.sublist_append_left _ _
    have htake : W.mem.segments.take (ps.length + 1) = ps ++ [p] := by
      rw [hsegs, List.take_append, List.take_of_length_le (by omega), Nat.add_sub_cancel_left,
        List.take_succ_cons, List.take_zero]
    refine .bind (.modifyMem (.bind (.getMem (.bind (.orPanic (a := p) ?_ ?_)))))
    · change (W.mem.segments.take (ps.length + 1))[ps.length]? = some p
      rw [htake, List.getElem?_concat_length]
    · dsimp only
      rw [htake]
      have hpi : (W.mem.heap p).index = c.index := congrArg Segment.index hp
      rcases dup with _ | ⟨o, _ | ⟨o', dup⟩⟩
      · -- the file before the `.END` one is of an earlier chunk
        rw [plainFiles, List.map_nil, List.append_nil] at hps
        rw [if_neg ?_]
        · exact hclean ps hps (List.Sublist.refl ps)
        · rintro ⟨hpos, hi⟩
          rcases List.eq_nil_or_concat' init with rfl | ⟨init', a, rfl⟩
          · rw [hps.length_eq] at hpos
            simp at hpos
          · rw [segFiles_append] at hps
            obtain ⟨ps', q, qs', rfl, -, hq, hqs'⟩ := forall₂_split hps
            cases hqs'
            have hget : ((ps' ++ [q]) ++ [p]).getD ((ps' ++ [q]).length - 1) 0 = q := by simp
            rw [hget, hpi, show (W.mem.heap q).index = a.index from congrArg Segment.index hq] at hi
            exact (hl.index_lt_tail (List.mem_append_right _ (List.mem_singleton_self a))).ne hi
      · -- the file before it is the one to be replaced
        obtain ⟨ps', q, qs', rfl, hps', hq, hqs'⟩ := forall₂_split hps
        cases hqs'
        have hget : ((ps' ++ [q]) ++ [p]).getD ((ps' ++ [q]).length - 1) 0 = q := by simp
        have hqi : (W.mem.heap q).index = c.index :=
          (congrArg Segment.index hq).trans (hdup o (by simp))
        rw [if_pos ⟨by simp, by rw [hget, hpi, hqi]⟩]
        refine .bind (.modifyMem ?_)
        have hpre : ((ps' ++ [q]) ++ [p]).take ((ps' ++ [q]).length - 1) = ps' := by simp
        simp only [hpre]
        exact hclean ps' hps' (List.sublist_append_left _ _)
      · have hb := (List.pairwise_append.mp (List.pairwise_append.mp hlist.sorted).2.1).1
        have := List.rel_of_pairwise_cons hb List.mem_cons_self
        simp [Before, FileName.index, FileName.rank, hdup o (by simp), hdup o' (by simp)] at this

theorem Shape.bound {fs : List (FileName × Bytes)} (h : Shape fs cs) (hlist : Listed fs) :
    ∀ c ∈ cs, c.index < 2 ^ 64 := by
  have hseg : ∀ {gs : List Chunk}, segFiles gs ⊆ fs → ∀ c ∈ gs, c.index < 2 ^ 64 :=
    fun hs c hc => hlist.bound (segFile c) (hs (List.mem_map_of_mem hc))
  cases h with
  | fresh =>
    intro c hc
    rw [List.mem_singleton.mp hc]
    norm_num
  | clean => exact hseg fun x hx => hx
  | front old c rest =>
    intro c' hc'
    rcases List.mem_cons.mp hc' with rfl | hc'
    · exact hlist.bound (.start c'.index, encode c'.recs) (by simp)
    · exact hseg (fun x hx => by simp [hx]) c' hc'
  | back init c dup later =>
    intro c' hc'
    rcases List.mem_append.mp hc' with hc' | hc'
    · exact hseg (fun x hx => List.mem_append_left _ hx) c' hc'
    · obtain rfl := List.mem_singleton.mp hc'
      exact hlist.bound (.fin c'.index, encode c'.recs) (by simp)

theorem raw_new (opts : Options) : Raw (WAL.new opts) [] :=
  ⟨.nil, List.nodup_nil, by simp [WAL.new], rfl, rfl, rfl⟩

theorem createSegment_fresh {opts : Options} (hl : Layout first [⟨1, []⟩]) (hd : Holds W.dir [])
    (hplan : NoFail W.plan)
    (hmem : W.mem = { WAL.new opts with firstIndex := 1, lastIndex := 0 }) :
    Ends (createSegment 1) W (fun r W' => r = .ok () ∧ Good W' first [⟨1, []⟩] ∧ Tidy W'.mem)
      (· = W.dir) := by
  obtain rfl : 1 = first := hl.follows.1
  refine createSegment_ends hplan rfl fun pl hpl => ⟨rfl, ⟨hl, ?_, ?_, hpl⟩, ?_⟩
  · have hs : Segs W.mem [] 0 := by
      rw [hmem]
      exact ⟨rfl, List.nodup_nil, by simp [WAL.new], by simp, by simp [WAL.new], List.nodup_nil⟩
    have := hs.grow 1
    rw [hmem] at this ⊢
    exact ⟨this, rfl, rfl, rfl, rfl, by simp [WAL.grow]⟩
  · exact hd.insert (f := .seg 1) (b := []) fun x => by simp [segFile]
  · refine fun k p _ hk => absurd hk ?_
    rw [hmem]
    simp [WAL.grow, WAL.new]

/-- What `load` does with what it has found in the directory. -/
def loadScanned (s : Scan) : WalM Unit :=
  match s.found, s.startIdx, s.endIdx with
  | [], _, _ => do
    Prog.modifyMem fun w => { w with firstIndex := 1, lastIndex := 0 }
    createSegment 1
  | _, some _, some _ => Prog.throw .corrupt
  | _, some i, none => do
    cleanStart i
    openLog
  | _, none, some i => do
    cleanEnd i
    openLog
  | _, none, none => openLog

theorem load_ends {opts : Options} {fs : List (FileName × Bytes)} {s : Scan}
    (hd : Holds W.dir fs) (hlist : Listed fs) (hplan : NoFail W.plan) (hmem : W.mem = WAL.new opts)
    (hs : scanDir (fs.map (·.1.name)) = s) (hfound : s.found = fs.map found) (hC : C W.dir)
    (h : ∀ w pl, Raw w fs → NoFail pl → (fs = [] → w = WAL.new opts) →
      Ends (loadScanned s) ⟨w, W.dir, pl⟩ Q C) : Ends load W Q C := by
  have hscan : scanDir (W.dir.keys.insertionSort (· ≤ ·)) = s := by
    rw [← hs, scanDir, foldl_scanStep_filter, hd.listing hlist]
    rfl
  refine .bind (.fileOp hplan rfl hC fun pl hpl => .bind (.modifyMem ?_))
  have hraw : Raw (allocAll s.found W.mem) fs := by
    rw [hfound, hmem]
    exact (raw_new opts).allocAll fs
  dsimp only
  rw [hscan]
  refine h _ pl hraw hpl ?_
  rintro rfl
  rw [hfound, hmem]
  rfl

theorem scan_plain {fs : List (FileName × Bytes)} (h : Listed fs) (hseg : ∀ f ∈ fs, f.1.rank = 0) :
    scanDir (fs.map (·.1.name)) = ⟨fs.map found, none, none⟩ := by
  rw [scanDir, foldl_scanStep_plain h hseg]
  rfl

theorem loadScanned_found {xs : List (ℕ × Name)} (h : xs ≠ []) (a b : Option ℕ) :
    loadScanned ⟨xs, a, b⟩ = match a, b with
      | some _, some _ => Prog.throw .corrupt
      | some i, none => do
        cleanStart i
        openLog
      | none, some i => do
        cleanEnd i
        openLog
      | none, none => openLog := by
  obtain ⟨x, xs, rfl⟩ := List.exists_cons_of_ne_nil h
  cases a <;> cases b <;> rfl

theorem load_spec {opts : Options} (hl : Layout first cs) (hR : Recov W.dir cs)
    (hplan : NoFail W.plan) (hmem : W.mem = WAL.new opts) :
    Ends load W (fun r W' => r = .ok () ∧ Good W' first cs ∧ Tidy W'.mem) (Recov · cs) := by
  obtain ⟨fs, hd, hlist, hshape⟩ := hR
  have hbound := hshape.bound hlist
  have hC : Recov W.dir cs := ⟨fs, hd, hlist, hshape⟩
  have hopen : ∀ {W : World Name WAL}, Raw W.mem (segFiles cs) → Holds W.dir (segFiles cs) →
      NoFail W.plan → Ends openLog W (fun r W' => r = .ok () ∧ Good W' first cs ∧ Tidy W'.mem)
        (Recov · cs) := by
    intro W hraw hd hplan
    refine (openLog_spec hl hraw hd hplan).mono (fun r W' h => h) fun d hdir => ?_
    exact ⟨_, hdir ▸ hd, hl.listed hbound, .clean cs⟩
  cases hshape with
  | fresh =>
    refine load_ends hd hlist hplan hmem rfl rfl hC fun w pl _ hpl hw => .bind (.modifyMem ?_)
    refine (createSegment_fresh (W := ⟨{ w with firstIndex := 1, lastIndex := 0 }, W.dir, pl⟩)
      hl hd hpl (by rw [hw rfl])).mono (fun r W' h => h) ?_
    rintro d rfl
    exact hC
  | clean =>
    refine load_ends hd hlist hplan hmem (scan_plain hlist fun f hf => segFiles_own hf) rfl hC
      fun w pl hraw hpl _ => ?_
    rw [loadScanned_found (by simpa [segFiles] using hl.ne)]
    exact hopen hraw hd hpl
  | front old c rest =>
    have hlen : (plainFiles old).length = old.length := by simp [plainFiles]
    refine load_ends hd hlist hplan hmem
      (scan_one hlist (fun g hg => plainFiles_own hg) (fun g hg => segFiles_own hg)) rfl hC
      fun w pl hraw hpl _ => ?_
    rw [loadScanned_found (by simp)]
    simp only [FileName.rank, ↓reduceIte, OfNat.ofNat_ne_one, hlen]
    refine .bind_of (cleanStart_spec hraw hd hlist hpl) (fun d hd => hd) ?_
    rintro r W' ⟨rfl, hraw', hd', hpl'⟩
    exact ⟨(), rfl, hopen hraw' hd' hpl'⟩
  | back init c dup later hdup =>
    have hlen : (segFiles init ++ plainFiles dup).length = init.length + dup.length := by
      simp [plainFiles, segFiles]
    have hlist' : Listed ((segFiles init ++ plainFiles dup)
        ++ (.fin c.index, encode c.recs) :: plainFiles later) := by
      rw [List.append_assoc]
      exact hlist
    have hscan := scan_one hlist' (fun g hg => (List.mem_append.mp hg).elim
      (fun hg => segFiles_own hg) fun hg => plainFiles_own hg) fun g hg => plainFiles_own hg
    rw [List.append_assoc] at hscan
    refine load_ends hd hlist hplan hmem hscan rfl hC fun w pl hraw hpl _ => ?_
    rw [loadScanned_found (by simp)]
    simp only [FileName.rank, ↓reduceIte, OfNat.one_ne_ofNat, hlen]
    refine .bind_of (cleanEnd_spec hl hdup hraw hd hlist hpl) (fun d hd => hd) ?_
    rintro r W' ⟨rfl, hraw', hd', hpl'⟩
    exact ⟨(), rfl, hopen hraw' hd' hpl'⟩

theorem create_spec (opts : Options) (hl : Layout first cs) (hR : Recov W.dir cs)
    (hplan : NoFail W.plan) :
    Ends (create opts) W (fun r W' => r = .ok () ∧ Good W' first cs ∧ Tidy W'.mem) (Recov · cs) :=
  .bind (.modifyMem (.bind (.touch hplan hR fun _ hpl => load_spec hl hR hpl rfl)))

end Clean

end Rhosus.Wal

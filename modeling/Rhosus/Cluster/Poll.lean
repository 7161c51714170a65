import Mathlib.Data.Fintype.Card
import Rhosus.Cluster.Net

/-!
# Votes and majorities

What decides an election, apart from the logs: each registry's term, state and last vote, the
elections that are open, and the calls for votes. `Safe` is the invariant that makes a leader the
only one of its term: no registry has granted two votes in a term, one that campaigns or leads has
granted none in its own, and a leader is backed by a majority that includes itself. It is kept by
each thing that can happen to a poll, as long as a winner has that majority in the term that it is
still a candidate of, and a candidate grants no vote in the term it campaigns in.
-/

namespace Rhosus.Cluster

structure Ballot where
  currentTerm : ℕ
  state : State
  lastVotedTerm : ℕ

structure Poll (N : ℕ) where
  ballots : Fin N → Ballot
  elections : Fin N → Option Election
  calls : List (VoteCall (Fin N))

variable {N : ℕ}

/-- The call has been answered with a vote. -/
def VoteCall.Granted {ι : Type} (c : VoteCall ι) : Prop := ∃ res ∈ c.res, res.voteGranted = true

/-- The registries in `V` have voted for `i` in the term `t`. -/
def Backed (calls : List (VoteCall (Fin N))) (i : Fin N) (t : ℕ) (V : Finset (Fin N)) : Prop :=
  ∀ v ∈ V, ∃ c ∈ calls, c.src = i ∧ c.dst = v ∧ c.req.term = t ∧ c.Granted

def target (calls : List (VoteCall (Fin N))) (k : ℕ) : Option (Fin N) := calls[k]?.map VoteCall.dst

/-- The calls an open election waits for go to different registries, none of which it has counted;
those that it has counted have voted for it. -/
structure Counted (calls : List (VoteCall (Fin N))) (i : Fin N) (el : Election) : Prop where
  waiting : ∀ k ∈ el.waiting, ∃ c, calls[k]? = some c ∧ c.src = i ∧ c.req.term = el.term
  targets : (el.waiting.map (target calls)).Nodup
  votes : ∃ V : Finset (Fin N), V.card = el.voted ∧ Backed calls i el.term V
    ∧ ∀ k ∈ el.waiting, ∀ v ∈ V, target calls k ≠ some v

structure Safe (P : Poll N) : Prop where
  voted : ∀ i, (P.ballots i).lastVotedTerm ≤ (P.ballots i).currentTerm
  past : ∀ c ∈ P.calls, c.Granted → c.req.term ≤ (P.ballots c.dst).lastVotedTerm
  unique : ∀ c ∈ P.calls, ∀ c' ∈ P.calls, c.Granted → c'.Granted → c.dst = c'.dst →
    c.req.term = c'.req.term → c.src = c'.src
  /-- A candidate or leader has granted no vote in its term. -/
  own : ∀ c ∈ P.calls, c.Granted → (P.ballots c.dst).state ≠ .follower →
    c.req.term ≠ (P.ballots c.dst).currentTerm
  other : ∀ c ∈ P.calls, c.src ≠ c.dst
  counted : ∀ i el, P.elections i = some el → Counted P.calls i el
  leader : ∀ i, (P.ballots i).state = .leader →
    ∃ V, Backed P.calls i (P.ballots i).currentTerm V ∧ N < 2 * (V.card + 1)

section Calls

variable {calls calls' : List (VoteCall (Fin N))} {i : Fin N} {el : Election}

/-- The calls are still there, with the votes they got. -/
def Extends (calls calls' : List (VoteCall (Fin N))) : Prop :=
  ∀ (k : ℕ) (c : VoteCall (Fin N)), calls[k]? = some c →
    ∃ c', calls'[k]? = some c' ∧ c'.src = c.src ∧ c'.dst = c.dst ∧ c'.req = c.req
      ∧ (c.Granted → c'.Granted)

theorem extends_append (new : List (VoteCall (Fin N))) : Extends calls (calls ++ new) := by
  intro k c hc
  have hk := (List.getElem?_eq_some_iff.mp hc).1
  exact ⟨c, by rw [List.getElem?_append_left hk, hc], rfl, rfl, rfl, id⟩

theorem extends_set {k : ℕ} {c : VoteCall (Fin N)} (hc : calls[k]? = some c) (hres : c.res = none)
    (res : Option (RequestVoteResponse (Fin N))) :
    Extends calls (calls.set k { c with res }) := by
  intro k' c' hc'
  by_cases hk : k = k'
  · subst hk
    obtain rfl : c = c' := Option.some.inj (hc.symm.trans hc')
    have hlt := (List.getElem?_eq_some_iff.mp hc).1
    refine ⟨_, List.getElem?_set_self hlt, rfl, rfl, rfl, ?_⟩
    rintro ⟨r, hr, -⟩
    simp [hres] at hr
  · exact ⟨c', by rw [List.getElem?_set_ne hk, hc'], rfl, rfl, rfl, id⟩

theorem Backed.extend {t : ℕ} {V : Finset (Fin N)} (h : Backed calls i t V)
    (he : Extends calls calls') : Backed calls' i t V := by
  intro v hv
  obtain ⟨c, hc, rfl, rfl, rfl, hg⟩ := h v hv
  obtain ⟨k, hk⟩ := List.mem_iff_getElem?.mp hc
  obtain ⟨c', hk', hsrc, hdst, hreq, hg'⟩ := he k c hk
  exact ⟨c', List.mem_of_getElem? hk', hsrc, hdst, by rw [hreq], hg' hg⟩

theorem Counted.extend (h : Counted calls i el) (he : Extends calls calls') :
    Counted calls' i el := by
  have htarget : ∀ k ∈ el.waiting, target calls' k = target calls k := by
    intro k hk
    obtain ⟨c, hc, -⟩ := h.waiting k hk
    obtain ⟨c', hc', -, hdst, -⟩ := he k c hc
    simp [target, hc, hc', hdst]
  refine ⟨fun k hk => ?_, ?_, ?_⟩
  · obtain ⟨c, hc, hsrc, hterm⟩ := h.waiting k hk
    obtain ⟨c', hc', hsrc', -, hreq, -⟩ := he k c hc
    exact ⟨c', hc', hsrc'.trans hsrc, by rw [hreq, hterm]⟩
  · rw [List.map_congr_left htarget]
    exact h.targets
  · obtain ⟨V, hcard, hback, hnot⟩ := h.votes
    refine ⟨V, hcard, hback.extend he, fun k hk v hv => ?_⟩
    rw [htarget k hk]
    exact hnot k hk v hv

theorem Counted.erase (h : Counted calls i el) (k : ℕ) :
    Counted calls i { el with waiting := el.waiting.erase k } :=
  ⟨fun k' hk' => h.waiting k' (List.mem_of_mem_erase hk'),
    h.targets.sublist (List.erase_sublist.map _), by
      obtain ⟨V, hcard, hback, hnot⟩ := h.votes
      exact ⟨V, hcard, hback, fun k' hk' => hnot k' (List.mem_of_mem_erase hk')⟩⟩

theorem Counted.count (h : Counted calls i el) {k : ℕ} (hk : k ∈ el.waiting)
    {c : VoteCall (Fin N)} (hc : calls[k]? = some c) (hg : c.Granted) (responded : ℕ) :
    Counted calls i ⟨el.term, el.waiting.erase k, responded, el.voted + 1⟩ := by
  obtain ⟨V, hcard, hback, hnot⟩ := h.votes
  have htarget : target calls k = some c.dst := by simp [target, hc]
  have hfresh : c.dst ∉ V := fun hv => hnot k hk _ hv htarget
  have hrest := h.erase k
  refine ⟨hrest.waiting, hrest.targets, insert c.dst V, ?_, ?_, ?_⟩
  · rw [Finset.card_insert_of_notMem hfresh, hcard]
  · intro v hv
    rcases Finset.mem_insert.mp hv with rfl | hv
    · obtain ⟨c', hc', hsrc, hterm⟩ := h.waiting k hk
      obtain rfl : c = c' := Option.some.inj (hc.symm.trans hc')
      exact ⟨c, List.mem_of_getElem? hc, hsrc, rfl, hterm, hg⟩
    · exact hback v hv
  · intro k' hk' v hv
    rcases Finset.mem_insert.mp hv with rfl | hv
    · -- two calls of the election do not go to one registry
      intro heq
      have hnd := ((List.perm_cons_erase hk).map (target calls)).nodup_iff.mp h.targets
      rw [List.map_cons, List.nodup_cons] at hnd
      exact hnd.1 (List.mem_map.mpr ⟨k', hk', by rw [htarget, heq]⟩)
    · exact hnot k' (List.mem_of_mem_erase hk') v hv

end Calls

namespace Safe

variable {P : Poll N} {i j : Fin N} {c : VoteCall (Fin N)} {k : ℕ}

/-- Two leaders of one term would share a voter. -/
theorem leader_unique (h : Safe P) (hi : (P.ballots i).state = .leader)
    (hj : (P.ballots j).state = .leader)
    (ht : (P.ballots i).currentTerm = (P.ballots j).currentTerm) : i = j := by
  by_contra hij
  obtain ⟨V, hV, hVcard⟩ := h.leader i hi
  obtain ⟨U, hU, hUcard⟩ := h.leader j hj
  have hself : ∀ {i : Fin N} {t : ℕ} {V : Finset (Fin N)}, Backed P.calls i t V → i ∉ V := by
    intro i t V hV hi
    obtain ⟨c, hc, hsrc, hdst, -⟩ := hV i hi
    exact h.other c hc (hsrc.trans hdst.symm)
  -- a candidate or leader has not voted for another in its term
  have hown : ∀ {i j : Fin N} {t : ℕ} {U : Finset (Fin N)}, (P.ballots i).state = .leader →
      (P.ballots i).currentTerm = t → Backed P.calls j t U → i ∉ U := by
    intro i j t U hi ht hU hmem
    obtain ⟨c, hc, -, rfl, hterm, hg⟩ := hU i hmem
    exact h.own c hc hg (by rw [hi]; decide) (hterm.trans ht.symm)
  have hcard := Finset.card_union_add_card_inter (insert i V) (insert j U)
  rw [Finset.card_insert_of_notMem (hself hV), Finset.card_insert_of_notMem (hself hU)] at hcard
  have hle : (insert i V ∪ insert j U).card ≤ N := by
    simpa using Finset.card_le_univ (insert i V ∪ insert j U)
  obtain ⟨v, hv⟩ := Finset.card_pos.mp (show 0 < (insert i V ∩ insert j U).card by omega)
  simp only [Finset.mem_inter, Finset.mem_insert] at hv
  rcases hv with ⟨rfl | hvV, rfl | hvU⟩
  · exact hij rfl
  · exact hown hi ht hU hvU
  · exact hown hj ht.symm hV hvV
  · obtain ⟨c, hc, hsrc, hdst, hterm, hg⟩ := hV v hvV
    obtain ⟨c', hc', hsrc', hdst', hterm', hg'⟩ := hU v hvU
    refine hij ?_
    rw [← hsrc, ← hsrc']
    exact h.unique c hc c' hc' hg hg' (hdst.trans hdst'.symm) (by rw [hterm, hterm', ht])

/-- A registry takes on a term, as a follower or to campaign in a later one. -/
theorem enter (h : Safe P) (i : Fin N) (t : ℕ) (st : State) (ht : (P.ballots i).currentTerm ≤ t)
    (hst : st = .follower ∨ st = .candidate ∧ (P.ballots i).currentTerm < t) :
    Safe { P with
      ballots := Function.update P.ballots i ⟨t, st, (P.ballots i).lastVotedTerm⟩ } := by
  have hvoted := h.voted i
  refine ⟨fun v => ?_, fun c hc hg => ?_, h.unique, fun c hc hg => ?_, h.other, h.counted,
    fun v => ?_⟩
  · by_cases hv : v = i
    · subst hv
      simpa using hvoted.trans ht
    · simpa [hv] using h.voted v
  · by_cases hv : c.dst = i
    · subst hv
      simpa using h.past c hc hg
    · simpa [hv] using h.past c hc hg
  · by_cases hv : c.dst = i
    · subst hv
      have := h.past c hc hg
      simp only [Function.update_self]
      rcases hst with rfl | ⟨-, hlt⟩
      · simp
      · omega
    · simpa [hv] using h.own c hc hg
  · by_cases hv : v = i
    · subst hv
      rcases hst with rfl | ⟨rfl, -⟩ <;> simp
    · simpa [hv] using h.leader v

/-- An election is opened: its calls are new, and go to each of the others. -/
theorem openElection (h : Safe P) (i : Fin N) {new : List (VoteCall (Fin N))} {t : ℕ}
    (hnew : ∀ c ∈ new, c.src = i ∧ c.dst ≠ i ∧ c.req.term = t ∧ c.res = none)
    (hdst : (new.map VoteCall.dst).Nodup) :
    Safe { P with
      elections := Function.update P.elections i
        (some ⟨t, List.range' P.calls.length new.length, 0, 0⟩)
      calls := P.calls ++ new } := by
  have hext : Extends P.calls (P.calls ++ new) := extends_append new
  have hold : ∀ c ∈ P.calls ++ new, c.Granted → c ∈ P.calls := by
    intro c hc hg
    rcases List.mem_append.mp hc with hc | hc
    · exact hc
    · obtain ⟨r, hr, -⟩ := hg
      simp [(hnew c hc).2.2.2] at hr
  have hcall : ∀ m < new.length, (P.calls ++ new)[P.calls.length + m]? = new[m]? := by
    intro m _
    rw [List.getElem?_append_right (Nat.le_add_right _ _), Nat.add_sub_cancel_left]
  refine ⟨h.voted, fun c hc hg => h.past c (hold c hc hg) hg,
    fun c hc c' hc' hg hg' => h.unique c (hold c hc hg) c' (hold c' hc' hg') hg hg',
    fun c hc hg => h.own c (hold c hc hg) hg, fun c hc => ?_, fun v el hel => ?_, fun v hv => ?_⟩
  · rcases List.mem_append.mp hc with hc | hc
    · exact h.other c hc
    · rw [(hnew c hc).1]
      exact (hnew c hc).2.1.symm
  · by_cases hv : v = i
    · subst hv
      simp only [Function.update_self, Option.some.injEq] at hel
      subst hel
      refine ⟨fun k hk => ?_, ?_, ∅, by simp [Backed]⟩
      · obtain ⟨m, hm, rfl⟩ := List.mem_range'.mp hk
        rw [one_mul, hcall m hm, List.getElem?_eq_getElem hm]
        exact ⟨_, rfl, (hnew _ (List.getElem_mem hm)).1, (hnew _ (List.getElem_mem hm)).2.2.1⟩
      · have hmap : (List.range' P.calls.length new.length).map (target (P.calls ++ new))
            = (new.map VoteCall.dst).map some := by
          refine List.ext_getElem? fun m => ?_
          by_cases hm : m < new.length
          · simp [target, hm]
          · simp [hm]
        change ((List.range' P.calls.length new.length).map _).Nodup
        rw [hmap]
        exact hdst.map (Option.some_injective _)
    · simp only [Function.update_of_ne hv] at hel
      exact (h.counted v el hel).extend hext
  · obtain ⟨V, hV, hcard⟩ := h.leader v hv
    exact ⟨V, hV.extend hext, hcard⟩

theorem setElection (h : Safe P) (i : Fin N) {el : Option Election}
    (hel : ∀ e, el = some e → Counted P.calls i e) :
    Safe { P with elections := Function.update P.elections i el } := by
  refine ⟨h.voted, h.past, h.unique, h.own, h.other, fun v e he => ?_, h.leader⟩
  by_cases hv : v = i
  · subst hv
    simp only [Function.update_self] at he
    exact hel e he
  · simp only [Function.update_of_ne hv] at he
    exact h.counted v e he

theorem promote (h : Safe P) {el : Election} (hel : P.elections i = some el)
    (hstate : (P.ballots i).state = .candidate) (hterm : (P.ballots i).currentTerm = el.term)
    (hmaj : N < 2 * (el.voted + 1)) :
    Safe { P with
      ballots := Function.update P.ballots i { P.ballots i with state := .leader } } := by
  refine ⟨fun v => ?_, fun c hc hg => ?_, h.unique, fun c hc hg => ?_, h.other, h.counted,
    fun v hv => ?_⟩
  · by_cases hv : v = i
    · subst hv
      simpa using h.voted v
    · simpa [hv] using h.voted v
  · by_cases hv : c.dst = i
    · subst hv
      simpa using h.past c hc hg
    · simpa [hv] using h.past c hc hg
  · by_cases hv : c.dst = i
    · subst hv
      simpa using h.own c hc hg (by rw [hstate]; decide)
    · simpa [hv] using h.own c hc hg
  · by_cases hvi : v = i
    · subst hvi
      obtain ⟨V, hcard, hV, -⟩ := (h.counted v el hel).votes
      exact ⟨V, by simpa [hterm] using hV, by omega⟩
    · simp only [Function.update_of_ne hvi] at hv ⊢
      exact h.leader v hv

theorem decline (h : Safe P) (hc : P.calls[k]? = some c) (hnone : c.res = none)
    {res : RequestVoteResponse (Fin N)} (hres : res.voteGranted = false) :
    Safe { P with calls := P.calls.set k { c with res := some res } } := by
  have hext := extends_set hc hnone (some res)
  have hmem := List.mem_of_getElem? hc
  have hold : ∀ c' ∈ P.calls.set k { c with res := some res }, c'.Granted → c' ∈ P.calls := by
    intro c' hc' hg
    rcases List.mem_or_eq_of_mem_set hc' with hc' | rfl
    · exact hc'
    · obtain ⟨r, hr, hg⟩ := hg
      obtain rfl := Option.some.inj hr
      rw [hres] at hg
      cases hg
  refine ⟨h.voted, fun c hc hg => h.past c (hold c hc hg) hg,
    fun c hc c' hc' hg hg' => h.unique c (hold c hc hg) c' (hold c' hc' hg') hg hg',
    fun c hc hg => h.own c (hold c hc hg) hg, fun c' hc' => ?_,
    fun v el hel => (h.counted v el hel).extend hext, fun v hv => ?_⟩
  · rcases List.mem_or_eq_of_mem_set hc' with hc' | rfl
    · exact h.other c' hc'
    · exact h.other c hmem
  · obtain ⟨V, hV, hcard⟩ := h.leader v hv
    exact ⟨V, hV.extend hext, hcard⟩

theorem grant (h : Safe P) (hc : P.calls[k]? = some c) (hnone : c.res = none)
    (res : RequestVoteResponse (Fin N)) (hle : (P.ballots c.dst).currentTerm ≤ c.req.term)
    (hne : (P.ballots c.dst).lastVotedTerm ≠ c.req.term) :
    Safe { P with
      ballots := Function.update P.ballots c.dst ⟨c.req.term, .follower, c.req.term⟩
      calls := P.calls.set k { c with res := some res } } := by
  have hext := extends_set hc hnone (some res)
  have hmem := List.mem_of_getElem? hc
  have hvoted := h.voted c.dst
  have hcases : ∀ c' ∈ P.calls.set k { c with res := some res },
      c' ∈ P.calls ∨ c' = { c with res := some res } := fun c' => List.mem_or_eq_of_mem_set
  -- its earlier votes are in earlier terms
  have hearlier : ∀ c' ∈ P.calls, c'.Granted → c'.dst = c.dst → c'.req.term < c.req.term := by
    intro c' hc' hg hdst
    have := h.past c' hc' hg
    rw [hdst] at this
    omega
  refine ⟨fun v => ?_, fun c' hc' hg => ?_, fun c₁ hc₁ c₂ hc₂ hg₁ hg₂ hdst hterm => ?_,
    fun c' hc' hg => ?_, fun c' hc' => ?_, fun v el hel => (h.counted v el hel).extend hext,
    fun v hv => ?_⟩
  · by_cases hv : v = c.dst
    · subst hv
      simp
    · simpa [hv] using h.voted v
  · rcases hcases c' hc' with hc' | rfl
    · by_cases hv : c'.dst = c.dst
      · simpa [hv] using (hearlier c' hc' hg hv).le
      · simpa [hv] using h.past c' hc' hg
    · simp
  · rcases hcases c₁ hc₁ with hc₁ | rfl <;> rcases hcases c₂ hc₂ with hc₂ | rfl
    · exact h.unique c₁ hc₁ c₂ hc₂ hg₁ hg₂ hdst hterm
    · exact absurd hterm (hearlier c₁ hc₁ hg₁ hdst).ne
    · exact absurd hterm (hearlier c₂ hc₂ hg₂ hdst.symm).ne'
    · rfl
  · rcases hcases c' hc' with hc' | rfl
    · by_cases hv : c'.dst = c.dst
      · simp [hv]
      · simpa [hv] using h.own c' hc' hg
    · simp
  · rcases hcases c' hc' with hc' | rfl
    · exact h.other c' hc'
    · exact h.other c hmem
  · by_cases hvd : v = c.dst
    · subst hvd
      simp at hv
    · simp only [Function.update_of_ne hvd] at hv ⊢
      obtain ⟨V, hV, hcard⟩ := h.leader v hv
      exact ⟨V, hV.extend hext, hcard⟩

end Safe

end Rhosus.Cluster

import Rhosus.Registry.Delivery
import Rhosus.Registry.PutFile

/-!
# A file that is uploaded and downloaded

`HandlePutFile` cuts the body into blocks, which go to the data nodes; `HandleGetFile` has them
fetched and copies them to the response, one after the other. The blocks come back in the order of
their indexes, and so the response is the body (`body_comes_back`), where the two halves each go as
they should: the goroutines of the upload in their order, and the nodes without an error.
-/

namespace Rhosus.Registry

/-- What `HandleGetFile` writes for a block: as many bytes as the block says, or all it has. -/
def copyBlock (block : Data.Block) : Bytes := block.data.take block.len

/-- The response of `HandleGetFile`, by the blocks that `GetFileHandler` gives it in turn. -/
def responseBody (sent : List Data.Block) : Bytes := sent.flatMap copyBlock

section Order

variable {body : Bytes} {blocks sent : List Data.Block}

/-- The order of their indexes is the one order in which the blocks are cut. -/
theorem CutFrom.responseBody_eq (h : CutFrom body blocks) (hperm : sent.Perm blocks)
    (horder : sent.Pairwise fun b c => b.index < c.index) : responseBody sent = body := by
  obtain ⟨sorted, hsorted, hindex, hlen, hbody⟩ := h
  have hstrict : sorted.Pairwise fun b c => b.index < c.index := by
    have hrange : (sorted.map Data.Block.index).Pairwise (· < ·) := by
      rw [hindex]
      exact List.pairwise_lt_range'
    exact List.pairwise_map.mp hrange
  have heq : sent = sorted :=
    (hperm.trans hsorted.symm).eq_of_pairwise
      (fun b c _ _ hbc hcb => absurd (hbc.trans hcb) (lt_irrefl _)) horder hstrict
  rw [heq, ← hbody, responseBody, List.flatMap_def]
  refine congrArg List.flatten (List.map_congr_left fun b hb => ?_)
  rw [copyBlock, (hlen b hb).2, List.take_length]

theorem CutFrom.cut (h : CutFrom body blocks) (hids : (blocks.map Data.Block.id).Nodup)
    (hnamed : ∀ b ∈ blocks, b.id ≠ []) : Cut blocks := by
  obtain ⟨sorted, hsorted, hindex, hlen, -⟩ := h
  refine ⟨hids, hnamed, ?_, fun b hb => (hlen b (hsorted.mem_iff.mpr hb)).1,
    fun b hb => (hlen b (hsorted.mem_iff.mpr hb)).2⟩
  rw [← (hsorted.map Data.Block.index).nodup_iff, hindex]
  exact List.nodup_range'

end Order

section Whole

variable {file : FileInfo} {body : Bytes} {blocks : List Data.Block} {leader : Leader}

/-- The blocks have been handed over: they are the body's, and so is the size. -/
theorem Upload.Sent.of_handed {u : Upload} (h : u.Sent body) (hblocks : u.handed = some blocks) :
    CutFrom body blocks ∧ ∀ n ∈ u.fileSize, n = body.length := by
  unfold Upload.Sent at h
  rw [hblocks] at h
  exact ⟨h.1, h.2.2.2.2⟩

/-- A body is uploaded with the goroutines in their order, before the last round of the loop, and no
buffer is filled again that a block is over; the blocks get ids that differ, and none is empty. Let
the registry have served any requests, the file have no blocks yet, and the table of nodes be one
that is not empty and in which each node has had a heartbeat. Where the nodes that are chosen answer
and each sink that one of the blocks goes to is flushed in batches that fit its partition, the
download does not fail and can always go on; what it writes is the body, byte for byte, and the size
that the file was stored with is the length of it. -/
theorem body_comes_back (file : FileInfo) (env : Env) (reqs : List (Request × Fate))
    (hserved : runSteps (serve env) reqs .empty = some leader) (cells : ℕ → Bytes)
    (us : List UploadLabel) {u : Upload}
    (hus : Along Upload.step Upload.InOrder us (.start body cells))
    (hup : runSteps Upload.step us (.start body cells) = some u) (hblocks : u.handed = some blocks)
    (hids : (blocks.map Data.Block.id).Nodup) (hnamed : ∀ b ∈ blocks, b.id ≠ [])
    (hsize : u.fileSize = some file.fileSize)
    (hnew : leader.storage.getBlocks env.sorter file.id = []) {table : List Node}
    (htable : table ≠ []) (hbeat : ∀ node ∈ table, node.blocksUsed ≠ none) {replicationFactor : ℤ}
    (hr : 1 ≤ replicationFactor) :
    file.fileSize = body.length
      ∧ ∃ t₀, Transfer.begin env.sorter table blocks replicationFactor leader = some t₀
        ∧ ∀ ls t, Along (Transfer.step env file blocks)
            (TransferLabel.Orderly (blocks.map Data.Block.id)) ls t₀ →
          runSteps (Transfer.step env file blocks) ls t₀ = some t → t.phase ≠ .failed
            ∧ (∀ sent, t.phase = .got sent → responseBody sent = body)
            ∧ ∀ infos fetches result, t.phase = .getting infos fetches result →
              ∃ ls' t' sent, (∀ l ∈ ls', l.isFetch = true)
                ∧ runSteps (Transfer.step env file blocks) ls' t = some t' ∧ t'.phase = .got sent
                ∧ responseBody sent = body := by
  have hstart : (Upload.start body cells).Sent body :=
    ⟨⟨rfl, by simp [Upload.start], rfl, by simp [Upload.start], rfl, rfl⟩, rfl⟩
  obtain ⟨hfrom, hlength⟩ :=
    (Along.invariant (fun _ _ _ h hl hstep => Upload.Sent.step h hl hstep) us hstart hus
      hup).of_handed hblocks
  exact ⟨hlength _ hsize, Carried.sends (blocksIndexed_served hserved) hnew
    (hfrom.cut hids hnamed) htable hbeat hr fun _ h => hfrom.responseBody_eq h.1 h.2⟩

/-- A full block and one of a byte. -/
def fullBlocks : List Data.Block :=
  [⟨[2], 1, blockSize, List.replicate blockSize 0⟩, ⟨[3], 2, 1, [1]⟩]

def fullFile : FileInfo := { someFile with fileSize := blockSize + 1 }

/-- The blocks go to a partition of a node that is new, and are to be written. -/
def fullTransfer : List TransferLabel :=
  [.send 0 [], .node [7] (.look 0 (some [9])), .node [7] (.put 0), .node [7] (.put 0),
    .node [7] (.finish 0), .receive 0, .register [[2], [3]] .fine, .registerFile .fine,
    .node [7] (.part [9] .tick), .node [7] (.part [9] .drain), .node [7] (.part [9] .drain),
    .node [7] (.part [9] .drain), .node [7] (.part [9] .check)]

/-- The registry has the file, and its node a batch in hand for its only partition. -/
def Transfer.Ready (env : Env) (t : Transfer) : Bool :=
  (t.jobs.all fun job => job.node = [7]) && (t.nodes [7]).parts.keys = [[9]]
    && (t.phase matches .registered) && ((t.get env fullFile.path).phase matches .getting ..)
    && ((t.nodes [7]).parts.lookup [9]).any fun s =>
      !s.part.closed && s.queue.isEmpty && s.stage matches .write _

-- The data is too large to be compared or measured, which the writing of the batch and what comes
-- after it do; up to there the run can be evaluated.
theorem Transfer.exists_getting {env : Env} {t : Transfer} (h : t.Ready env = true)
    (blocks : List Data.Block) (ids : List Bytes) : ∃ ls t' infos fetches result,
      Along (Transfer.step env fullFile blocks) (TransferLabel.Orderly ids) ls t
        ∧ runSteps (Transfer.step env fullFile blocks) ls t = some t'
        ∧ t'.phase = .getting infos fetches result := by
  simp only [Transfer.Ready, Bool.and_eq_true, decide_eq_true_eq, List.all_eq_true] at h
  obtain ⟨⟨⟨⟨hjobs, hkeys⟩, hphase⟩, hget⟩, hsink⟩ := h
  obtain ⟨s, hs, hsink⟩ := (Option.any_eq_true _ _).mp hsink
  simp only [Bool.and_eq_true, Bool.not_eq_true', List.isEmpty_iff] at hsink
  obtain ⟨⟨hopen, hqueue⟩, hstage⟩ := hsink
  have hphase : t.phase = .registered := by cases h : t.phase <;> simp [h] at hphase ⊢
  obtain ⟨batch, hbatch⟩ : ∃ batch, s.stage = .write batch := by
    cases h : s.stage <;> simp [h] at hstage ⊢
  obtain ⟨infos, fetches, result, hgetting⟩ : ∃ infos fetches result,
      (t.get env fullFile.path).phase = .getting infos fetches result := by
    cases h : (t.get env fullFile.path).phase <;> simp [h] at hget ⊢
  obtain ⟨l, n, hcareful, hn, hflushed⟩ :=
    Data.DataNode.exists_write ids hkeys hs hopen hqueue hbatch
  have hstep : Transfer.step env fullFile blocks (.node [7] l) t = some (t.setNode [7] n) := by
    simp [Transfer.step, hn]
  have hstep' : Transfer.step env fullFile blocks .get (t.setNode [7] n)
      = some ((t.setNode [7] n).get env fullFile.path) := by
    simp [Transfer.step, Transfer.setNode, hphase]
  refine ⟨[.node [7] l, .get], (t.setNode [7] n).get env fullFile.path, infos, fetches, result,
    ⟨hcareful, ?_⟩, ?_, .trans ?_ hgetting⟩
  · rw [hstep]
    refine ⟨fun job hjob => ?_, ?_⟩
    · rw [hjobs job hjob]
      simpa [Transfer.setNode] using hflushed
    · rw [hstep']
      trivial
  · rw [runSteps, hstep]
    dsimp only
    rw [runSteps, hstep']
    rfl
  · unfold Transfer.get
    simp only [Transfer.setNode]
    split
    · rfl
    · split <;> rfl

theorem body_comes_back_fullBlocks : ∃ u t₀ ls t sent,
    runSteps Upload.step inTurn (.start (List.replicate blockSize 0 ++ [1]) fun _ => []) = some u
      ∧ u.handed = some fullBlocks
      ∧ Transfer.begin someEnv.sorter [⟨[7], some 0⟩] fullBlocks 2 .empty = some t₀
      ∧ runSteps (Transfer.step someEnv fullFile fullBlocks) ls t₀ = some t
      ∧ t.phase = .got sent ∧ responseBody sent = List.replicate blockSize 0 ++ [1] := by
  obtain ⟨hus, u, hup, hblocks, hsize⟩ := inTurn_run (List.replicate blockSize 0) [1]
    List.length_replicate (by decide) (List.cons_ne_nil _ _)
  change u.handed = some fullBlocks at hblocks
  have htable : ([⟨[7], some 0⟩] : List Node) ≠ [] := by decide
  obtain ⟨-, t₀, ht₀, hall⟩ := body_comes_back fullFile someEnv [] rfl _ inTurn hus hup hblocks
    (by decide) (by simp [fullBlocks]) hsize (by decide +kernel) htable (by decide)
    (by decide : (1 : ℤ) ≤ 2)
  have horderly : ∀ t ∈ Transfer.begin someEnv.sorter [⟨[7], some 0⟩] fullBlocks 2 .empty,
      Along (Transfer.step someEnv fullFile fullBlocks) (TransferLabel.Orderly [[2], [3]])
        fullTransfer t := by
    decide +kernel
  have hready : ((Transfer.begin someEnv.sorter [⟨[7], some 0⟩] fullBlocks 2 .empty).bind
      (runSteps (Transfer.step someEnv fullFile fullBlocks) fullTransfer)).any
        (Transfer.Ready someEnv) = true := by
    decide +kernel
  rw [ht₀, Option.bind_some, Option.any_eq_true] at hready
  obtain ⟨t, hrun, hready⟩ := hready
  obtain ⟨ls, t₁, infos, fetches, result, halong, hrun₁, hgetting⟩ :=
    Transfer.exists_getting hready fullBlocks [[2], [3]]
  have hrun₁ := runSteps_trans hrun hrun₁
  obtain ⟨ls', t', sent, -, hrun', hgot, hbody⟩ :=
    (hall _ t₁ ((horderly t₀ ht₀).append hrun halong) hrun₁).2.2 infos fetches result hgetting
  exact ⟨u, t₀, _, t', sent, hup, hblocks, ht₀, runSteps_trans hrun₁ hrun', hgot, hbody⟩

end Whole

end Rhosus.Registry

import NixstrCache.Lib.Endings
import NixstrCache.Write.PendingCandidates

/-!
The ids of batches and sagas over the runs of the scheduler.

Batches take their ids from a counter of their table, refreshed sagas take the one after the greatest
id of a saga.  The two stay apart as long as no batch is frozen once a saga is ahead of the counter, and
no saga is refreshed while a batch is ahead of the sagas.  An id of a batch then stands for the
generation that was frozen under it, wherever it is found.
-/

namespace NixstrCache.Write.BatchScheduler

open Durable KeyedTable Runs Persistence Persistence.WriteRepository

section Ids

/-- No other row has the id: no batch, no pending candidate, no saga and no archived saga. -/
structure Fresh (s : WriteRepository) (id : ℕ) : Prop where
  batches : ∀ b ∈ s.batches.rows, b.id ≠ id
  pending : ∀ c, s.pendingCandidate = some c → c.batchId ≠ id
  records : ∀ r ∈ s.records, r.batchId ≠ id

/-- Every id stands for one generation.  The sagas ahead of the counter leave no gap, and what the
counter has passed is a batch or a saga. -/
structure Allotted (g : ℕ → ℕ) (s : WriteRepository) : Prop where
  saga : SagaInvariant s
  window : WindowInvariant s
  batches : ∀ b ∈ s.batches.rows, b.generation = g b.id
  pending : ∀ c, s.pendingCandidate = some c →
    c.batchId ≤ s.batchSequence ∧ c.generation = g c.batchId
  records : ∀ r ∈ s.records, r.candidate.generation = g r.batchId
  filled : ∀ r ∈ s.records, ∀ i, s.batchSequence < i → i ≤ r.batchId → ∃ q ∈ s.records, q.batchId = i
  passed : ∀ i, 0 < i → i ≤ s.batchSequence →
    (∃ b ∈ s.batches.rows, b.id = i) ∨ ∃ r ∈ s.records, r.batchId = i

def stamp (r : SagaRow) : ℕ × ℕ :=
  (r.batchId, r.candidate.generation)

/-- A change that hands out no id and leaves the candidate alone.  A batch goes only when a saga has
its id. -/
structure Retains (s t : WriteRepository) : Prop where
  saga : SagaInvariant s → SagaInvariant t
  window : KeepsWindow s t
  rows : ∀ b ∈ s.batches.rows, (∃ q ∈ t.batches.rows, q.id = b.id) ∨ ∃ r ∈ s.records, r.batchId = b.id
  pending : t.pendingCandidate = s.pendingCandidate
  stamps : t.records.map stamp = s.records.map stamp

variable {g : ℕ → ℕ} {s t : WriteRepository}

theorem mem_stamps {r : SagaRow} (h : t.records.map stamp = s.records.map stamp) (hr : r ∈ t.records) :
    ∃ q ∈ s.records, q.batchId = r.batchId ∧ q.candidate.generation = r.candidate.generation := by
  have hstamp : stamp r ∈ s.records.map stamp := h ▸ List.mem_map_of_mem hr
  obtain ⟨q, hq, heq⟩ := List.mem_map.mp hstamp
  exact ⟨q, hq, congrArg Prod.fst heq, congrArg Prod.snd heq⟩

theorem Allotted.retains (h : Allotted g s) (hst : Retains s t) : Allotted g t where
  saga := hst.saga h.saga
  window := h.window.keeps hst.window
  batches b hb := by
    obtain ⟨a, ha, hid, -, hgeneration⟩ := hst.window.batches b hb
    rw [← hid, ← hgeneration]
    exact h.batches a ha
  pending c hc := by
    rw [hst.window.batchSequence]
    exact h.pending c (hst.pending ▸ hc)
  records r hr := by
    obtain ⟨q, hq, hid, hgeneration⟩ := mem_stamps hst.stamps hr
    rw [← hid, ← hgeneration]
    exact h.records q hq
  filled r hr i hlt hle := by
    obtain ⟨q, hq, hid, -⟩ := mem_stamps hst.stamps hr
    obtain ⟨p, hp, hpi⟩ := h.filled q hq i (hst.window.batchSequence ▸ hlt) (hid ▸ hle)
    obtain ⟨p', hp', hid', -⟩ := mem_stamps hst.stamps.symm hp
    exact ⟨p', hp', hid'.trans hpi⟩
  passed i hpos hle := by
    have hkept : ∀ r ∈ s.records, r.batchId = i → ∃ r' ∈ t.records, r'.batchId = i := by
      intro r hr hi
      obtain ⟨r', hr', hid, -⟩ := mem_stamps hst.stamps.symm hr
      exact ⟨r', hr', hid.trans hi⟩
    rcases h.passed i hpos (hst.window.batchSequence ▸ hle) with ⟨b, hb, rfl⟩ | ⟨r, hr, hi⟩
    · rcases hst.rows b hb with held | ⟨r, hr, hi⟩
      · exact Or.inl held
      · exact Or.inr (hkept r hr hi)
    · exact Or.inr (hkept r hr hi)

theorem Retains.of_tables (hsaga : SagaInvariant s → SagaInvariant t) (hwindow : KeepsWindow s t)
    (hbatches : t.batches = s.batches) (hpending : t.pendingCandidate = s.pendingCandidate)
    (hstamps : t.records.map stamp = s.records.map stamp) : Retains s t :=
  ⟨hsaga, hwindow, fun b hb => Or.inl ⟨b, hbatches ▸ hb, rfl⟩, hpending, hstamps⟩

theorem retains_staged (h : Staged s t) : Retains s t := by
  have hledger := h.ledger
  simp only [ledger, Ledger.mk.injEq] at hledger
  obtain ⟨-, -, hbatches, -, hpending, -, hsagas, -, -, hhistory, -⟩ := hledger
  refine .of_tables (fun hI => (hI.steady_of_ledger h.ledger).invariant) (.of_ledger h.ledger) hbatches
    hpending ?_
  rw [records, records, hsagas, hhistory]

theorem retains_same (h : SameLedger s t) : Retains s t :=
  retains_staged ⟨h.1, h.generation.ge⟩

theorem ids_updated {rows : Table BatchRow.id} (f : BatchRow → BatchRow) (hf : ∀ b, (f b).id = b.id) :
    ∀ b ∈ rows.rows, ∃ q ∈ (rows.update f hf).rows, q.id = b.id :=
  fun b hb => ⟨f b, Table.mem_update.mpr ⟨b, hb, rfl⟩, hf b⟩

theorem retains_activate (s : WriteRepository) : Retains s s.activateRows :=
  ⟨fun hI => hI.activate_steady.invariant, activateRows_keepsWindow s,
    fun b hb => Or.inl (ids_updated _ (fun _ => by split_ifs <;> rfl) b hb), rfl, rfl⟩

theorem retains_fail (s : WriteRepository) (id : ℕ) : Retains s (s.setBatchStatus id .failed) :=
  ⟨fun hI => (hI.batch_steady (.fail id)).invariant, setBatchStatus_keepsWindow s id _,
    fun b hb => Or.inl (ids_updated _ (fun _ => by split_ifs <;> rfl) b hb), rfl, rfl⟩

theorem stamps_mapped {f : SagaRow → SagaRow} (h : ∀ r, stamp (f r) = stamp r) (rows : List SagaRow) :
    (rows.map f).map stamp = rows.map stamp := by
  rw [List.map_map]
  exact List.map_congr_left fun r _ => h r

theorem stamps_updateSaga (s : WriteRepository) (batchId : ℕ) (f : SagaRow → SagaRow)
    (hf : ∀ r, (f r).batchId = r.batchId) (h : ∀ r, stamp (f r) = stamp r) :
    (s.updateSaga batchId f hf).records.map stamp = s.records.map stamp := by
  have hrows : ((s.updateSaga batchId f hf).sagas.rows).map stamp = s.sagas.rows.map stamp := by
    rw [updateSaga, Table.update_rows]
    refine stamps_mapped (fun r => ?_) _
    split_ifs
    · exact h r
    · rfl
  rw [records, records, List.map_append, List.map_append, hrows]
  rfl

theorem stamps_completeArchived (s : WriteRepository) (batchId : ℕ) (server : String) :
    (s.completeArchived batchId server).records.map stamp = s.records.map stamp := by
  have hrows : ((s.completeArchived batchId server).history.rows.map HistoryRow.saga).map stamp =
      (s.history.rows.map HistoryRow.saga).map stamp := by
    rw [completeArchived, Table.update_rows, List.map_map, List.map_map, List.map_map]
    refine List.map_congr_left fun r _ => ?_
    simp only [Function.comp_apply]
    split_ifs <;> rfl
  rw [records, records, List.map_append, List.map_append, hrows]
  rfl

theorem retains_saga {acceptable : RawPublication → Bool} (hmove : SagaMove acceptable s t)
    (hbatches : ∀ b ∈ s.batches.rows,
      (∃ q ∈ t.batches.rows, q.id = b.id) ∨ ∃ r ∈ s.records, r.batchId = b.id)
    (hpending : t.pendingCandidate = s.pendingCandidate)
    (hstamps : t.records.map stamp = s.records.map stamp) : Retains s t :=
  ⟨fun hI => (hI.saga_evolves hmove).invariant, hmove.keepsWindow, hbatches, hpending, hstamps⟩

theorem retains_prune (s : WriteRepository) : Retains s s.pruneRows := by
  have hmove : SagaMove (fun _ => true) s s.pruneRows := .quiet .prune
  refine retains_saga hmove (fun b hb => ?_) rfl rfl
  by_cases hgone : b.id ∈ s.releasable
  · obtain ⟨r, hr, hid⟩ := List.mem_map.mp hgone
    exact Or.inr ⟨r.saga, mem_records.mpr (Or.inr ⟨r, (List.mem_filter.mp hr).1, rfl⟩), hid⟩
  · exact Or.inl ⟨b, Table.mem_filter.mpr ⟨hb, by simpa using hgone⟩, rfl⟩

theorem retains_columns {touched : EndpointWork → Prop} (h : ColumnMove touched s t) : Retains s t := by
  have hmove : SagaMove (fun _ => true) s t := .quiet h.quiet
  cases h with
  | same h => exact retains_same h
  | prune => exact retains_prune s
  | work endpointWork => exact retains_saga hmove (fun b hb => Or.inl ⟨b, hb, rfl⟩) rfl rfl
  | completeArchived hactive h =>
    exact retains_saga hmove (fun b hb => Or.inl ⟨b, hb, rfl⟩) rfl (stamps_completeArchived s _ _)
  | _ =>
    refine retains_saga hmove (fun b hb => Or.inl ⟨b, hb, rfl⟩) rfl ?_
    exact stamps_updateSaga s _ _ _ fun _ => rfl

theorem retains_adopt {server : String} {batchId : ℕ} {acceptable : RawPublication → Bool}
    (hmove : SagaMove acceptable s (adoptServer server batchId s)) :
    Retains s (adoptServer server batchId s) := by
  refine retains_saga hmove (fun b hb => Or.inl ⟨b, hb, rfl⟩) rfl ?_
  have hrows : (adoptServer server batchId s).sagas.rows.map stamp = s.sagas.rows.map stamp := by
    rw [adoptServer, Table.update_rows]
    refine stamps_mapped (fun r => ?_) _
    split_ifs <;> rfl
  rw [records, records, List.map_append, List.map_append, hrows]
  rfl

end Ids

section Handed

variable {g : ℕ → ℕ} {s t : WriteRepository}

theorem exists_maxSagaId (h : 0 < s.maxSagaId) : ∃ r ∈ s.records, r.batchId = s.maxSagaId := by
  have hmax : ∀ ids : List ℕ, 0 < ids.foldr max 0 → ids.foldr max 0 ∈ ids := by
    intro ids
    induction ids with
    | nil => intro hpos; exact absurd hpos (Nat.lt_irrefl 0)
    | cons id rest ih =>
      intro hpos
      rw [List.foldr_cons] at hpos ⊢
      rcases le_total (rest.foldr max 0) id with hle | hle
      · rw [max_eq_left hle]
        exact List.mem_cons_self
      · rw [max_eq_right hle] at hpos ⊢
        exact List.mem_cons_of_mem _ (ih hpos)
  rcases List.mem_append.mp (hmax _ h) with hmem | hmem
  · obtain ⟨r, hr, hid⟩ := List.mem_map.mp hmem
    exact ⟨r, mem_records.mpr (Or.inl hr), hid⟩
  · obtain ⟨r, hr, hid⟩ := List.mem_map.mp hmem
    exact ⟨r.saga, mem_records.mpr (Or.inr ⟨r, hr, rfl⟩), hid⟩

theorem Allotted.fresh_batch (h : Allotted g s) :
    Fresh s (s.batchSequence + 1) ↔ s.maxSagaId ≤ s.batchSequence := by
  constructor
  · intro hfresh
    by_contra hlt
    obtain ⟨r, hr, hid⟩ := exists_maxSagaId (s := s) (by omega)
    obtain ⟨q, hq, hqi⟩ := h.filled r hr (s.batchSequence + 1) (by omega) (by omega)
    exact hfresh.records q hq hqi
  · intro hle
    refine ⟨fun b hb => ?_, fun c hc => ?_, fun r hr => ?_⟩
    · have := h.window.ids b hb
      omega
    · have := (h.pending c hc).1
      omega
    · have := le_maxSagaId hr
      omega

theorem Allotted.fresh_saga (h : Allotted g s) :
    Fresh s (s.maxSagaId + 1) ↔ s.batchSequence ≤ s.maxSagaId := by
  constructor
  · intro hfresh
    by_contra hlt
    rcases h.passed (s.maxSagaId + 1) (by omega) (by omega) with ⟨b, hb, hid⟩ | ⟨r, hr, hid⟩
    · exact hfresh.batches b hb hid
    · exact hfresh.records r hr hid
  · intro hle
    refine ⟨fun b hb => ?_, fun c hc => ?_, fun r hr => ?_⟩
    · have := h.window.ids b hb
      omega
    · have := (h.pending c hc).1
      omega
    · have := le_maxSagaId hr
      omega

theorem claimBatch_open {token : ℕ} {batch : FrozenBatch}
    (h : claimBatch token s = .ok (some batch, t)) :
    s.clock.activeToken = some token ∧ t.records = s.records := by
  rcases claimBatch_ok h with ⟨hnone, -⟩ | ⟨_, _, _, -, htoken, -, -, -, -, rfl⟩
  · simp at hnone
  · exact ⟨htoken, rfl⟩

theorem Allotted.freeze (h : Allotted g s) {row : BatchRow} (hf : Frozen s t row)
    (hsaga : SagaInvariant t) (hrecords : t.records = s.records) (hle : s.maxSagaId ≤ s.batchSequence) :
    Allotted (Function.update g row.id row.generation) t := by
  have hid := hf.id
  have hsequence := hf.batchSequence
  have hold {i : ℕ} (hi : i ≤ s.batchSequence) : Function.update g row.id row.generation i = g i :=
    Function.update_of_ne (by omega) _ _
  refine ⟨hsaga, h.window.frozen hf, fun b hb => ?_, fun c hc => ?_, fun r hr => ?_,
    fun r hr i hlt hi => ?_, fun i hpos hi => ?_⟩
  · rw [hf.batches, List.mem_append, List.mem_singleton] at hb
    rcases hb with hb | rfl
    · rw [hold (h.window.ids b hb)]
      exact h.batches b hb
    · rw [Function.update_self]
  · obtain ⟨hbelow, hgeneration⟩ := h.pending c (hf.pendingCandidate ▸ hc)
    rw [hold hbelow]
    exact ⟨by omega, hgeneration⟩
  · rw [hrecords] at hr
    rw [hold ((le_maxSagaId hr).trans hle)]
    exact h.records r hr
  · rw [hrecords] at hr
    have := le_maxSagaId hr
    omega
  · rw [hf.batches, hrecords]
    by_cases hnew : i = row.id
    · exact Or.inl ⟨row, List.mem_append_right _ List.mem_cons_self, hnew.symm⟩
    · rcases h.passed i hpos (by omega) with ⟨b, hb, hbi⟩ | hrecord
      · exact Or.inl ⟨b, List.mem_append_left _ hb, hbi⟩
      · exact Or.inr hrecord

theorem Allotted.dirty (h : Allotted g s) (generation now : ℕ) (baseRoot : Option String) :
    Allotted g (s.markDirty generation now baseRoot) :=
  ⟨(h.saga.batch_steady (.dirty generation now baseRoot)).invariant, h.window.dirty _ _ _, h.batches,
    h.pending, h.records, h.filled, h.passed⟩

theorem Allotted.record (h : Allotted g s) {batch : FrozenBatch} {build : HashtreeBuild}
    (hstore : storePending batch (candidateOf batch build) build.inventory build.runId s = .ok ((), t))
    (hbatch : batch.id ≤ s.batchSequence ∧ batch.generation = g batch.id) : Allotted g t := by
  have hstored := storePending_stored hstore
  have hrecords : t.records = s.records := by
    rw [WriteRepository.records, WriteRepository.records, hstored.sagas, hstored.history]
  have hkeeps := hstored.keepsWindow
  refine ⟨(h.saga.batch_steady (.record hstore)).invariant, h.window.keeps hkeeps, fun b hb => ?_,
    fun c hc => ?_, hrecords ▸ h.records, ?_, fun i hpos hle => ?_⟩
  · obtain ⟨a, ha, hid, -, hgeneration⟩ := hkeeps.batches b hb
    rw [← hid, ← hgeneration]
    exact h.batches a ha
  · obtain rfl := Option.some.inj (hstored.pendingCandidate.symm.trans hc)
    rw [hstored.batchSequence]
    exact hbatch
  · rw [hrecords, hstored.batchSequence]
    exact h.filled
  · rw [hstored.batchSequence] at hle
    rw [hrecords, hstored.batches]
    rcases h.passed i hpos hle with ⟨b, hb, rfl⟩ | hrecord
    · exact Or.inl (ids_updated _ (fun _ => by split_ifs <;> rfl) b hb)
    · exact Or.inr hrecord

theorem Allotted.claim (h : Allotted g s) {candidate : PendingCandidate} {destinations : List String}
    {now : ℕ} (hc : Claimed s t candidate destinations now) (hsaga : SagaInvariant t)
    (hpending : s.pendingCandidate = some candidate) : Allotted g t := by
  obtain ⟨hbelow, hgeneration⟩ := h.pending candidate hpending
  have hkept := hc.kept h.saga.single
  have hkeeps : KeepsWindow s t :=
    .of_tables hc.clock hc.batchSequence hc.batches hc.batchEntries
  refine ⟨hsaga, h.window.keeps hkeeps, hc.batches ▸ h.batches, fun c hc' => ?_, fun r hr => ?_,
    fun r hr i hlt hle => ?_, fun i hpos hle => ?_⟩
  · exact absurd (hc.pendingCandidate.symm.trans hc') (by simp)
  · rcases hc.mem_records h.saga.single hr with rfl | hr
    · exact hgeneration
    · exact h.records r hr
  · rw [hc.batchSequence] at hlt
    rcases hc.mem_records h.saga.single hr with rfl | hr
    · exact absurd (hlt.trans_le (hle.trans hbelow)) (Nat.lt_irrefl _)
    · obtain ⟨q, hq, rfl⟩ := h.filled r hr i hlt hle
      exact hkept q hq
  · rw [hc.batchSequence] at hle
    rcases h.passed i hpos hle with ⟨b, hb, hid⟩ | ⟨r, hr, rfl⟩
    · exact Or.inl ⟨b, hc.batches ▸ hb, hid⟩
    · exact Or.inr (hkept r hr)

theorem Allotted.refresh (h : Allotted g s) {a : SagaRow} {now : ℕ} (hrows : s.sagas.rows = [a])
    (hc : Refreshed s t a now) (hsaga : SagaInvariant t) (hle : s.batchSequence ≤ s.maxSagaId) :
    Allotted (Function.update g (s.maxSagaId + 1) a.candidate.generation) t := by
  have hold {i : ℕ} (hi : i ≤ s.maxSagaId) :
      Function.update g (s.maxSagaId + 1) a.candidate.generation i = g i :=
    Function.update_of_ne (by omega) _ _
  have hactive : a ∈ s.records := mem_records.mpr (Or.inl (hrows ▸ List.mem_cons_self))
  have hkept := hc.kept hrows
  have hnew : refreshedSaga (readSaga a) (s.maxSagaId + 1) ∈ t.records :=
    mem_records.mpr (Or.inl (hc.sagas ▸ List.mem_cons_self))
  have hkeeps : KeepsWindow s t :=
    .of_tables hc.clock hc.batchSequence hc.batches hc.batchEntries
  have hbelow : ∀ i, s.batchSequence < i → i ≤ s.maxSagaId → ∃ q ∈ t.records, q.batchId = i := by
    intro i hlt hi
    obtain ⟨r, hr, hid⟩ := exists_maxSagaId (s := s) (by omega)
    obtain ⟨q, hq, rfl⟩ := h.filled r hr i hlt (hid ▸ hi)
    exact hkept q hq
  refine ⟨hsaga, h.window.keeps hkeeps, fun b hb => ?_, fun c hc' => ?_, fun r hr => ?_,
    fun r hr i hlt hi => ?_, fun i hpos hi => ?_⟩
  · rw [hc.batches] at hb
    rw [hold ((h.window.ids b hb).trans hle)]
    exact h.batches b hb
  · obtain ⟨hseq, hgeneration⟩ := h.pending c (hc.pendingCandidate ▸ hc')
    rw [hc.batchSequence, hold (hseq.trans hle)]
    exact ⟨hseq, hgeneration⟩
  · rcases hc.mem_records hactive hr with rfl | hr
    · exact (Function.update_self (s.maxSagaId + 1) a.candidate.generation g).symm
    · rw [hold (le_maxSagaId hr)]
      exact h.records r hr
  · rw [hc.batchSequence] at hlt
    by_cases hlast : i = s.maxSagaId + 1
    · exact ⟨_, hnew, hlast.symm⟩
    · refine hbelow i hlt ?_
      rcases hc.mem_records hactive hr with rfl | hr
      · exact Nat.le_of_lt_succ (lt_of_le_of_ne hi hlast)
      · exact hi.trans (le_maxSagaId hr)
  · rw [hc.batchSequence] at hi
    rcases h.passed i hpos hi with ⟨b, hb, hid⟩ | ⟨r, hr, rfl⟩
    · exact Or.inl ⟨b, hc.batches ▸ hb, hid⟩
    · exact Or.inr (hkept r hr)

end Handed

section Claims

variable {g : ℕ → ℕ} {s t : WriteRepository} {candidate : PendingCandidate}

theorem insertSaga_free (destinations : List String)
    (hsagas : ∀ a ∈ s.sagas.rows, a.batchId ≠ candidate.batchId)
    (hblobs : ∀ b ∈ s.sagaBlobs.rows, b.batchId ≠ candidate.batchId) :
    ∃ t, insertSaga candidate destinations s = .ok t := by
  obtain ⟨sagas, hsagas⟩ : ∃ sagas, s.sagas.insert? (freshSaga candidate destinations) = some sagas := by
    apply Option.ne_none_iff_exists'.mp
    rw [Ne, Table.insert?_eq_none]
    rintro ⟨a, ha, hid⟩
    exact hsagas a ha hid
  obtain ⟨sagaBlobs, hinserted⟩ := Option.isSome_iff_exists.mp (Table.insertAll?_isSome.mpr
    (show _ ∧ ∀ r ∈ s.pendingBlobs.rows.filter fun r => r.batchId = candidate.batchId,
        ∀ b ∈ s.sagaBlobs.rows, InventoryRow.key b ≠ InventoryRow.key r from
      ⟨s.pendingBlobs.unique.sublist (List.filter_sublist.map _), fun r hr b hb hkey => by
        obtain ⟨hid, -⟩ := Prod.mk.inj hkey
        exact hblobs b hb (hid.trans (of_decide_eq_true (List.mem_filter.mp hr).2))⟩))
  unfold insertSaga
  rw [hsagas, hinserted]
  exact ⟨_, rfl⟩

theorem Allotted.claims (h : Allotted g s) (destinations : List String) (now : ℕ)
    (hpending : s.pendingCandidate = some candidate)
    (hnewer : ∀ current, s.publicationSaga = some current →
      current.candidate.generation < candidate.generation ∧
        (current.admitted = true ∨ current.signedEvent = none)) :
    ∃ t, claimCandidate candidate destinations now s = .ok ((), t) := by
  have hactive : ∀ a ∈ s.sagas.rows, a.candidate.generation < candidate.generation := fun a ha =>
    (hnewer _ (publicationSaga_of_rows (h.saga.single.rows ha))).1
  have hunused : ∀ r ∈ s.records, r.batchId ≠ candidate.batchId := by
    intro r hr hid
    have holder := h.saga.generation_lt hactive r hr
    rw [h.records r hr, hid, ← (h.pending candidate hpending).2] at holder
    exact absurd holder (Nat.lt_irrefl _)
  have hblobs : ∀ b ∈ s.sagaBlobs.rows, b.batchId ≠ candidate.batchId := by
    intro b hb
    obtain ⟨r, hr, hid⟩ := h.saga.blobsKnown b hb
    exact hid ▸ hunused r hr
  have hsagas : ∀ a ∈ s.sagas.rows, a.batchId ≠ candidate.batchId := fun a ha =>
    hunused a (mem_records.mpr (Or.inl ha))
  unfold claimCandidate
  cases hcurrent : s.publicationSaga with
  | none =>
    obtain ⟨t, ht⟩ := insertSaga_free destinations hsagas hblobs
    exact ⟨t, by simp [ht, Except.map]⟩
  | some current =>
    obtain ⟨hgeneration, hreplaceable⟩ := hnewer current hcurrent
    have hrep : (current.admitted || current.signedEvent.isNone) = true := by
      rcases hreplaceable with h | h <;> simp [h]
    obtain ⟨t, ht⟩ := insertSaga_free (s := s.archiveSaga current.batchId now) destinations
      (fun a ha => hsagas a (Table.mem_filter.mp ha).1) hblobs
    exact ⟨t, by simp [hrep, hgeneration, ht, Except.map]⟩

theorem adoptPriorServer_ends : Ends (fun s => ∃ g, Allotted g s) adoptPriorServer (fun _ => True)
    fun result t => (∃ g, Allotted g t) ∧ result = .ok () := by
  have hpure : ∀ s, (∃ g, Allotted g s) → Ends (fun t => t = s) (Pure.pure () : RepositoryProgram Unit)
      (fun _ => True) fun result t => (∃ g, Allotted g t) ∧ result = .ok () :=
    fun s hs => Ends.pure () fun t ht => ⟨ht ▸ hs, rfl⟩
  refine Ends.read_bind fun s hs => ?_
  split
  · exact hpure s hs
  · next current hcurrent =>
    split_ifs with hunset
    · split
      · next prior hprior =>
        split
        · next server hserver =>
          refine Ends.commit (fun _ _ => trivial) fun t ht => ⟨?_, rfl⟩
          obtain ⟨g, hg⟩ := hs
          subst ht
          have hmove : SagaMove (fun _ => true) t (adoptServer server current.batchId t) :=
            .claim (.adopt hcurrent hunset hprior hserver)
          exact ⟨g, hg.retains (retains_adopt hmove)⟩
        · exact hpure s hs
      · exact hpure s hs
    · exact hpure s hs

theorem claimCandidate_ends {s : WriteRepository} (hs : ∃ g, Allotted g s) (destinations : List String)
    (now : ℕ) (hpending : s.pendingCandidate = some candidate)
    (hnewer : ∀ current, s.publicationSaga = some current →
      current.candidate.generation < candidate.generation ∧
        (current.admitted = true ∨ current.signedEvent = none)) :
    Ends (fun t => t = s) (do
      Program.transaction (claimCandidate candidate destinations now)
      let t ← Program.read
      pure t.publicationSaga) (fun _ => True) fun result _ => result ≠ .error .uniqueConstraint := by
  obtain ⟨g, hg⟩ := hs
  obtain ⟨t, ht⟩ := hg.claims destinations now hpending hnewer
  refine Ends.bind (R := fun result _ => result = .ok ()) ?_ (fun _ => ?_) ?_
  · rintro _ rfl
    rw [Program.transaction_run_ok ht]
    exact ⟨fun _ _ => trivial, rfl⟩
  · exact Ends.read_bind fun _ _ => Ends.pure _ fun _ _ => by simp
  · intro e _ he
    exact absurd he (by simp)

theorem claimPublication_ends (destinations : List String) (now : ℕ) :
    Ends (fun s => ∃ g, Allotted g s) (claimPublication destinations now) (fun _ => True)
      fun result _ => result ≠ .error .uniqueConstraint := by
  refine Ends.bind adoptPriorServer_ends (fun _ => Ends.read_bind fun s hs => ?_) fun e s hs =>
    absurd hs.2 (by simp)
  have hpure : ∀ saga : Option SagaRow, Ends (fun t => t = s)
      (Pure.pure saga : RepositoryProgram (Option SagaRow)) (fun _ => True)
      fun result _ => result ≠ .error .uniqueConstraint := fun saga => Ends.pure saga fun _ _ => by simp
  split
  · exact hpure _
  · exact hpure _
  · next current candidate hcurrent hpending =>
    split_ifs with hkeep hempty
    · exact hpure _
    · exact hpure _
    · refine claimCandidate_ends hs.1 destinations now hpending fun r hr => ?_
      obtain rfl : current = r := by simpa [hcurrent] using hr
      push Not at hkeep
      refine ⟨hkeep.1, ?_⟩
      cases hadmitted : current.admitted with
      | true => exact Or.inl rfl
      | false => exact Or.inr (by simpa using hkeep.2 hadmitted)
  · next candidate hcurrent hpending =>
    split_ifs with hempty
    · exact hpure _
    · exact claimCandidate_ends hs.1 destinations now hpending fun r hr => by simp [hcurrent] at hr

end Claims

section Programs

/-- Every id stands for one generation, and so do those of the batches to be built. -/
def Ids (queue : List FrozenBatch) (j : BatchJournal) : Prop :=
  ∃ g, Allotted g j.state ∧
    ∀ batch ∈ queue, batch.id ≤ j.state.batchSequence ∧ batch.generation = g batch.id

variable {queue rest : List FrozenBatch} {j : BatchJournal} {sch : Scheduler}

theorem Ids.shorten (h : Ids queue j) (hsub : rest ⊆ queue) : Ids rest j := by
  obtain ⟨g, hg, hqueue⟩ := h
  exact ⟨g, hg, fun batch hbatch => hqueue batch (hsub hbatch)⟩

theorem Ids.stop (h : Ids queue j) : Ids [] j :=
  h.shorten (List.nil_subset _)

theorem Ids.retains {s t : WriteRepository} {log entries : List Mark} (h : Ids queue ⟨s, log⟩)
    (hst : Retains s t) : Ids queue ⟨t, entries⟩ := by
  obtain ⟨g, hg, hqueue⟩ := h
  refine ⟨g, hg.retains hst, fun batch hbatch => ?_⟩
  rw [hst.window.batchSequence]
  exact hqueue batch hbatch

theorem retains_ids {α : Type} {m : RepositoryProgram α} (hm : Advances Retains m)
    (note : WriteRepository → WriteRepository → List Mark) : Preserves (Ids queue) (m.logged note) := by
  refine Advances.logged hm fun s t log hmoves h => ?_
  have hstate : ∀ entries, Ids queue ⟨t, entries⟩ := by
    induction hmoves with
    | refl => exact fun _ => h
    | tail _ hmove ih => exact fun _ => (ih []).retains hmove
  exact hstate _

theorem markBatchFailed_ids (id : ℕ) :
    Preserves (Ids queue) ((markBatchFailed id).logged noteNothing) :=
  retains_ids (fun s => AdvancesFrom.commit (retains_fail s id)) noteNothing

def Numbers (P : BatchJournal → Prop) (m : SchedulerProgram Scheduler) : Prop :=
  Triple P m (Ids []) fun next => Ids next.queue

theorem Numbers.pure (h : sch.queue = queue) : Numbers (Ids queue) (Pure.pure sch) :=
  Triple.pure sch fun _ hj => h ▸ hj

theorem Numbers.drop {m : SchedulerProgram Unit} (hm : Preserves (Ids sch.queue) m)
    (hsub : sch.queue ⊆ queue) : Numbers (Ids queue) (m >>= fun _ => Pure.pure sch) := by
  refine Triple.bind (hm.mono (fun _ hj => hj.shorten hsub) (fun _ hj => hj.stop) fun _ _ hj => hj)
    fun _ => ?_
  exact Triple.pure sch fun _ hj => hj

variable (quietDelay : ℕ)

theorem dirty_ids (c : Readings) (generation : ℕ) (baseRoot : Option String) (sch : Scheduler) :
    Numbers (Ids sch.queue) (dirty quietDelay c generation baseRoot sch) := by
  unfold dirty
  split_ifs with hclosed
  · exact Numbers.pure rfl
  · refine Triple.bind (R := fun _ => Ids sch.queue) ?_ fun _ => Triple.pure _ fun _ hj => hj
    rintro j ⟨g, hg, hqueue⟩
    have hdirty : Ids sch.queue ⟨j.state.markDirty generation c.now baseRoot,
        noteDirty generation c.now j.state (j.state.markDirty generation c.now baseRoot) ++ j.log⟩ :=
      ⟨g, hg.dirty generation c.now baseRoot, hqueue⟩
    refine ⟨fun k hk => ?_, fun _ _ => hdirty⟩
    obtain rfl := List.mem_singleton.mp hk
    exact hdirty.stop

/-- The window that the token stands for is frozen only while no saga is ahead of the counter. -/
def Behind (token : ℕ) (s : WriteRepository) : Prop :=
  s.clock.activeToken = some token → s.maxSagaId ≤ s.batchSequence

theorem claim_ids (token : ℕ) (queue : List FrozenBatch) :
    Triple (fun j => Ids queue j ∧ Behind token j.state)
      (Program.attempt ((claimPublicationBatch token).logged noteBatch)) (Ids [])
      fun claim => Ids (queue ++ (claim.toOption.join).toList) := by
  rintro j ⟨hj, hbehind⟩
  cases hclaim : claimBatch token j.state with
  | error e =>
    have hrun : (claimPublicationBatch token).run j.state = ⟨[], .error e⟩ :=
      Program.transaction_run_error hclaim
    simp only [Program.attempt, Program.logged, hrun, List.map_nil, List.not_mem_nil,
      IsEmpty.forall_iff, implies_true, Except.ok.injEq, forall_eq', true_and]
    exact hj.shorten (by simp [Except.toOption])
  | ok r =>
    obtain ⟨batch, t⟩ := r
    have hrun : (claimPublicationBatch token).run j.state = ⟨[t], .ok batch⟩ :=
      Program.transaction_run_ok hclaim
    have hids : Ids (queue ++ batch.toList) ⟨t, noteBatch j.state t ++ j.log⟩ := by
      cases batch with
      | none =>
        obtain rfl := claimBatch_none hclaim
        simpa using hj.retains (retains_same ⟨rfl, rfl⟩)
      | some batch =>
        obtain ⟨g, hg, hqueue⟩ := hj
        obtain ⟨row, hfrozen, hid, -, hgeneration⟩ := claimBatch_frozen hclaim
        obtain ⟨hactive, hrecords⟩ := claimBatch_open hclaim
        have hsaga := (hg.saga.batch_steady (.claim hclaim)).invariant
        have hnext := hfrozen.id
        have hsequence := hfrozen.batchSequence
        refine ⟨_, hg.freeze hfrozen hsaga hrecords (hbehind hactive), fun b hb => ?_⟩
        rcases List.mem_append.mp hb with hb | hb
        · obtain ⟨hle, hb⟩ := hqueue b hb
          rw [Function.update_of_ne (by omega)]
          exact ⟨by simp only; omega, hb⟩
        · obtain rfl : b = batch := by simpa using hb
          rw [hid, Function.update_self]
          exact ⟨hsequence.ge, hgeneration⟩
    simp only [Program.attempt, Program.logged, hrun, List.map_cons, List.map_nil]
    refine ⟨fun k hk => ?_, fun claim hclaim => ?_⟩
    · obtain rfl := List.mem_singleton.mp hk
      exact hids.stop
    · obtain rfl := Except.ok.inj hclaim
      exact hids

theorem fire_ids (token : ℕ) (sch : Scheduler) :
    Numbers (fun j => Ids sch.queue j ∧ (sch.closed = false → Behind token j.state))
      (fire token sch) := by
  unfold fire
  split_ifs with hclosed
  · exact Triple.pure sch fun _ hj => hj.1
  · refine Triple.bind ((claim_ids token sch.queue).mono (fun _ hj => ⟨hj.1, hj.2 (by simpa using hclosed)⟩)
      (fun _ hj => hj) fun _ _ hj => hj) fun claim => ?_
    split
    · exact Triple.pure _ fun _ hj => hj
    · exact Triple.pure _ fun _ hj => hj.shorten (List.subset_append_left _ _)

def firing (now : ℕ) (timer : Option Timer) (sch : Scheduler) : Option ℕ :=
  if sch.closed then none else (timer.filter fun t => t.due ≤ now).map Timer.token

theorem timerFires_ids (now : ℕ) (timer : Option Timer) (sch : Scheduler) :
    Numbers (fun j => Ids sch.queue j ∧ ∀ token, firing now timer sch = some token → Behind token j.state)
      (timerFires now timer sch) := by
  unfold timerFires
  split
  · next timer =>
    split_ifs with hdue
    · refine (fire_ids timer.token sch).mono (fun j hj => ⟨hj.1, fun hclosed => hj.2 _ ?_⟩)
        (fun _ hj => hj) fun _ _ hj => hj
      simp [firing, hclosed, hdue]
    · exact Triple.pure sch fun _ hj => hj.1
  · exact Triple.pure sch fun _ hj => hj.1

theorem buildStarts_ids (sch : Scheduler) : Numbers (Ids sch.queue) (buildStarts sch) := by
  unfold buildStarts
  split
  · next batch queue _ hqueue =>
    refine Triple.bind (R := fun _ => Ids sch.queue) (Triple.read fun _ hj => hj) fun j => ?_
    split_ifs
    · exact Numbers.pure rfl
    · refine Numbers.drop (markBatchFailed_ids batch.id) ?_
      rw [hqueue]
      exact List.subset_cons_self _ _
  · exact Numbers.pure rfl

theorem recordBuild_ids (fails : String → Option String) (now : ℕ) (batch : FrozenBatch)
    (answer : Option HashtreeBuild) (rest : List FrozenBatch) :
    Triple (Ids (batch :: rest)) (recordBuild fails now batch answer) (Ids []) fun _ => Ids rest := by
  have hdrop : rest ⊆ batch :: rest := List.subset_cons_self _ _
  have hfail : Triple (Ids rest) ((markBatchFailed batch.id).logged noteNothing) (Ids [])
      fun _ => Ids rest :=
    (markBatchFailed_ids batch.id).mono (fun _ hj => hj) (fun _ hj => hj.stop) fun _ _ hj => hj
  cases answer with
  | none => exact hfail.mono (fun _ hj => hj.shorten hdrop) (fun _ hj => hj) fun _ _ hj => hj
  | some build =>
    refine Triple.bind (R := fun _ => Ids rest) (fun j hj => ?_) fun result => ?_
    · have hcommits : ∀ k ∈ (((recordPending fails now batch (candidateOf batch build)
          build.inventory build.runId).logged (noteRecorded batch.generation)).attempt.run j).commits,
          Ids rest k := by
        intro k hk
        obtain ⟨t, ht, rfl⟩ := List.mem_map.mp hk
        obtain ⟨u, hstore, hut⟩ := recordPending_commits ht
        obtain ⟨g, hg, hqueue⟩ := hj
        have hstored : Ids rest ⟨u, []⟩ := by
          refine ⟨g, hg.record hstore (hqueue batch List.mem_cons_self), fun b hb => ?_⟩
          rw [(storePending_stored hstore).batchSequence]
          exact hqueue b (List.mem_cons_of_mem _ hb)
        exact hstored.retains (retains_same hut)
      refine ⟨fun k hk => (hcommits k hk).stop, fun result _ => ?_⟩
      rcases (((recordPending fails now batch (candidateOf batch build) build.inventory
        build.runId).logged (noteRecorded batch.generation)).attempt.run j).final_mem j with h | h
      · rw [h]
        exact hj.shorten hdrop
      · exact hcommits _ h
    · split
      · exact Triple.pure _ fun _ hj => hj
      · exact hfail

theorem buildEnds_ids (fails : String → Option String) (now : ℕ) (answer : Option HashtreeBuild)
    (sch : Scheduler) : Numbers (Ids sch.queue) (buildEnds fails now answer sch) := by
  unfold buildEnds
  split
  · next batch queue _ hqueue =>
    rw [hqueue]
    refine Triple.bind (recordBuild_ids fails now batch answer queue) fun _ => ?_
    exact Triple.pure _ fun _ hj => hj
  · exact Numbers.pure rfl

theorem Allotted.failed {g : ℕ → ℕ} {s : WriteRepository} (h : Allotted g s) :
    ∀ batch ∈ s.failedBatches, batch.id ≤ s.batchSequence ∧ batch.generation = g batch.id := by
  intro batch hbatch
  obtain ⟨b, hb, rfl⟩ := List.mem_map.mp hbatch
  have hrow := (List.mem_filter.mp ((List.mem_insertionSort _).mp hb)).1
  exact ⟨h.window.ids b hrow, h.batches b hrow⟩

variable (digest : Bytes → String)

theorem restart_ids (l : SchedulerLabel) (retries : String → Option String) (queue : List FrozenBatch) :
    Numbers (Ids queue) (restart digest quietDelay l retries) := by
  have hreopen : Advances Retains (reopen digest l.fails retries l.readings.now) :=
    reopen_advances digest (fun _ _ h => retains_same h) retains_activate _ _ _
  refine Triple.bind (R := fun _ => Ids []) ?_ fun _ => ?_
  · exact (retains_ids hreopen noteNothing).mono (fun _ hj => hj.stop) (fun _ hj => hj) fun _ _ hj => hj
  · refine Triple.bind (R := fun i j => i = j ∧ Ids [] j) (Triple.read fun _ hj => ⟨rfl, hj⟩) fun i => ?_
    have hconstructed : ∀ j, i = j ∧ Ids [] j → Ids i.state.failedBatches j := by
      rintro j ⟨rfl, g, hg, -⟩
      exact ⟨g, hg, hg.failed⟩
    dsimp only
    split
    · exact Triple.pure _ hconstructed
    · exact Triple.pure _ hconstructed

theorem staging_ids (l : SchedulerLabel) (op : StagingOp) (sch : Option Scheduler) :
    Triple (Ids (queueOf sch))
      (alongside noteNothing (stagingProgram digest l.fails l.readings.now op) sch) (Ids [])
      fun next => Ids (queueOf next) := by
  have hstaging : Advances Retains (stagingProgram digest l.fails l.readings.now op) :=
    Advances.mono (fun _ _ h => retains_staged h) (staging_advances digest l.fails l.readings.now op)
  have hkeeps : Preserves (Ids (queueOf sch)) _ := (retains_ids hstaging noteNothing).attempt
  refine Triple.bind (hkeeps.mono (fun _ hj => hj) (fun _ hj => hj.stop) fun _ _ hj => hj) fun _ => ?_
  exact Triple.pure sch fun _ hj => hj

end Programs

section Sagas

variable {g : ℕ → ℕ} {s t : WriteRepository} {acceptable : RawPublication → Bool}

/-- A saga operation either takes the pending candidate, or refreshes the active saga, or hands out no
id. -/
theorem Allotted.refreshed (h : Allotted g s) {now lead : ℕ}
    (ht : t ∈ ((beginPublicationRefresh now lead).run s).commits)
    (hahead : (s.refreshable now lead).isSome = true → s.batchSequence ≤ s.maxSagaId) :
    ∃ generation, Allotted (Function.update g (s.maxSagaId + 1) generation) t ∧
      s.batchSequence ≤ s.maxSagaId ∧ t.batchSequence = s.batchSequence := by
  rw [beginPublicationRefresh, Program.bind_read_run] at ht
  cases hsaga : s.refreshable now lead with
  | none =>
    rw [hsaga] at ht
    exact absurd ht List.not_mem_nil
  | some saga =>
    rw [hsaga] at ht
    have hle := hahead (by simp [hsaga])
    cases hrefresh : refreshSaga saga now s with
    | error e =>
      dsimp only at ht
      rw [Program.bind_run_error (by rw [Program.transaction_run_error hrefresh]),
        Program.transaction_run_error hrefresh] at ht
      exact absurd ht List.not_mem_nil
    | ok r =>
      obtain ⟨⟨⟩, u⟩ := r
      have hrun := Program.transaction_run_ok hrefresh
      dsimp only at ht
      rw [Program.bind_run_ok (a := ()) (by rw [hrun]), hrun] at ht
      obtain rfl : t = u := by simpa using ht
      obtain ⟨a, hrows, rfl⟩ := h.saga.single.publicationSaga (Option.filter_eq_some_iff.mp hsaga).1
      have hmove : SagaMove (fun _ => true) s t := .quiet (.refresh (.refresh hsaga hrefresh))
      have hinvariant := (h.saga.saga_evolves hmove).invariant
      have hc := refreshSaga_refreshed hrows hrefresh
      exact ⟨_, h.refresh hrows hc hinvariant hle, hle, hc.batchSequence⟩

theorem Allotted.claimMove (h : Allotted g s) (hmove : ClaimMove s t) :
    Allotted g t ∧ t.batchSequence = s.batchSequence := by
  have hsaga : SagaMove (fun _ => true) s t := .claim hmove
  refine ⟨?_, hsaga.keepsWindow.batchSequence⟩
  have hinvariant := (h.saga.saga_evolves hsaga).invariant
  cases hmove with
  | adopt => exact h.retains (retains_adopt hsaga)
  | claim hpending hnewer hclaim =>
    exact h.claim (claimCandidate_claimed h.saga.single hnewer hclaim) hinvariant hpending

theorem retains_signed {batchId : ℕ} {template : EventTemplate} {event : RawPublication}
    (ht : t ∈ ((recordSigned acceptable batchId template event).run s).commits) : Retains s t := by
  rw [recordSigned, Program.bind_read_run] at ht
  split at ht
  · exact absurd ht List.not_mem_nil
  · next saga hsaga =>
    split_ifs at ht with hcomplete hmatches himmutable
    · exact absurd ht List.not_mem_nil
    · exact absurd ht List.not_mem_nil
    · obtain ⟨htemplate, haccepted⟩ := Bool.and_eq_true_iff.mp hmatches
      obtain rfl : t = s.updateSaga batchId (setSigned template event) fun _ => rfl := by simpa using ht
      have hmove : SagaMove acceptable s
          (s.updateSaga batchId (setSigned template event) fun _ => rfl) :=
        .quiet (.sign hsaga hcomplete htemplate haccepted)
      refine retains_saga hmove (fun b hb => Or.inl ⟨b, hb, rfl⟩) rfl ?_
      exact stamps_updateSaga s _ _ _ fun _ => rfl
    · exact absurd ht List.not_mem_nil

def SchedulerEvent.refreshes (s : WriteRepository) (now : ℕ) : SchedulerEvent → Bool
  | .saga (.beginPublicationRefresh lead) => (s.refreshable now lead).isSome
  | _ => false

theorem Allotted.sagaOp (h : Allotted g s) {fails : String → Option String} {now : ℕ} (op : SagaOp)
    (ht : t ∈ ((sagaProgram acceptable fails now op).run s).commits)
    (hahead : (SchedulerEvent.saga op).refreshes s now = true → s.batchSequence ≤ s.maxSagaId) :
    ∃ g', Allotted g' t ∧ t.batchSequence = s.batchSequence ∧
      ∀ i, i ≤ s.batchSequence → g' i = g i := by
  have hkeep (hR : Relation.ReflTransGen Retains s t) : Allotted g t ∧ t.batchSequence = s.batchSequence := by
    clear ht hahead
    induction hR with
    | refl => exact ⟨h, rfl⟩
    | tail _ hmove ih => exact ⟨ih.1.retains hmove, hmove.window.batchSequence.trans ih.2⟩
  have hkept (hR : Relation.ReflTransGen Retains s t) : ∃ g', Allotted g' t ∧
      t.batchSequence = s.batchSequence ∧ ∀ i, i ≤ s.batchSequence → g' i = g i :=
    ⟨g, (hkeep hR).1, (hkeep hR).2, fun _ _ => rfl⟩
  cases hplain : op.plain with
  | true =>
    exact hkept (Relation.ReflTransGen.mono (fun _ _ h => retains_columns h) _ _
      (plain_advances acceptable fails now op hplain s t ht))
  | false =>
    cases op with
    | claimPublication destinations =>
      have hmoves := advances_discarded (claimPublication_advances now destinations) s t ht
      have hclaimed : Allotted g t ∧ t.batchSequence = s.batchSequence := by
        clear ht hahead hkeep hkept
        induction hmoves with
        | refl => exact ⟨h, rfl⟩
        | tail _ hmove ih =>
          obtain ⟨hnext, hsequence⟩ := ih.1.claimMove hmove
          exact ⟨hnext, hsequence.trans ih.2⟩
      exact ⟨g, hclaimed.1, hclaimed.2, fun _ _ => rfl⟩
    | beginPublicationRefresh lead =>
      have hcommit : t ∈ ((beginPublicationRefresh now lead).run s).commits := by
        rw [sagaProgram, discarded] at ht
        cases hresult : ((beginPublicationRefresh now lead).run s).result with
        | error e => rwa [Program.bind_run_error hresult] at ht
        | ok a => simpa [Program.bind_run_ok hresult] using ht
      obtain ⟨generation, hnext, hle, hsequence⟩ := h.refreshed hcommit hahead
      exact ⟨_, hnext, hsequence, fun i hi => Function.update_of_ne (by omega) _ _⟩
    | recordBlobProof batchId server hash =>
      obtain ⟨saga, hsaga, hserver, hblob, rfl⟩ := recordBlobProof_commits ht
      have hmove : SagaMove (fun _ => true) s _ := .prove hsaga hserver hblob
      exact hkept (.single (retains_saga hmove (fun b hb => Or.inl ⟨b, hb, rfl⟩) rfl rfl))
    | recordSigned batchId template event =>
      exact hkept (.single (retains_signed ht))
    | _ => cases hplain

theorem saga_ids (l : SchedulerLabel) (op : SagaOp) (sch : Option Scheduler) :
    Triple (fun j => Ids (queueOf sch) j ∧
        ((SchedulerEvent.saga op).refreshes j.state l.readings.now = true →
          j.state.batchSequence ≤ j.state.maxSagaId))
      (alongside noteTaken (sagaProgram acceptable l.fails l.readings.now op) sch) (Ids [])
      fun next => Ids (queueOf next) := by
  refine Triple.bind (R := fun _ => Ids (queueOf sch)) (fun j hj => ?_) fun _ =>
    Triple.pure sch fun _ hj => hj
  obtain ⟨hj, hahead⟩ := hj
  have hcommits : ∀ k ∈ (((sagaProgram acceptable l.fails l.readings.now op).logged
      noteTaken).attempt.run j).commits, Ids (queueOf sch) k := by
    intro k hk
    obtain ⟨t, ht, rfl⟩ := List.mem_map.mp hk
    obtain ⟨g, hg, hqueue⟩ := hj
    obtain ⟨g', hnext, hsequence, hsame⟩ := hg.sagaOp op ht hahead
    refine ⟨g', hnext, fun batch hbatch => ?_⟩
    obtain ⟨hle, hgeneration⟩ := hqueue batch hbatch
    exact ⟨hsequence ▸ hle, (hsame _ hle).symm ▸ hgeneration⟩
  refine ⟨fun k hk => (hcommits k hk).stop, fun _ _ => ?_⟩
  rcases (((sagaProgram acceptable l.fails l.readings.now op).logged noteTaken).attempt.run j).final_mem
    j with h | h
  · rw [h]
    exact hj
  · exact hcommits _ h

end Sagas

section Machine

variable (digest : Bytes → String) (acceptable : RawPublication → Bool) (quietDelay : ℕ)

def SchedulerEvent.firing (now : ℕ) : SchedulerEvent → Scheduler → Option ℕ
  | .quietFires, sch => BatchScheduler.firing now sch.quiet sch
  | .maximumFires, sch => BatchScheduler.firing now sch.maximum sch
  | _, _ => none

/-- No window is frozen once a saga is ahead of the counter of the batches, and no saga is refreshed
while the counter is ahead of the sagas. -/
def Apart (w : SchedulerState) (l : SchedulerLabel) : Prop :=
  (∀ token ∈ w.scheduler.bind (l.event.firing l.readings.now), Behind token w.journal.state) ∧
  (l.event.refreshes w.journal.state l.readings.now = true →
    w.journal.state.batchSequence ≤ w.journal.state.maxSagaId)

instance (token : ℕ) (s : WriteRepository) : Decidable (Behind token s) :=
  inferInstanceAs (Decidable (_ → _))

instance (w : SchedulerState) (l : SchedulerLabel) : Decidable (Apart w l) :=
  inferInstanceAs (Decidable (_ ∧ _))

theorem runs_ids {P : BatchJournal → Prop} {m : SchedulerProgram Scheduler} (h : Numbers P m) :
    Triple P (runs m) (Ids []) fun next => Ids (queueOf next) :=
  Triple.bind h fun next => Triple.pure (some next) fun _ hj => hj

theorem program_ids (l : SchedulerLabel) (sch : Option Scheduler) :
    Triple (fun j => Ids (queueOf sch) j ∧ Apart ⟨j, sch⟩ l)
      (l.program digest acceptable quietDelay sch) (Ids []) fun next => Ids (queueOf next) := by
  have hruns {P : BatchJournal → Prop} {m : SchedulerProgram Scheduler} (h : Numbers P m)
      (hP : ∀ j, Ids (queueOf sch) j ∧ Apart ⟨j, sch⟩ l → P j) :
      Triple (fun j => Ids (queueOf sch) j ∧ Apart ⟨j, sch⟩ l) (runs m) (Ids [])
        fun next => Ids (queueOf next) :=
    (runs_ids h).mono hP (fun _ hj => hj) fun _ _ hj => hj
  unfold SchedulerLabel.program
  split
  · exact hruns (dirty_ids _ _ _ _ _) fun _ hj => hj.1
  · next sch hevent =>
    refine hruns (timerFires_ids _ _ _) fun j hj => ⟨hj.1, fun token htoken => hj.2.1 token ?_⟩
    simpa [hevent, SchedulerEvent.firing] using htoken
  · next sch hevent =>
    refine hruns (timerFires_ids _ _ _) fun j hj => ⟨hj.1, fun token htoken => hj.2.1 token ?_⟩
    simpa [hevent, SchedulerEvent.firing] using htoken
  · exact hruns (buildStarts_ids _) fun _ hj => hj.1
  · exact hruns (buildEnds_ids _ _ _ _) fun _ hj => hj.1
  · exact Triple.pure _ fun _ hj => hj.1
  · exact hruns (restart_ids quietDelay digest l _ _) fun _ hj => hj.1
  · exact (staging_ids digest l _ _).mono (fun _ hj => hj.1) (fun _ hj => hj) fun _ _ hj => hj
  · next _ op hevent =>
    refine (saga_ids l op _).mono (fun j hj => ⟨hj.1, fun hrefreshes => hj.2.2 ?_⟩) (fun _ hj => hj)
      fun _ _ hj => hj
    rw [hevent]
    exact hrefreshes
  · exact Triple.pure none fun _ hj => hj.1.stop

theorem schedulerStep_ids {w : SchedulerState} {l : SchedulerLabel}
    (h : Ids (queueOf w.scheduler) w.journal) (hapart : Apart w l) :
    let next := schedulerStep digest acceptable quietDelay w l
    Ids (queueOf next.scheduler) next.journal :=
  schedulerStep_of_triple digest acceptable (program_ids digest acceptable quietDelay l w.scheduler)
    ⟨h, hapart⟩ h.stop (fun _ hj => hj) fun _ hj => hj.retains (retains_same ⟨rfl, rfl⟩)

theorem ids_initial (capacity : ℕ) :
    let w := schedulerInitial capacity
    Ids (queueOf w.scheduler) w.journal := by
  refine ⟨fun _ => 0, ⟨initial_invariant capacity, windowInvariant_initial capacity, ?_, ?_, ?_, ?_, ?_⟩,
    ?_⟩
  · intro b hb
    exact absurd hb List.not_mem_nil
  · intro c hc
    exact absurd hc (by simp [schedulerInitial, WriteRepository.initial])
  · intro r hr
    exact absurd hr List.not_mem_nil
  · intro r hr
    exact absurd hr List.not_mem_nil
  · intro i hpos hle
    exact absurd (hpos.trans_le hle) (Nat.lt_irrefl 0)
  · intro b hb
    exact absurd hb List.not_mem_nil

/-- In every state that such a run reaches the next batch and the next refreshed saga take a fresh id
exactly under the same conditions, no claim fails on a key, and an archived saga shares its id with no
active saga, and with no batch or candidate of another generation. -/
theorem ids_stay_apart (capacity : ℕ) (labels : List SchedulerLabel)
    (h : Always (schedulerStep digest acceptable quietDelay) Apart (schedulerInitial capacity) labels) :
    let s := (run (schedulerStep digest acceptable quietDelay) (schedulerInitial capacity)
      labels).journal.state
    (∀ token batch t, claimBatch token s = .ok (some batch, t) →
      (Fresh s batch.id ↔ s.maxSagaId ≤ s.batchSequence)) ∧
    (∀ now lead saga t, s.refreshable now lead = some saga → refreshSaga saga now s = .ok ((), t) →
      ∃ a, t.sagas.rows = [a] ∧ (Fresh s a.batchId ↔ s.batchSequence ≤ s.maxSagaId)) ∧
    (∀ destinations now, ((claimPublication destinations now).run s).result ≠ .error .uniqueConstraint) ∧
    ∀ r ∈ s.history.rows, (∀ a ∈ s.sagas.rows, a.batchId ≠ r.batchId) ∧
      (∀ b ∈ s.batches.rows, b.id = r.batchId → b.generation = r.saga.candidate.generation) ∧
      ∀ c, s.pendingCandidate = some c → c.batchId = r.batchId →
        c.generation = r.saga.candidate.generation := by
  have hstep : ∀ (w : SchedulerState) l, Ids (queueOf w.scheduler) w.journal → Apart w l →
      Ids (queueOf (schedulerStep digest acceptable quietDelay w l).scheduler)
        (schedulerStep digest acceptable quietDelay w l).journal :=
    fun w l hw hapart => schedulerStep_ids digest acceptable quietDelay hw hapart
  obtain ⟨g, hg, -⟩ := run_invariant hstep (ids_initial capacity) h
  refine ⟨fun token batch t hclaim => ?_, fun now lead saga t hsaga hrefresh => ?_, fun destinations now => ?_,
    fun r hr => ?_⟩
  · obtain ⟨row, hfrozen, hid, -, -⟩ := claimBatch_frozen hclaim
    rw [hid, hfrozen.id]
    exact hg.fresh_batch
  · obtain ⟨a, hrows, rfl⟩ := hg.saga.single.publicationSaga (Option.filter_eq_some_iff.mp hsaga).1
    exact ⟨_, (refreshSaga_refreshed hrows hrefresh).sagas, hg.fresh_saga⟩
  · exact (claimPublication_ends destinations now _ ⟨g, hg⟩).2
  · have hrecord := hg.records r.saga (mem_records.mpr (Or.inr ⟨r, hr, rfl⟩))
    refine ⟨fun a ha hid => ?_, fun b hb hid => ?_, fun c hc hid => ?_⟩
    · have hactive := hg.records a (mem_records.mpr (Or.inl ha))
      have hbefore := hg.saga.older a ha r hr
      rw [hid] at hactive
      change r.saga.candidate.generation = g r.batchId at hrecord
      change a.batchId = r.saga.batchId at hid
      unfold SagaRow.Before at hbefore
      omega
    · rw [hg.batches b hb, hid]
      exact hrecord.symm
    · rw [(hg.pending c hc).2, hid]
      exact hrecord.symm

end Machine

section Collisions

def treeWith (root : String) : HashtreeBuild where
  rootHex := root
  rootNhash := root
  rootBlob := ⟨root, 1, root⟩
  otherBlobs := [⟨"shared", 1, "shared"⟩]
  totalBytes := 2
  runId := none

def admittedTags : List (List String) :=
  [["expiration", "1"]]

def admittedEvent : RawPublication where
  id := "event"
  pubkey := ""
  createdAt := 0
  kind := 0
  tags := admittedTags
  content := ""
  sig := ""

/-- The saga of the first batch is proven, signed, acknowledged, committed and admitted. -/
def admitFirst : List SchedulerEvent :=
  [.saga (.claimPublication ["server"]), .saga (.recordBlobProof 1 "server" "root"),
    .saga (.recordBlobProof 1 "server" "shared"), .saga (.recordCompleteServer 1 "server"),
    .saga (.recordSigned 1 ⟨0, 0, admittedTags, ""⟩ admittedEvent),
    .saga (.recordRelayAcknowledgement 1 "relay"), .saga (.commitPublication 1),
    .saga (.markPublicationAdmitted 1)]

def refreshedBetween : List SchedulerLabel :=
  (SchedulerEvent.restart (fun _ => none) :: publishPath "a" 1 (some (treeWith "root")) ++ admitFirst ++
    [SchedulerEvent.saga (.beginPublicationRefresh 1)]).map labelOf

theorem ids_stay_apart_sample :
    let s := (run (schedulerStep (fun _ => "") (fun _ => true) 0) (schedulerInitial 0)
      refreshedBetween).journal.state
    s.publicationSaga.map SagaRow.batchId = some 2 ∧
      (∀ token batch t, claimBatch token s = .ok (some batch, t) → ¬Fresh s batch.id) ∧
      ((claimPublication ["server"] 0).run s).result ≠ .error .uniqueConstraint ∧
      ∀ r ∈ s.history.rows, ∀ a ∈ s.sagas.rows, a.batchId ≠ r.batchId := by
  have hapart : Always (schedulerStep (fun _ => "") (fun _ => true) 0) Apart (schedulerInitial 0)
      refreshedBetween := by decide +kernel
  obtain ⟨hbatch, -, hclaim, harchived⟩ := ids_stay_apart (fun _ => "") (fun _ => true) 0 0 refreshedBetween hapart
  refine ⟨by decide +kernel, fun token batch t h hfresh => ?_, hclaim ["server"] 0, fun r hr => (harchived r hr).1⟩
  exact absurd ((hbatch token batch t h).mp hfresh) (by decide +kernel)

set_option maxRecDepth 8000 in
/-- The next batch takes the id of the refreshed saga, and the claim of its candidate fails. -/
theorem refreshed_id_taken :
    let step := schedulerStep (fun _ => "") (fun _ => true) 0
    let w := run step (schedulerInitial 0) refreshedBetween
    let next := run step w ((publishPath "b" 2 (some (treeWith "next"))).map labelOf)
    w.journal.state.publicationSaga.map SagaRow.batchId = some 2 ∧
      (next.journal.state.pendingCandidate.map fun c => (c.batchId, c.generation)) = some (2, 2) ∧
      next.journal.state.publicationSaga.map (fun a => (a.batchId, a.candidate.generation)) = some (2, 1) ∧
      ((claimPublication ["server"] 0).run next.journal.state).result = .error .uniqueConstraint := by
  refine ⟨by rfl, by rfl, by rfl, by rfl⟩

end Collisions

end NixstrCache.Write.BatchScheduler

import NixstrCache.Persistence.SagaStates

/-!
The publication window and the frozen batches.

Tokens and batch ids are handed out by counters that never fall, so the token of an open window is
one that no batch has, and a claim always finds its keys free.  Nothing but a dirty mark and a claim
touches the window.
-/

namespace NixstrCache.Persistence.WriteRepository

open Durable KeyedTable

/-- A change that opens or closes no window and freezes no batch. -/
structure KeepsWindow (s t : WriteRepository) : Prop where
  clock : t.clock = s.clock
  batchSequence : t.batchSequence = s.batchSequence
  batches : ∀ b ∈ t.batches.rows,
    ∃ a ∈ s.batches.rows, a.id = b.id ∧ a.token = b.token ∧ a.generation = b.generation
  entries : ∀ e ∈ t.batchEntries.rows, e ∈ s.batchEntries.rows

section Changes

variable {s t u : WriteRepository}

theorem KeepsWindow.of_tables (hclock : t.clock = s.clock) (hsequence : t.batchSequence = s.batchSequence)
    (hbatches : t.batches = s.batches) (hentries : t.batchEntries = s.batchEntries) :
    KeepsWindow s t :=
  ⟨hclock, hsequence, fun b hb => ⟨b, hbatches ▸ hb, rfl, rfl, rfl⟩, fun _ he => hentries ▸ he⟩

theorem KeepsWindow.refl (s : WriteRepository) : KeepsWindow s s :=
  .of_tables rfl rfl rfl rfl

theorem KeepsWindow.trans (h : KeepsWindow s t) (h' : KeepsWindow t u) : KeepsWindow s u where
  clock := h'.clock.trans h.clock
  batchSequence := h'.batchSequence.trans h.batchSequence
  batches c hc := by
    obtain ⟨b, hb, hid, htoken, hgeneration⟩ := h'.batches c hc
    obtain ⟨a, ha, hid', htoken', hgeneration'⟩ := h.batches b hb
    exact ⟨a, ha, hid'.trans hid, htoken'.trans htoken, hgeneration'.trans hgeneration⟩
  entries e he := h.entries e (h'.entries e he)

theorem KeepsWindow.of_ledger (h : t.ledger = s.ledger) : KeepsWindow s t := by
  simp only [ledger, Ledger.mk.injEq] at h
  obtain ⟨hclock, hsequence, hbatches, hentries, -⟩ := h
  exact .of_tables hclock hsequence hbatches hentries

theorem setStatus_keepsWindow (s : WriteRepository) (f : BatchRow → BatchStatus)
    (batches : Table BatchRow.id)
    (hbatches : batches.rows = s.batches.rows.map fun b => { b with status := f b }) :
    KeepsWindow s { s with batches := batches } := by
  refine ⟨rfl, rfl, fun b hb => ?_, fun _ he => he⟩
  rw [hbatches] at hb
  obtain ⟨a, ha, rfl⟩ := List.mem_map.mp hb
  exact ⟨a, ha, rfl, rfl, rfl⟩

theorem setBatchStatus_keepsWindow (s : WriteRepository) (id : ℕ) (status : BatchStatus) :
    KeepsWindow s (s.setBatchStatus id status) := by
  refine setStatus_keepsWindow s (fun b => if b.id = id then status else b.status) _ ?_
  rw [Table.update_rows]
  refine List.map_congr_left fun b _ => ?_
  split_ifs <;> rfl

theorem setPendingStatus_keepsWindow (s : WriteRepository) (id : ℕ) :
    KeepsWindow s (s.setPendingStatus id) := by
  refine setStatus_keepsWindow s (fun b =>
    if b.id = id ∧ (b.status = .building ∨ b.status = .failed) then .pending else b.status) _ ?_
  rw [Table.update_rows]
  refine List.map_congr_left fun b _ => ?_
  split_ifs <;> rfl

theorem activateRows_keepsWindow (s : WriteRepository) : KeepsWindow s s.activateRows := by
  refine ⟨rfl, rfl, fun b hb => ?_, fun _ he => he⟩
  simp only [activateRows, Table.mem_update] at hb
  obtain ⟨a, ha, rfl⟩ := hb
  refine ⟨a, ha, ?_⟩
  split_ifs <;> exact ⟨rfl, rfl, rfl⟩

theorem Stored.keepsWindow {batch : FrozenBatch} {candidate : PendingCandidate}
    {inventory : List InventoryEntry} (h : Stored s t batch candidate inventory) : KeepsWindow s t := by
  have hstatus := setPendingStatus_keepsWindow s batch.id
  exact ⟨h.clock, h.batchSequence, fun b hb => hstatus.batches b (h.batches ▸ hb),
    fun _ he => h.batchEntries ▸ he⟩

theorem claimCandidate_keepsWindow {candidate : PendingCandidate} {destinations : List String}
    {now : ℕ} (h : claimCandidate candidate destinations now s = .ok ((), t)) : KeepsWindow s t := by
  have hinsert {u v : WriteRepository} (hu : KeepsWindow s u)
      (hv : insertSaga candidate destinations u = .ok v) : KeepsWindow s v := by
    obtain ⟨sagas, sagaBlobs, -, -, rfl⟩ := insertSaga_ok hv
    exact hu.trans (.of_tables rfl rfl rfl rfl)
  have hok {u : WriteRepository} {r : Except Failure WriteRepository} (hu : KeepsWindow s u)
      (hr : r = insertSaga candidate destinations u) (h : r.map (fun v => ((), v)) = .ok ((), t)) :
      KeepsWindow s t := by
    cases hv : r with
    | error e => simp [hv, Except.map] at h
    | ok v =>
      obtain rfl : v = t := by simpa [hv, Except.map] using h
      exact hinsert hu (hr ▸ hv)
  unfold claimCandidate at h
  split at h
  · exact hok (.refl s) rfl h
  · next existing hexisting =>
    have harchived : KeepsWindow s (s.archiveSaga existing.batchId now) := .of_tables rfl rfl rfl rfl
    dsimp only at h
    split_ifs at h
    · exact hok harchived rfl h
    · exact hok (.refl s) rfl h
    · cases h
      exact harchived
    · cases h
      exact .refl s

theorem refreshSaga_keepsWindow {saga : SagaRow} {now : ℕ}
    (h : refreshSaga saga now s = .ok ((), t)) : KeepsWindow s t := by
  unfold refreshSaga at h
  dsimp only at h
  split at h
  · cases h
    exact .of_tables rfl rfl rfl rfl
  · simp at h

theorem QuietMove.pendingCandidate {acceptable : RawPublication → Bool}
    (h : QuietMove acceptable s t) : t.pendingCandidate = s.pendingCandidate := by
  cases h with
  | same h =>
    have hledger := h.1
    simp only [ledger, Ledger.mk.injEq] at hledger
    exact hledger.2.2.2.2.1
  | refresh h =>
    obtain ⟨-, h⟩ := h
    unfold refreshSaga at h
    dsimp only at h
    split at h
    · cases h
      rfl
    · simp at h
  | _ => rfl

theorem SagaInvariant.saga_currentGeneration {acceptable : RawPublication → Bool}
    (hI : SagaInvariant s) (h : SagaMove acceptable s t) :
    t.currentGeneration = s.currentGeneration := by
  cases h with
  | quiet h =>
    cases h with
    | same h => exact h.generation
    | refresh h =>
      obtain ⟨hsaga, h⟩ := h
      obtain ⟨r, hrows, rfl⟩ := hI.single.publicationSaga (Option.filter_eq_some_iff.mp hsaga).1
      exact (refreshSaga_refreshed hrows h).currentGeneration
    | _ => rfl
  | claim h =>
    cases h with
    | adopt => rfl
    | claim hpending hnewer h => exact (claimCandidate_claimed hI.single hnewer h).currentGeneration
  | prove => rfl

theorem pruneRows_keepsWindow (s : WriteRepository) : KeepsWindow s s.pruneRows :=
  ⟨rfl, rfl, fun b hb => ⟨b, (Table.mem_filter.mp hb).1, rfl, rfl, rfl⟩,
    fun _ he => (Table.mem_filter.mp he).1⟩

theorem SagaMove.keepsWindow {acceptable : RawPublication → Bool} (h : SagaMove acceptable s t) :
    KeepsWindow s t := by
  cases h with
  | quiet h =>
    cases h with
    | same h => exact .of_ledger h.1
    | refresh h =>
      obtain ⟨-, h⟩ := h
      exact refreshSaga_keepsWindow h
    | prune => exact pruneRows_keepsWindow s
    | _ => exact .of_tables rfl rfl rfl rfl
  | claim h =>
    cases h with
    | adopt => exact .of_tables rfl rfl rfl rfl
    | claim hpending hnewer h => exact claimCandidate_keepsWindow h
  | prove => exact .of_tables rfl rfl rfl rfl

end Changes

section Windows

/-- The window is open or closed as a whole, and no batch is ahead of the counters. -/
structure WindowInvariant (s : WriteRepository) : Prop where
  whole : (s.clock.activeToken = none ∧ s.clock.generation = none ∧ s.clock.openedAt = none) ∨
    ∃ window, s.activePublicationWindow = some window
  fresh : ∀ token, s.clock.activeToken = some token →
    token < s.clock.nextToken ∧ ∀ b ∈ s.batches.rows, b.token ≠ token
  tokens : ∀ b ∈ s.batches.rows, b.token < s.clock.nextToken
  ids : ∀ b ∈ s.batches.rows, b.id ≤ s.batchSequence
  entries : ∀ e ∈ s.batchEntries.rows, e.batchId ≤ s.batchSequence

variable {s t : WriteRepository}

theorem windowInvariant_initial (capacity : ℕ) : WindowInvariant (initial capacity) := by
  refine ⟨Or.inl ⟨rfl, rfl, rfl⟩, fun token htoken => ?_, ?_, ?_, ?_⟩
  · simp [initial, initialClock] at htoken
  all_goals intro r hr; simp [initial] at hr

theorem activePublicationWindow_eq {window : ActivePublicationWindow} :
    s.activePublicationWindow = some window ↔ s.clock.activeToken = some window.token ∧
      s.clock.generation = some window.generation ∧ s.clock.openedAt = some window.openedAt ∧
      s.clock.lastDirtyAt = some window.lastDirtyAt ∧ truthy s.clock.baseRoot = window.baseRoot := by
  obtain ⟨token, generation, openedAt, lastDirtyAt, baseRoot⟩ := window
  unfold activePublicationWindow
  split
  · next htoken hgeneration hopened hlast =>
    simp [htoken, hgeneration, hopened, hlast]
  · next hnone =>
    simp only [reduceCtorEq, false_iff, not_and]
    intro htoken hgeneration hopened hlast
    exact absurd hlast (hnone _ _ _ _ htoken hgeneration hopened)

theorem KeepsWindow.activePublicationWindow (h : KeepsWindow s t) :
    t.activePublicationWindow = s.activePublicationWindow := by
  simp only [WriteRepository.activePublicationWindow, h.clock]

theorem WindowInvariant.keeps (hW : WindowInvariant s) (h : KeepsWindow s t) : WindowInvariant t where
  whole := by
    rw [h.activePublicationWindow, h.clock]
    exact hW.whole
  fresh token htoken := by
    rw [h.clock] at htoken ⊢
    obtain ⟨hlt, hfresh⟩ := hW.fresh token htoken
    refine ⟨hlt, fun b hb => ?_⟩
    obtain ⟨a, ha, -, hab, -⟩ := h.batches b hb
    exact hab ▸ hfresh a ha
  tokens b hb := by
    obtain ⟨a, ha, -, hab, -⟩ := h.batches b hb
    rw [h.clock, ← hab]
    exact hW.tokens a ha
  ids b hb := by
    obtain ⟨a, ha, hab, -, -⟩ := h.batches b hb
    rw [h.batchSequence, ← hab]
    exact hW.ids a ha
  entries e he := by
    rw [h.batchSequence]
    exact hW.entries e (h.entries e he)

def dirtied (s : WriteRepository) (generation now : ℕ) (baseRoot : Option String) :
    ActivePublicationWindow :=
  ⟨(s.dirtyWindow now).token, max generation (s.clock.generation.getD 0),
    (s.dirtyWindow now).openedAt, now, truthy baseRoot⟩

theorem markDirty_window (generation now : ℕ) (baseRoot : Option String) :
    (s.markDirty generation now baseRoot).activePublicationWindow =
      some (s.dirtied generation now baseRoot) :=
  rfl

theorem WindowInvariant.dirty (hW : WindowInvariant s) (generation now : ℕ)
    (baseRoot : Option String) : WindowInvariant (s.markDirty generation now baseRoot) := by
  refine ⟨Or.inr ⟨_, markDirty_window generation now baseRoot⟩, fun token htoken => ?_,
    fun b hb => ?_, hW.ids, hW.entries⟩
  · obtain rfl : s.clock.activeToken.getD s.clock.nextToken = token := by
      simpa [markDirty] using htoken
    cases hactive : s.clock.activeToken with
    | none =>
      have hnext : (s.markDirty generation now baseRoot).clock.nextToken = s.clock.nextToken + 1 := by
        simp [markDirty, hactive]
      rw [hnext, Option.getD_none]
      exact ⟨Nat.lt_succ_self _, fun b hb => (hW.tokens b hb).ne⟩
    | some token =>
      have hnext : (s.markDirty generation now baseRoot).clock.nextToken = s.clock.nextToken := by
        simp [markDirty, hactive]
      rw [hnext, Option.getD_some]
      exact hW.fresh token hactive
  · have hle : s.clock.nextToken ≤ (s.markDirty generation now baseRoot).clock.nextToken := by
      cases hactive : s.clock.activeToken <;> simp [markDirty, hactive]
    exact (hW.tokens b hb).trans_le hle

structure Frozen (s t : WriteRepository) (row : BatchRow) : Prop where
  id : row.id = s.batchSequence + 1
  token : s.clock.activeToken = some row.token
  generation : s.clock.generation = some row.generation
  clock : t.clock = closedClock s.clock.nextToken
  batchSequence : t.batchSequence = row.id
  batches : t.batches.rows = s.batches.rows ++ [row]
  entries : t.batchEntries.rows = s.batchEntries.rows ++ s.frozenEntries row.id row.generation
  unused : ∀ b ∈ s.batches.rows, b.token ≠ row.token
  pendingCandidate : t.pendingCandidate = s.pendingCandidate
  currentGeneration : t.currentGeneration = s.currentGeneration

theorem claimBatch_none {token : ℕ} (h : claimBatch token s = .ok (none, t)) : t = s := by
  rcases claimBatch_ok h with ⟨-, rfl⟩ | ⟨_, _, _, -, -, -, -, -, hbatch, -⟩
  · rfl
  · simp at hbatch

theorem claimBatch_frozen {token : ℕ} {batch : FrozenBatch}
    (h : claimBatch token s = .ok (some batch, t)) : ∃ row, Frozen s t row ∧
      batch.id = row.id ∧ batch.token = row.token ∧ batch.generation = row.generation := by
  rcases claimBatch_ok h with ⟨hnone, -⟩ | ⟨generation, batches, batchEntries, hgeneration, htoken,
    hunused, hbatches, hentries, hbatch, rfl⟩
  · simp at hnone
  · obtain rfl := Option.some.inj hbatch
    refine ⟨⟨s.batchSequence + 1, token, generation, s.clock.baseRoot, .building⟩, ?_, rfl, rfl, rfl⟩
    exact ⟨rfl, htoken, hgeneration, rfl, rfl, (Table.insert?_eq_some.mp hbatches).2,
      Table.insertAll?_rows hentries, hunused, rfl, rfl⟩

theorem WindowInvariant.frozen (hW : WindowInvariant s) {row : BatchRow} (h : Frozen s t row) :
    WindowInvariant t := by
  have hid := h.id
  obtain ⟨hlt, -⟩ := hW.fresh row.token h.token
  refine ⟨Or.inl ?_, fun token htoken => ?_, fun b hb => ?_, fun b hb => ?_, fun e he => ?_⟩
  · simp [h.clock, closedClock, initialClock]
  · simp [h.clock, closedClock, initialClock] at htoken
  · have hnext : t.clock.nextToken = s.clock.nextToken := by
      rw [h.clock]
      rfl
    rw [hnext]
    rw [h.batches, List.mem_append, List.mem_singleton] at hb
    rcases hb with hb | rfl
    · exact hW.tokens b hb
    · exact hlt
  · rw [h.batchSequence]
    rw [h.batches, List.mem_append, List.mem_singleton] at hb
    rcases hb with hb | rfl
    · have := hW.ids b hb
      omega
    · exact le_rfl
  · rw [h.batchSequence]
    rw [h.entries, List.mem_append] at he
    rcases he with he | he
    · have := hW.entries e he
      omega
    · obtain ⟨r, -, rfl⟩ := List.mem_map.mp he
      exact le_rfl

theorem frozenEntries_nodup (s : WriteRepository) (id generation : ℕ) :
    ((s.frozenEntries id generation).map BatchEntryRow.key).Nodup := by
  rw [frozenEntries, List.map_map]
  refine List.Nodup.map_on (fun a ha b hb hab => ?_) (s.overlayEntries.nodup_rows.filter _)
  obtain ⟨ha, hga⟩ := List.mem_filter.mp ha
  obtain ⟨hb, hgb⟩ := List.mem_filter.mp hb
  have hroute : a.route = b.route := congrArg Prod.snd hab
  refine Table.eq_of_key ha hb (Prod.ext ?_ hroute)
  exact (of_decide_eq_true hga).trans (of_decide_eq_true hgb).symm

theorem WindowInvariant.claimBatch_open (hW : WindowInvariant s) {window : ActivePublicationWindow}
    (hwindow : s.activePublicationWindow = some window) :
    ∃ batch t, claimBatch window.token s = .ok (some batch, t) := by
  obtain ⟨htoken, hgeneration, -⟩ := activePublicationWindow_eq.mp hwindow
  obtain ⟨-, hunused⟩ := hW.fresh _ htoken
  obtain ⟨batches, hbatches⟩ : ∃ batches, s.batches.insert? ⟨s.batchSequence + 1, window.token,
      window.generation, s.clock.baseRoot, .building⟩ = some batches := by
    cases h : s.batches.insert? ⟨s.batchSequence + 1, window.token, window.generation,
        s.clock.baseRoot, .building⟩ with
    | some batches => exact ⟨batches, rfl⟩
    | none =>
      obtain ⟨b, hb, hid⟩ := Table.insert?_eq_none.mp h
      have hle := hW.ids b hb
      have hid : b.id = s.batchSequence + 1 := hid
      omega
  have hentries : (s.batchEntries.insertAll?
      (s.frozenEntries (s.batchSequence + 1) window.generation)).isSome := by
    refine Table.insertAll?_isSome.mpr ⟨frozenEntries_nodup s _ _, fun e he q hq hkey => ?_⟩
    obtain ⟨r, -, rfl⟩ := List.mem_map.mp he
    have hle := hW.entries q hq
    have hid : q.batchId = s.batchSequence + 1 := congrArg Prod.fst hkey
    omega
  obtain ⟨entries, hentries⟩ := Option.isSome_iff_exists.mp hentries
  have hany : (s.batches.rows.any fun r => r.token = window.token) = false := by
    simpa using hunused
  unfold claimBatch
  simp only [hgeneration, htoken, hany, hbatches, hentries, ne_eq, not_true_eq_false, if_false,
    Bool.false_eq_true]
  exact ⟨_, _, rfl⟩

end Windows

end NixstrCache.Persistence.WriteRepository

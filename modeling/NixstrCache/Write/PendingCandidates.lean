import NixstrCache.Write.BatchWindows

/-!
The pending candidate over the runs of the scheduler.

The pending candidate, the batches waiting for their builds, the open window and the overlay stand
in the order of their generations.  A batch that failed leaves this line; it comes back at the head
of the queue of the next process, and that process starts in line only if no newer candidate is
pending by then.
-/

namespace NixstrCache.Write.BatchScheduler

open Durable KeyedTable Runs Persistence Persistence.WriteRepository

section Candidates

def Mark.aside : Mark → Prop
  | .recorded _ | .taken _ => False
  | _ => True

/-- A taken generation has been built and is the newest one built by then. -/
def NewestTaken (entry : Mark) (earlier : List Mark) : Prop :=
  ∀ generation, entry = .taken generation → .recorded generation ∈ earlier ∧
    ∀ built, .recorded built ∈ earlier → built ≤ generation

structure Newest (log : List Mark) (s : WriteRepository) : Prop where
  invariant : SagaInvariant s
  built : ∀ candidate, s.pendingCandidate = some candidate → .recorded candidate.generation ∈ log
  bounded : ∀ generation, .recorded generation ∈ log →
    (∃ candidate, s.pendingCandidate = some candidate ∧ generation ≤ candidate.generation) ∨
    ∃ a ∈ s.sagas.rows, generation ≤ a.candidate.generation
  taken : Throughout NewestTaken log

variable {s t u : WriteRepository} {log entries : List Mark}

theorem aside_nil : ∀ mark ∈ ([] : List Mark), mark.aside :=
  fun _ hmark => absurd hmark List.not_mem_nil

theorem recorded_of_aside (h : ∀ mark ∈ entries, mark.aside) {generation : ℕ}
    (hmark : .recorded generation ∈ entries ++ log) : .recorded generation ∈ log := by
  rcases List.mem_append.mp hmark with hmark | hmark
  · exact absurd (h _ hmark) id
  · exact hmark

theorem active_grows (h : Follows s t) {generation : ℕ}
    (hs : ∃ a ∈ s.sagas.rows, generation ≤ a.candidate.generation) :
    ∃ b ∈ t.sagas.rows, generation ≤ b.candidate.generation := by
  obtain ⟨a, ha, hle⟩ := hs
  obtain ⟨b, hb, hab⟩ := h.forward a ha
  refine ⟨b, hb, ?_⟩
  unfold SagaRow.Same SagaRow.Before at hab
  omega

theorem Newest.evolves (h : Newest log s) (hst : Evolves s t)
    (hpending : t.pendingCandidate = s.pendingCandidate) (hentries : ∀ mark ∈ entries, mark.aside) :
    Newest (entries ++ log) t where
  invariant := hst.invariant
  built candidate hcandidate :=
    List.mem_append_right _ (h.built candidate (hpending ▸ hcandidate))
  bounded generation hmark := by
    rw [hpending]
    rcases h.bounded generation (recorded_of_aside hentries hmark) with hold | hactive
    · exact Or.inl hold
    · exact Or.inr (active_grows hst.follows hactive)
  taken := by
    apply h.taken.append
    intro entry hentry earlier generation heq
    subst heq
    exact absurd (hentries _ hentry) id

theorem Newest.record (h : Newest log s) {batch : FrozenBatch} {build : HashtreeBuild}
    (hstore : storePending batch (candidateOf batch build) build.inventory build.runId s = .ok ((), t))
    (hnewer : ∀ candidate, s.pendingCandidate = some candidate →
      candidate.generation ≤ batch.generation) : Newest (.recorded batch.generation :: log) t := by
  have hstored := storePending_stored hstore
  have hevolves := (h.invariant.batch_steady (.record hstore)).toEvolves
  refine ⟨hevolves.invariant, fun candidate hcandidate => ?_, fun generation hmark => ?_, ?_⟩
  · obtain rfl := Option.some.inj (hstored.pendingCandidate.symm.trans hcandidate)
    exact List.mem_cons_self
  · rcases List.mem_cons.mp hmark with hmark | hmark
    · obtain rfl := Mark.recorded.inj hmark
      exact Or.inl ⟨_, hstored.pendingCandidate, le_rfl⟩
    · rcases h.bounded generation hmark with ⟨candidate, hcandidate, hle⟩ | hactive
      · exact Or.inl ⟨_, hstored.pendingCandidate, hle.trans (hnewer candidate hcandidate)⟩
      · exact Or.inr (active_grows hevolves.follows hactive)
  · apply h.taken.cons
    intro generation heq
    exact absurd heq (by simp)

theorem Newest.take (h : Newest log s) {candidate : PendingCandidate} {destinations : List String}
    {now : ℕ} (hc : Claimed s t candidate destinations now)
    (hpending : s.pendingCandidate = some candidate)
    (hnewer : ∀ a ∈ s.sagas.rows, a.candidate.generation < candidate.generation) :
    Newest (.taken candidate.generation :: log) t := by
  have hevolves := h.invariant.claim_evolves hc hpending hnewer
  have hle : ∀ built, .recorded built ∈ log → built ≤ candidate.generation := by
    intro built hmark
    rcases h.bounded built hmark with ⟨p, hp, hle⟩ | ⟨a, ha, hle⟩
    · obtain rfl := Option.some.inj (hpending.symm.trans hp)
      exact hle
    · exact hle.trans (hnewer a ha).le
  refine ⟨hevolves.invariant, fun p hp => ?_, fun generation hmark => ?_, ?_⟩
  · exact absurd (hc.pendingCandidate.symm.trans hp) (by simp)
  · have hmark : .recorded generation ∈ log := by simpa using hmark
    refine Or.inr ⟨freshSaga candidate destinations, ?_, hle generation hmark⟩
    rw [hc.sagas]
    exact List.mem_singleton.mpr rfl
  · apply h.taken.cons
    intro generation heq
    obtain rfl := Mark.taken.inj heq
    exact ⟨h.built candidate hpending, hle⟩

theorem Newest.sagaMoves {acceptable : RawPublication → Bool} (h : Newest log s)
    (hmoves : Relation.ReflTransGen (SagaMove acceptable) s t) :
    Newest (noteTaken s t ++ log) t ∧
      (t.pendingCandidate = s.pendingCandidate ∨ t.pendingCandidate = none) := by
  have hcases : (t.pendingCandidate = s.pendingCandidate ∧ Newest log t) ∨
      ∃ candidate, s.pendingCandidate = some candidate ∧ t.pendingCandidate = none ∧
        Newest (.taken candidate.generation :: log) t := by
    induction hmoves with
    | refl => exact Or.inl ⟨rfl, h⟩
    | @tail u v hmoves hmove ih =>
      have hstill (log : List Mark) (hu : Newest log u)
          (hpending : v.pendingCandidate = u.pendingCandidate) : Newest log v :=
        hu.evolves (hu.invariant.saga_evolves hmove) hpending aside_nil
      have hsame : v.pendingCandidate = u.pendingCandidate ∨
          ∃ candidate destinations now, u.pendingCandidate = some candidate ∧
            (∀ current, u.publicationSaga = some current →
              current.candidate.generation < candidate.generation ∧
              (current.admitted = true ∨ current.signedEvent = none)) ∧
            claimCandidate candidate destinations now u = .ok ((), v) := by
        cases hmove with
        | quiet hmove => exact Or.inl hmove.pendingCandidate
        | claim hmove =>
          cases hmove with
          | adopt => exact Or.inl rfl
          | claim hpending hnewer hclaim => exact Or.inr ⟨_, _, _, hpending, hnewer, hclaim⟩
        | prove => exact Or.inl rfl
      rcases ih with ⟨hpending, hu⟩ | ⟨candidate, hcandidate, hnone, hu⟩
      · rcases hsame with heq | ⟨candidate, destinations, now, hcandidate, hnewer, hclaim⟩
        · exact Or.inl ⟨heq.trans hpending, hstill log hu heq⟩
        · have hc := claimCandidate_claimed hu.invariant.single hnewer hclaim
          refine Or.inr ⟨candidate, hpending ▸ hcandidate, hc.pendingCandidate, ?_⟩
          refine hu.take hc hcandidate fun a ha => ?_
          exact (hnewer _ (publicationSaga_of_rows (hu.invariant.single.rows ha))).1
      · rcases hsame with heq | ⟨c, _, _, hc, -⟩
        · exact Or.inr ⟨candidate, hcandidate, heq.trans hnone, hstill _ hu heq⟩
        · exact absurd (hnone.symm.trans hc) (by simp)
  rcases hcases with ⟨hpending, ht⟩ | ⟨candidate, hcandidate, hnone, ht⟩
  · have hnote : noteTaken s t = [] := by
      unfold noteTaken
      rw [hpending]
      cases s.pendingCandidate <;> rfl
    rw [hnote]
    exact ⟨ht, Or.inl hpending⟩
  · have hnote : noteTaken s t = [.taken candidate.generation] := by
      simp [noteTaken, hcandidate, hnone]
    rw [hnote]
    exact ⟨ht, Or.inr hnone⟩

end Candidates

section Line

/-- The generations of the pending candidate, of the batches to be built and of the open window. -/
def generationLine (s : WriteRepository) (queue : List FrozenBatch) : List ℕ :=
  (s.pendingCandidate.map PendingCandidate.generation).toList ++
    queue.map FrozenBatch.generation ++ s.clock.generation.toList

/-- The batches have the order of their generations, and neither the window nor the overlay is behind
one of them. -/
structure Ranked (s : WriteRepository) : Prop where
  ordered : ∀ a ∈ s.batches.rows, ∀ b ∈ s.batches.rows, a.id ≤ b.id → a.generation ≤ b.generation
  frozen : ∀ b ∈ s.batches.rows, b.generation ≤ s.currentGeneration ∧
    ∀ generation, s.clock.generation = some generation → b.generation ≤ generation

structure InLine (queue : List FrozenBatch) (log : List Mark) (s : WriteRepository) : Prop where
  newest : Newest log s
  window : WindowInvariant s
  sorted : (generationLine s queue).Pairwise (· ≤ ·)
  below : ∀ generation ∈ generationLine s queue, generation ≤ s.currentGeneration
  ranked : Ranked s

structure Bystands (s t : WriteRepository) : Prop where
  evolves : SagaInvariant s → Evolves s t
  window : KeepsWindow s t
  pendingCandidate : t.pendingCandidate = s.pendingCandidate
  generation : s.currentGeneration ≤ t.currentGeneration

variable {s t u : WriteRepository} {log entries : List Mark} {queue rest : List FrozenBatch}
variable {batch : FrozenBatch} {candidate : PendingCandidate}

theorem mem_line {generation : ℕ} : generation ∈ generationLine s queue ↔
    (∃ candidate, s.pendingCandidate = some candidate ∧ candidate.generation = generation) ∨
    (∃ batch ∈ queue, batch.generation = generation) ∨ s.clock.generation = some generation := by
  simp [generationLine]

theorem Ranked.keeps (h : Ranked s) (hst : KeepsWindow s t)
    (hle : s.currentGeneration ≤ t.currentGeneration) : Ranked t where
  ordered b hb b' hb' hid := by
    obtain ⟨a, ha, hab, -, hgeneration⟩ := hst.batches b hb
    obtain ⟨a', ha', hab', -, hgeneration'⟩ := hst.batches b' hb'
    rw [← hgeneration, ← hgeneration']
    exact h.ordered a ha a' ha' (by omega)
  frozen b hb := by
    obtain ⟨a, ha, -, -, hgeneration⟩ := hst.batches b hb
    obtain ⟨hbelow, hopen⟩ := h.frozen a ha
    rw [← hgeneration, hst.clock]
    exact ⟨hbelow.trans hle, hopen⟩

theorem InLine.sublist (h : InLine queue log s) (hsub : (generationLine s rest).Sublist (generationLine s queue)) :
    InLine rest log s :=
  ⟨h.newest, h.window, h.sorted.sublist hsub, fun generation hmem => h.below generation (hsub.subset hmem),
    h.ranked⟩

theorem line_sublist (s : WriteRepository) (h : rest.Sublist queue) :
    (generationLine s rest).Sublist (generationLine s queue) :=
  ((List.Sublist.refl _).append (h.map _)).append (List.Sublist.refl _)

theorem InLine.shorten (h : InLine queue log s) (hsub : rest.Sublist queue) : InLine rest log s :=
  h.sublist (line_sublist s hsub)

theorem Bystands.refl (s : WriteRepository) : Bystands s s :=
  ⟨fun hI => ⟨hI, .refl s⟩, .refl s, rfl, le_rfl⟩

theorem Bystands.trans (h : Bystands s t) (h' : Bystands t u) : Bystands s u where
  evolves hI := by
    obtain ⟨hJ, hfollows⟩ := h.evolves hI
    obtain ⟨hK, hfollows'⟩ := h'.evolves hJ
    exact ⟨hK, hfollows.trans hfollows'⟩
  window := h.window.trans h'.window
  pendingCandidate := h'.pendingCandidate.trans h.pendingCandidate
  generation := h.generation.trans h'.generation

theorem bystands_of_moves (h : Relation.ReflTransGen Bystands s t) : Bystands s t := by
  induction h with
  | refl => exact .refl s
  | tail _ hmove ih => exact ih.trans hmove

theorem Bystands.of_staged (h : Staged s t) : Bystands s t := by
  refine ⟨fun hI => (hI.steady_of_ledger h.ledger).toEvolves, .of_ledger h.ledger, ?_, h.generation⟩
  have hledger := h.ledger
  simp only [ledger, Ledger.mk.injEq] at hledger
  exact hledger.2.2.2.2.1

theorem Bystands.of_same (h : SameLedger s t) : Bystands s t :=
  .of_staged ⟨h.1, h.generation.ge⟩

theorem bystands_activate (s : WriteRepository) : Bystands s s.activateRows :=
  ⟨fun hI => hI.activate_steady.toEvolves, activateRows_keepsWindow s, rfl, le_rfl⟩

theorem bystands_fail (s : WriteRepository) (id : ℕ) : Bystands s (s.setBatchStatus id .failed) :=
  ⟨fun hI => (hI.batch_steady (.fail id)).toEvolves, setBatchStatus_keepsWindow s id _, rfl, le_rfl⟩

theorem InLine.bystands (h : InLine queue log s) (hst : Bystands s t)
    (hentries : ∀ mark ∈ entries, mark.aside) : InLine queue (entries ++ log) t := by
  have hline : generationLine t queue = generationLine s queue := by
    rw [generationLine, hst.pendingCandidate, hst.window.clock, generationLine]
  refine ⟨h.newest.evolves (hst.evolves h.newest.invariant) hst.pendingCandidate hentries,
    h.window.keeps hst.window, hline ▸ h.sorted, ?_, h.ranked.keeps hst.window hst.generation⟩
  intro generation hmem
  exact (h.below generation (hline ▸ hmem)).trans hst.generation

theorem InLine.dirty (h : InLine queue log s) (now : ℕ) (baseRoot : Option String)
    (hentries : ∀ mark ∈ entries, mark.aside) :
    InLine queue (entries ++ log) (s.markDirty s.currentGeneration now baseRoot) := by
  have hle : s.clock.generation.getD 0 ≤ s.currentGeneration := by
    cases hgeneration : s.clock.generation with
    | none => exact Nat.zero_le _
    | some generation => exact h.below generation (mem_line.mpr (Or.inr (Or.inr hgeneration)))
  have hopen : (s.markDirty s.currentGeneration now baseRoot).clock.generation =
      some s.currentGeneration := congrArg some (max_eq_left hle)
  have hfront : (s.pendingCandidate.map PendingCandidate.generation).toList ++
      queue.map FrozenBatch.generation ⊆ generationLine s queue := List.subset_append_left _ _
  refine ⟨h.newest.evolves (h.newest.invariant.batch_steady (.dirty _ now baseRoot)).toEvolves rfl
    hentries, h.window.dirty _ now baseRoot, ?_, ?_, h.ranked.ordered, ?_⟩
  · rw [generationLine, hopen]
    refine List.pairwise_append.mpr ⟨?_, List.pairwise_singleton _ _, fun generation hmem g hg => ?_⟩
    · exact h.sorted.sublist (List.sublist_append_left _ _)
    · rw [Option.toList_some, List.mem_singleton] at hg
      exact hg ▸ h.below generation (hfront hmem)
  · intro generation hmem
    rw [generationLine, hopen] at hmem
    rcases List.mem_append.mp hmem with hmem | hmem
    · exact h.below generation (hfront hmem)
    · rw [Option.toList_some, List.mem_singleton] at hmem
      exact hmem.le
  · intro b hb
    obtain ⟨hle, -⟩ := h.ranked.frozen b hb
    refine ⟨hle, fun generation hgeneration => ?_⟩
    obtain rfl := Option.some.inj (hopen.symm.trans hgeneration)
    exact hle

theorem InLine.claim (h : InLine queue log s) {row : BatchRow} (hf : Frozen s t row)
    (hevolves : Evolves s t) (hgeneration : batch.generation = row.generation)
    (hentries : ∀ mark ∈ entries, mark.aside) : InLine (queue ++ [batch]) (entries ++ log) t := by
  have hclosed : t.clock.generation = none := by simp [hf.clock, closedClock, initialClock]
  have hline : generationLine t (queue ++ [batch]) = generationLine s queue := by
    simp [generationLine, hf.pendingCandidate, hclosed, hf.generation, hgeneration]
  have hbelow : row.generation ≤ s.currentGeneration :=
    h.below _ (mem_line.mpr (Or.inr (Or.inr hf.generation)))
  refine ⟨h.newest.evolves hevolves hf.pendingCandidate hentries, h.window.frozen hf, hline ▸ h.sorted,
    ?_, ?_, ?_⟩
  · intro generation hmem
    rw [hf.currentGeneration]
    exact h.below generation (hline ▸ hmem)
  · intro a ha b hb hle
    rw [hf.batches, List.mem_append, List.mem_singleton] at ha hb
    have hid := hf.id
    rcases ha with ha | rfl
    · rcases hb with hb | rfl
      · exact h.ranked.ordered a ha b hb hle
      · exact (h.ranked.frozen a ha).2 _ hf.generation
    · rcases hb with hb | rfl
      · have := h.window.ids b hb
        omega
      · exact le_rfl
  · intro b hb
    rw [hf.currentGeneration, hclosed]
    refine ⟨?_, by simp⟩
    rw [hf.batches, List.mem_append, List.mem_singleton] at hb
    rcases hb with hb | rfl
    · exact (h.ranked.frozen b hb).1
    · exact hbelow

theorem InLine.record (h : InLine (batch :: queue) log s) {build : HashtreeBuild}
    (hstore : storePending batch (candidateOf batch build) build.inventory build.runId s =
      .ok ((), t)) : InLine queue (.recorded batch.generation :: log) t := by
  have hstored := storePending_stored hstore
  have hkeeps := hstored.keepsWindow
  have hline : generationLine t queue =
      batch.generation :: queue.map FrozenBatch.generation ++ s.clock.generation.toList := by
    rw [generationLine, hstored.pendingCandidate, hstored.clock]
    rfl
  have hsub : (generationLine t queue).Sublist (generationLine s (batch :: queue)) := by
    rw [hline, generationLine, List.append_assoc]
    exact List.sublist_append_right _ _
  refine ⟨h.newest.record hstore ?_, h.window.keeps hkeeps, h.sorted.sublist hsub, ?_,
    h.ranked.keeps hkeeps hstored.currentGeneration.ge⟩
  · intro candidate hcandidate
    have hpairs := h.sorted
    rw [generationLine, hcandidate] at hpairs
    exact List.rel_of_pairwise_cons hpairs (by simp)
  · intro generation hmem
    rw [hstored.currentGeneration]
    exact h.below generation (hsub.subset hmem)

theorem InLine.sagaMoves {acceptable : RawPublication → Bool} (h : InLine queue log s)
    (hmoves : Relation.ReflTransGen (SagaMove acceptable) s t) :
    InLine queue (noteTaken s t ++ log) t ∧
      (t.pendingCandidate = s.pendingCandidate ∨ t.pendingCandidate = none) := by
  obtain ⟨hnewest, hpending⟩ := h.newest.sagaMoves hmoves
  have hkeeps : KeepsWindow s t :=
    keeps_of_moves (Relation.ReflTransGen.mono (fun _ _ hmove => hmove.keepsWindow) _ _ hmoves)
  have hcurrent : t.currentGeneration = s.currentGeneration := by
    clear hnewest hpending hkeeps
    induction hmoves with
    | refl => rfl
    | tail hmoves hmove ih =>
      have hI := (h.newest.invariant.evolves_of_moves (fun _ _ hJ => hJ.saga_evolves) hmoves).invariant
      exact (hI.saga_currentGeneration hmove).trans ih
  have hsub : (generationLine t queue).Sublist (generationLine s queue) := by
    rw [generationLine, generationLine, hkeeps.clock]
    refine ((?_ : List.Sublist _ _).append (List.Sublist.refl _)).append (List.Sublist.refl _)
    rcases hpending with hpending | hpending
    · rw [hpending]
    · rw [hpending]
      exact List.nil_sublist _
  refine ⟨⟨hnewest, h.window.keeps hkeeps, h.sorted.sublist hsub, ?_,
    h.ranked.keeps hkeeps hcurrent.ge⟩, hpending⟩
  intro generation hmem
  rw [hcurrent]
  exact h.below generation (hsub.subset hmem)

theorem InLine.retry (h : InLine [] log s)
    (hready : ∀ b ∈ s.batches.rows, b.status = .failed → ∀ candidate,
      s.pendingCandidate = some candidate → candidate.generation ≤ b.generation) :
    InLine s.failedBatches log s := by
  have hfailed : ∀ batch ∈ s.failedBatches, ∃ b ∈ s.batches.rows, b.status = .failed ∧
      b.id = batch.id ∧ b.generation = batch.generation := by
    intro batch hbatch
    obtain ⟨b, hb, rfl⟩ := List.mem_map.mp hbatch
    obtain ⟨hb, hstatus⟩ := List.mem_filter.mp ((List.mem_insertionSort _).mp hb)
    exact ⟨b, hb, of_decide_eq_true hstatus, rfl, rfl⟩
  have hsorted : (s.failedBatches.map FrozenBatch.generation).Pairwise (· ≤ ·) := by
    have hpairs := List.pairwise_insertionSort (fun a b : BatchRow => a.id ≤ b.id)
      (s.batches.rows.filter fun r => r.status = .failed)
    rw [failedBatches, List.map_map, List.pairwise_map]
    refine hpairs.imp_of_mem fun {a b} ha hb hab => ?_
    have ha := (List.mem_filter.mp ((List.mem_insertionSort _).mp ha)).1
    have hb := (List.mem_filter.mp ((List.mem_insertionSort _).mp hb)).1
    exact h.ranked.ordered a ha b hb hab
  have hends := List.pairwise_append.mp h.sorted
  refine ⟨h.newest, h.window, ?_, ?_, h.ranked⟩
  · refine List.pairwise_append.mpr ⟨List.pairwise_append.mpr ⟨?_, hsorted, ?_⟩, hends.2.1, ?_⟩
    · exact hends.1.sublist (List.sublist_append_left _ _)
    · intro generation hmem g hg
      obtain ⟨candidate, hcandidate, rfl⟩ : ∃ candidate, s.pendingCandidate = some candidate ∧
          candidate.generation = generation := by simpa using hmem
      obtain ⟨batch, hbatch, rfl⟩ := List.mem_map.mp hg
      obtain ⟨b, hb, hstatus, -, hgeneration⟩ := hfailed batch hbatch
      exact hgeneration ▸ hready b hb hstatus candidate hcandidate
    · intro generation hmem g hg
      rcases List.mem_append.mp hmem with hmem | hmem
      · exact hends.2.2 generation (List.mem_append_left _ hmem) g hg
      · obtain ⟨batch, hbatch, rfl⟩ := List.mem_map.mp hmem
        obtain ⟨b, hb, -, -, hgeneration⟩ := hfailed batch hbatch
        exact hgeneration ▸ (h.ranked.frozen b hb).2 g (by simpa using hg)
  · intro generation hmem
    rcases mem_line.mp hmem with hmem | ⟨batch, hbatch, rfl⟩ | hmem
    · exact h.below generation (mem_line.mpr (Or.inl hmem))
    · obtain ⟨b, hb, -, -, hgeneration⟩ := hfailed batch hbatch
      exact hgeneration ▸ (h.ranked.frozen b hb).1
    · exact h.below generation (mem_line.mpr (Or.inr (Or.inr hmem)))

end Line

section Programs

def Grows (p q : Option PendingCandidate) : Prop :=
  ∀ a b, p = some a → q = some b → a.generation ≤ b.generation

def queueOf : Option Scheduler → List FrozenBatch
  | some sch => sch.queue
  | none => []

/-- In line, with a pending candidate that is not older than the one at the start. -/
def Stands (p : Option PendingCandidate) (queue : List FrozenBatch) (j : BatchJournal) : Prop :=
  InLine queue j.log j.state ∧ Grows p j.state.pendingCandidate

def Starts (p : Option PendingCandidate) (queue : List FrozenBatch) (j : BatchJournal) : Prop :=
  InLine queue j.log j.state ∧ j.state.pendingCandidate = p

def Queues (p : Option PendingCandidate) (queue : List FrozenBatch)
    (m : SchedulerProgram Scheduler) : Prop :=
  Triple (Starts p queue) m (Stands p []) fun next => Stands p next.queue

variable {p : Option PendingCandidate} {queue rest : List FrozenBatch} {j : BatchJournal}
variable {sch : Scheduler}

theorem Grows.of_eq {q : Option PendingCandidate} (h : q = p ∨ q = none) : Grows p q := by
  intro a b ha hb
  rcases h with rfl | rfl
  · obtain rfl := Option.some.inj (ha.symm.trans hb)
    exact le_rfl
  · simp at hb

theorem Starts.stands (h : Starts p queue j) : Stands p queue j :=
  ⟨h.1, .of_eq (Or.inl h.2)⟩

theorem Stands.shorten (h : Stands p queue j) (hsub : rest.Sublist queue) : Stands p rest j :=
  ⟨h.1.shorten hsub, h.2⟩

theorem Stands.stop (h : Stands p queue j) : Stands p [] j :=
  h.shorten (List.nil_sublist _)

theorem noteNothing_aside (s t : WriteRepository) : ∀ mark ∈ noteNothing s t, mark.aside :=
  fun _ hmark => absurd hmark List.not_mem_nil

theorem noteBatch_aside (s t : WriteRepository) : ∀ mark ∈ noteBatch s t, mark.aside := by
  intro mark hmark
  unfold noteBatch at hmark
  split_ifs at hmark
  · exact absurd hmark List.not_mem_nil
  · obtain ⟨batch, -, rfl⟩ := List.mem_map.mp hmark
    trivial

theorem noteDirty_aside (generation now : ℕ) (s t : WriteRepository) :
    ∀ mark ∈ noteDirty generation now s t, mark.aside := by
  intro mark hmark
  obtain rfl : mark = _ := List.mem_singleton.mp hmark
  trivial

theorem logged_stands {m : RepositoryProgram Unit} (hm : Advances Bystands m) :
    Preserves (Stands p queue) (m.logged noteNothing) := by
  refine Advances.logged hm fun s t log hmoves h => ?_
  have hst := bystands_of_moves hmoves
  refine ⟨h.1.bystands hst (noteNothing_aside s t), ?_⟩
  rw [hst.pendingCandidate]
  exact h.2

theorem markBatchFailed_stands (id : ℕ) :
    Preserves (Stands p queue) ((markBatchFailed id).logged noteNothing) :=
  logged_stands fun s => AdvancesFrom.commit (bystands_fail s id)

theorem Queues.pure (h : sch.queue = queue) : Queues p queue (Pure.pure sch) :=
  Triple.pure sch fun _ hj => h ▸ hj.stands

theorem Queues.drop {m : SchedulerProgram Unit} (hm : Preserves (Stands p sch.queue) m)
    (hsub : sch.queue.Sublist queue) : Queues p queue (m >>= fun _ => Pure.pure sch) := by
  refine Triple.bind (hm.mono (fun _ hj => hj.stands.shorten hsub) (fun _ hj => hj.stop)
    fun _ _ hj => hj) fun _ => ?_
  exact Triple.pure sch fun _ hj => hj

variable (quietDelay : ℕ)

theorem dirty_queues (c : Readings) {generation : ℕ} (baseRoot : Option String) (sch : Scheduler) :
    Triple (fun j => Starts p sch.queue j ∧ generation = j.state.currentGeneration)
      (dirty quietDelay c generation baseRoot sch) (Stands p []) fun next => Stands p next.queue := by
  unfold dirty
  split_ifs with hclosed
  · exact Triple.pure sch fun _ hj => hj.1.stands
  · refine Triple.bind (R := fun _ => Stands p sch.queue) ?_ fun times =>
      Triple.pure _ fun _ hj => hj
    rintro j ⟨hj, rfl⟩
    have hdirty : Stands p sch.queue ⟨j.state.markDirty j.state.currentGeneration c.now baseRoot,
        noteDirty j.state.currentGeneration c.now j.state
          (j.state.markDirty j.state.currentGeneration c.now baseRoot) ++ j.log⟩ :=
      ⟨hj.1.dirty c.now baseRoot (noteDirty_aside _ _ _ _), .of_eq (Or.inl hj.2)⟩
    refine ⟨fun k hk => ?_, fun _ _ => hdirty⟩
    obtain rfl := List.mem_singleton.mp hk
    exact hdirty.stop

theorem claim_stands (token : ℕ) (queue : List FrozenBatch) :
    Triple (Starts p queue) (Program.attempt ((claimPublicationBatch token).logged noteBatch))
      (Stands p []) fun claim => Stands p (queue ++ (claim.toOption.join).toList) := by
  intro j hj
  cases hclaim : claimBatch token j.state with
  | error e =>
    have hrun : (claimPublicationBatch token).run j.state = ⟨[], .error e⟩ :=
      Program.transaction_run_error hclaim
    simp only [Program.attempt, Program.logged, hrun, List.map_nil, List.not_mem_nil,
      IsEmpty.forall_iff, implies_true, Except.ok.injEq, forall_eq', true_and]
    exact hj.stands.shorten (by simp [Except.toOption])
  | ok r =>
    obtain ⟨batch, t⟩ := r
    have hrun : (claimPublicationBatch token).run j.state = ⟨[t], .ok batch⟩ :=
      Program.transaction_run_ok hclaim
    have hevolves := (hj.1.newest.invariant.batch_steady (.claim hclaim)).toEvolves
    have hstands : Stands p (queue ++ batch.toList) ⟨t, noteBatch j.state t ++ j.log⟩ := by
      cases batch with
      | none =>
        obtain rfl := claimBatch_none hclaim
        have hsame := hj.1.bystands (.refl _) (noteBatch_aside j.state j.state)
        exact ⟨by simpa using hsame, .of_eq (Or.inl hj.2)⟩
      | some batch =>
        obtain ⟨row, hfrozen, -, -, hgeneration⟩ := claimBatch_frozen hclaim
        refine ⟨hj.1.claim hfrozen hevolves hgeneration (noteBatch_aside _ _), ?_⟩
        exact .of_eq (Or.inl (hfrozen.pendingCandidate.trans hj.2))
    simp only [Program.attempt, Program.logged, hrun, List.map_cons, List.map_nil]
    refine ⟨fun k hk => ?_, fun claim hclaim => ?_⟩
    · obtain rfl := List.mem_singleton.mp hk
      exact hstands.stop
    · obtain rfl := Except.ok.inj hclaim
      exact hstands

theorem fire_queues (token : ℕ) (sch : Scheduler) : Queues p sch.queue (fire token sch) := by
  unfold fire
  split_ifs with hclosed
  · exact Queues.pure rfl
  · refine Triple.bind (claim_stands token sch.queue) fun claim => ?_
    split
    · exact Triple.pure _ fun _ hj => hj
    · exact Triple.pure _ fun _ hj => hj.shorten (List.sublist_append_left _ _)

theorem timerFires_queues (now : ℕ) (timer : Option Timer) (sch : Scheduler) :
    Queues p sch.queue (timerFires now timer sch) := by
  unfold timerFires
  split
  · split_ifs
    · exact fire_queues _ sch
    · exact Queues.pure rfl
  · exact Queues.pure rfl

theorem buildStarts_queues (sch : Scheduler) : Queues p sch.queue (buildStarts sch) := by
  unfold buildStarts
  split
  · next batch queue _ hqueue =>
    refine Triple.bind (R := fun _ => Starts p sch.queue) (Triple.read fun _ hj => hj) fun j => ?_
    split_ifs
    · exact Queues.pure rfl
    · refine Queues.drop (markBatchFailed_stands batch.id) ?_
      rw [hqueue]
      exact List.sublist_cons_self _ _
  · exact Queues.pure rfl

/-- After its transaction `recordPending` only works on blobs. -/
theorem recordPending_commits {fails : String → Option String} {now : ℕ} {batch : FrozenBatch}
    {build : HashtreeBuild} {s t : WriteRepository}
    (ht : t ∈ ((recordPending fails now batch (candidateOf batch build) build.inventory
      build.runId).run s).commits) :
    ∃ u, storePending batch (candidateOf batch build) build.inventory build.runId s = .ok ((), u) ∧
      SameLedger u t := by
  rw [recordPending, Program.bind_read_run] at ht
  cases hstore : storePending batch (candidateOf batch build) build.inventory build.runId s with
  | error e =>
    rw [Program.bind_run_error (e := e) (by rw [Program.transaction_run_error hstore]),
      Program.transaction_run_error hstore] at ht
    exact absurd ht List.not_mem_nil
  | ok r =>
    obtain ⟨⟨⟩, u⟩ := r
    have hrun := Program.transaction_run_ok hstore
    rw [Program.bind_run_ok (a := ()) (by rw [hrun]), hrun] at ht
    refine ⟨u, rfl, ?_⟩
    rcases List.mem_append.mp ht with ht | ht
    · obtain rfl := List.mem_singleton.mp ht
      exact ⟨rfl, rfl⟩
    · cases hpending : s.pendingCandidate with
      | none =>
        rw [hpending] at ht
        exact absurd ht List.not_mem_nil
      | some superseded =>
        rw [hpending] at ht
        dsimp only at ht
        split_ifs at ht
        · exact absurd ht List.not_mem_nil
        · obtain ⟨blobs, -, rfl⟩ := List.mem_map.mp ht
          exact sameLedger_blobs u blobs

theorem recordBuild_stands (fails : String → Option String) (now : ℕ) (batch : FrozenBatch)
    (answer : Option HashtreeBuild) (rest : List FrozenBatch) :
    Triple (Starts p (batch :: rest)) (recordBuild fails now batch answer) (Stands p [])
      fun _ => Stands p rest := by
  have hdrop : rest.Sublist (batch :: rest) := List.sublist_cons_self _ _
  have hfail : Triple (Stands p rest) ((markBatchFailed batch.id).logged noteNothing) (Stands p [])
      fun _ => Stands p rest :=
    (markBatchFailed_stands batch.id).mono (fun _ hj => hj) (fun _ hj => hj.stop) fun _ _ hj => hj
  cases answer with
  | none => exact hfail.mono (fun _ hj => hj.stands.shorten hdrop) (fun _ hj => hj) fun _ _ hj => hj
  | some build =>
    refine Triple.bind (R := fun _ => Stands p rest) (fun j hj => ?_) fun result => ?_
    · have hcommits : ∀ k ∈ (((recordPending fails now batch (candidateOf batch build)
          build.inventory build.runId).logged (noteRecorded batch.generation)).attempt.run j).commits,
          Stands p rest k := by
        intro k hk
        obtain ⟨t, ht, rfl⟩ := List.mem_map.mp hk
        obtain ⟨u, hstore, hsame⟩ := recordPending_commits ht
        have hut := Bystands.of_same hsame
        refine ⟨(hj.1.record hstore).bystands hut aside_nil, ?_⟩
        intro a b ha hb
        have hpending := hut.pendingCandidate.trans (storePending_stored hstore).pendingCandidate
        obtain rfl := Option.some.inj (hpending.symm.trans hb)
        have hsorted := hj.1.sorted
        rw [generationLine, hj.2, ha] at hsorted
        exact List.rel_of_pairwise_cons hsorted (by simp)
      refine ⟨fun k hk => (hcommits k hk).stop, fun result _ => ?_⟩
      rcases (((recordPending fails now batch (candidateOf batch build) build.inventory
        build.runId).logged (noteRecorded batch.generation)).attempt.run j).final_mem j with h | h
      · rw [h]
        exact hj.stands.shorten hdrop
      · exact hcommits _ h
    · split
      · exact Triple.pure _ fun _ hj => hj
      · exact hfail

theorem buildEnds_queues (fails : String → Option String) (now : ℕ) (answer : Option HashtreeBuild)
    (sch : Scheduler) : Queues p sch.queue (buildEnds fails now answer sch) := by
  unfold buildEnds
  split
  · next batch queue _ hqueue =>
    rw [hqueue]
    refine Triple.bind (recordBuild_stands fails now batch answer queue) fun _ => ?_
    exact Triple.pure _ fun _ hj => hj
  · exact Queues.pure rfl

/-- No newer candidate is pending than the batches that the next process will build again. -/
def RetriesInOrder (s : WriteRepository) : Prop :=
  ∀ b ∈ s.batches.rows, b.status = .failed ∨ b.status = .building →
    ∀ candidate ∈ s.pendingCandidate, candidate.generation ≤ b.generation

instance (s : WriteRepository) : Decidable (RetriesInOrder s) :=
  inferInstanceAs (Decidable (∀ b ∈ s.batches.rows, _ → _))

theorem retriesInOrder_same {s t : WriteRepository} (h : SameLedger s t) (hs : RetriesInOrder s) :
    RetriesInOrder t := by
  have hledger := h.1
  simp only [ledger, Ledger.mk.injEq] at hledger
  obtain ⟨-, -, hbatches, -, hpending, -⟩ := hledger
  rw [RetriesInOrder, hbatches, hpending]
  exact hs

theorem retriesInOrder_activate {s : WriteRepository} (hs : RetriesInOrder s) :
    RetriesInOrder s.activateRows := by
  intro b hb hstatus candidate hcandidate
  simp only [activateRows, Table.mem_update] at hb
  obtain ⟨a, ha, rfl⟩ := hb
  have hgeneration : (if a.status = .building then { a with status := .failed } else a).generation =
      a.generation := by split_ifs <;> rfl
  rw [hgeneration]
  refine hs a ha ?_ candidate hcandidate
  by_cases hbuilding : a.status = .building
  · exact Or.inr hbuilding
  · rwa [if_neg hbuilding] at hstatus

variable (digest : Bytes → String)

theorem restart_stands (l : SchedulerLabel) (retries : String → Option String)
    (queue : List FrozenBatch) :
    Triple (fun j => Starts p queue j ∧ RetriesInOrder j.state) (restart digest quietDelay l retries)
      (Stands p []) fun next => Stands p next.queue := by
  have hreopen : Advances (fun s t => Bystands s t ∧ (RetriesInOrder s → RetriesInOrder t))
      (reopen digest l.fails retries l.readings.now) :=
    reopen_advances digest (fun _ _ h => ⟨.of_same h, retriesInOrder_same h⟩)
      (fun s => ⟨bystands_activate s, retriesInOrder_activate⟩) _ _ _
  have hready : Preserves (fun j => Stands p [] j ∧ RetriesInOrder j.state)
      ((reopen digest l.fails retries l.readings.now).logged noteNothing) := by
    refine Advances.logged hreopen fun s t log hmoves h => ?_
    clear hreopen
    induction hmoves with
    | refl => exact h
    | tail _ hmove ih =>
      obtain ⟨hst, hretries⟩ := hmove
      refine ⟨⟨ih.1.1.bystands hst (noteNothing_aside _ _), ?_⟩, hretries ih.2⟩
      rw [hst.pendingCandidate]
      exact ih.1.2
  refine Triple.bind (R := fun _ j => Stands p [] j ∧ RetriesInOrder j.state) ?_ fun _ => ?_
  · exact hready.mono (fun _ hj => ⟨hj.1.stands.stop, hj.2⟩) (fun _ hj => hj.1) fun _ _ hj => hj
  · refine Triple.bind (R := fun i j => i = j ∧ Stands p [] j ∧ RetriesInOrder j.state)
      (Triple.read fun _ hj => ⟨rfl, hj⟩) fun i => ?_
    have hconstructed : ∀ j, i = j ∧ Stands p [] j ∧ RetriesInOrder j.state →
        Stands p i.state.failedBatches j := by
      rintro j ⟨rfl, hj, hretries⟩
      exact ⟨hj.1.retry fun b hb hstatus => hretries b hb (Or.inl hstatus), hj.2⟩
    dsimp only
    split
    · exact Triple.pure _ hconstructed
    · exact Triple.pure _ hconstructed

end Programs

section Machine

variable (digest : Bytes → String) (acceptable : RawPublication → Bool) (quietDelay : ℕ)

/-- The overlay is marked dirty at its current generation, and a process starts only while no newer
candidate is pending than the batches it will build again. -/
def SchedulerEvent.InOrder (s : WriteRepository) : SchedulerEvent → Prop
  | .dirty generation _ => generation = s.currentGeneration
  | .restart _ => RetriesInOrder s
  | _ => True

instance (s : WriteRepository) : (event : SchedulerEvent) → Decidable (event.InOrder s)
  | .dirty generation _ => inferInstanceAs (Decidable (generation = s.currentGeneration))
  | .restart _ => inferInstanceAs (Decidable (RetriesInOrder s))
  | .quietFires | .maximumFires | .buildStarts | .buildEnds _ | .close | .staging _ | .saga _ =>
    .isTrue trivial

def InOrder (w : SchedulerState) (l : SchedulerLabel) : Prop :=
  l.event.InOrder w.journal.state

instance (w : SchedulerState) (l : SchedulerLabel) : Decidable (InOrder w l) :=
  inferInstanceAs (Decidable (l.event.InOrder w.journal.state))

variable {p : Option PendingCandidate} {queue : List FrozenBatch}

theorem runs_stands {P : BatchJournal → Prop} {m : SchedulerProgram Scheduler}
    (h : Triple P m (Stands p []) fun next => Stands p next.queue) :
    Triple P (runs m) (Stands p []) fun next => Stands p (queueOf next) :=
  Triple.bind h fun next => Triple.pure (some next) fun _ hj => hj

theorem staging_stands (l : SchedulerLabel) (op : StagingOp) (sch : Option Scheduler) :
    Triple (Starts p (queueOf sch))
      (alongside noteNothing (stagingProgram digest l.fails l.readings.now op) sch) (Stands p [])
      fun next => Stands p (queueOf next) := by
  have hstaging : Advances Bystands (stagingProgram digest l.fails l.readings.now op) :=
    Advances.mono (fun _ _ h => .of_staged h) (staging_advances digest l.fails l.readings.now op)
  have hkeeps : Preserves (Stands p (queueOf sch)) _ := (logged_stands hstaging).attempt
  refine Triple.bind (hkeeps.mono (fun _ hj => hj.stands) (fun _ hj => hj.stop) fun _ _ hj => hj)
    fun _ => ?_
  exact Triple.pure sch fun _ hj => hj

theorem saga_stands (l : SchedulerLabel) (op : SagaOp) (sch : Option Scheduler) :
    Triple (Starts p (queueOf sch))
      (alongside noteTaken (sagaProgram acceptable l.fails l.readings.now op) sch) (Stands p [])
      fun next => Stands p (queueOf next) := by
  refine Triple.bind (R := fun _ => Stands p (queueOf sch)) (fun j hj => ?_) fun _ =>
    Triple.pure sch fun _ hj => hj
  have hcommits : ∀ k ∈ (((sagaProgram acceptable l.fails l.readings.now op).logged
      noteTaken).attempt.run j).commits, Stands p (queueOf sch) k := by
    intro k hk
    obtain ⟨t, ht, rfl⟩ := List.mem_map.mp hk
    have hmoves := saga_advances acceptable l.fails l.readings.now op j.state t ht
    obtain ⟨hline, hpending⟩ := hj.1.sagaMoves hmoves
    exact ⟨hline, .of_eq (hj.2 ▸ hpending)⟩
  refine ⟨fun k hk => (hcommits k hk).stop, fun _ _ => ?_⟩
  rcases (((sagaProgram acceptable l.fails l.readings.now op).logged noteTaken).attempt.run j).final_mem
    j with h | h
  · rw [h]
    exact hj.stands
  · exact hcommits _ h

theorem program_stands (l : SchedulerLabel) (sch : Option Scheduler) :
    Triple (fun j => Starts p (queueOf sch) j ∧ InOrder ⟨j, sch⟩ l)
      (l.program digest acceptable quietDelay sch) (Stands p [])
      fun next => Stands p (queueOf next) := by
  have hqueues {queue : List FrozenBatch} {m : SchedulerProgram Scheduler} (h : Queues p queue m) :
      Triple (fun j => Starts p queue j ∧ InOrder ⟨j, sch⟩ l) (runs m) (Stands p [])
        fun next => Stands p (queueOf next) :=
    runs_stands (h.mono (fun _ hj => hj.1) (fun _ hj => hj) fun _ _ hj => hj)
  unfold SchedulerLabel.program
  split
  · next generation baseRoot sch hevent =>
    refine runs_stands ((dirty_queues quietDelay l.readings baseRoot sch).mono (fun j hj => ?_)
      (fun _ hj => hj) fun _ _ hj => hj)
    obtain ⟨hj, horder⟩ := hj
    rw [InOrder, hevent] at horder
    exact ⟨hj, horder⟩
  · exact hqueues (timerFires_queues _ _ _)
  · exact hqueues (timerFires_queues _ _ _)
  · exact hqueues (buildStarts_queues _)
  · exact hqueues (buildEnds_queues _ _ _ _)
  · exact Triple.pure _ fun _ hj => hj.1.stands
  · next sch _ _ retries hevent =>
    refine runs_stands ((restart_stands quietDelay digest l retries (queueOf sch)).mono (fun j hj => ?_)
      (fun _ hj => hj) fun _ _ hj => hj)
    obtain ⟨hj, horder⟩ := hj
    rw [InOrder, hevent] at horder
    exact ⟨hj, horder⟩
  · exact (staging_stands digest l _ _).mono (fun _ hj => hj.1) (fun _ hj => hj) fun _ _ hj => hj
  · exact (saga_stands acceptable l _ _).mono (fun _ hj => hj.1) (fun _ hj => hj) fun _ _ hj => hj
  · exact Triple.pure none fun _ hj => hj.1.stands.stop

theorem schedulerStep_stands {w : SchedulerState} {l : SchedulerLabel}
    (h : InLine (queueOf w.scheduler) w.journal.log w.journal.state) (horder : InOrder w l) :
    let next := schedulerStep digest acceptable quietDelay w l
    Stands w.journal.state.pendingCandidate (queueOf next.scheduler) next.journal := by
  have hstart : Starts w.journal.state.pendingCandidate (queueOf w.scheduler) w.journal := ⟨h, rfl⟩
  refine schedulerStep_of_triple digest acceptable
    (program_stands digest acceptable quietDelay l w.scheduler) ⟨hstart, horder⟩ hstart.stands.stop
    (fun _ hj => hj) fun j hj => ?_
  have hforget : SameLedger j.state j.state.forgetProcess := ⟨rfl, rfl⟩
  exact ⟨hj.1.bystands (.of_same hforget) aside_nil, hj.2⟩

theorem inLine_initial (capacity : ℕ) :
    let w := schedulerInitial capacity
    InLine (queueOf w.scheduler) w.journal.log w.journal.state := by
  refine ⟨⟨initial_invariant capacity, ?_, ?_, .nil _⟩, windowInvariant_initial capacity,
    List.Pairwise.nil, ?_, ?_⟩
  · intro candidate hcandidate
    exact absurd hcandidate (by simp [schedulerInitial, WriteRepository.initial])
  · intro generation hmark
    exact absurd hmark List.not_mem_nil
  · intro generation hmem
    exact absurd hmem List.not_mem_nil
  · constructor
    all_goals
      intro b hb
      exact absurd hb List.not_mem_nil

/-- In a run in order the pending candidate is never replaced by one of a smaller generation, and a
claim takes the newest generation that has been built by then. -/
theorem pending_never_regresses (capacity : ℕ) (labels : List SchedulerLabel)
    (h : Always (schedulerStep digest acceptable quietDelay) InOrder (schedulerInitial capacity)
      labels) :
    Always (schedulerStep digest acceptable quietDelay) (fun w l =>
      ∀ before after, w.journal.state.pendingCandidate = some before →
        (schedulerStep digest acceptable quietDelay w l).journal.state.pendingCandidate = some after →
        before.generation ≤ after.generation) (schedulerInitial capacity) labels ∧
    ∀ later generation earlier,
      (run (schedulerStep digest acceptable quietDelay) (schedulerInitial capacity) labels).journal.log =
        later ++ .taken generation :: earlier →
      .recorded generation ∈ earlier ∧ ∀ built, .recorded built ∈ earlier → built ≤ generation := by
  have hstep : ∀ (w : SchedulerState) l, InLine (queueOf w.scheduler) w.journal.log w.journal.state →
      InOrder w l → InLine (queueOf (schedulerStep digest acceptable quietDelay w l).scheduler)
        (schedulerStep digest acceptable quietDelay w l).journal.log
        (schedulerStep digest acceptable quietDelay w l).journal.state :=
    fun w l hw horder => (schedulerStep_stands digest acceptable quietDelay hw horder).1
  refine ⟨?_, fun later generation earlier hsplit => ?_⟩
  · refine always_of_invariant hstep (fun w l hw horder => ?_) (inLine_initial capacity) h
    exact (schedulerStep_stands digest acceptable quietDelay hw horder).2
  · have hline := run_invariant hstep (inLine_initial capacity) h
    exact hline.newest.taken later _ earlier hsplit generation rfl

end Machine

section Retries

def labelOf (event : SchedulerEvent) : SchedulerLabel :=
  ⟨event, ⟨0, 0, 0⟩, fun _ => none, none⟩

def builtTree : HashtreeBuild where
  rootHex := "root"
  rootNhash := "nhash"
  rootBlob := ⟨"root", 1, "root"⟩
  otherBlobs := []
  totalBytes := 1
  runId := none

/-- One store path is uploaded and committed, the overlay is marked dirty, and the window is claimed
and built. -/
def publishPath (name : String) (generation : ℕ) (answer : Option HashtreeBuild) :
    List SchedulerEvent :=
  [.staging (.insertStagedBlob ⟨name ++ ".narinfo", "digest", 1, "path"⟩),
    .staging (.insertStagedBlob ⟨"nar/" ++ name, "digest", 1, "path"⟩),
    .staging (.recordNarInfo (name ++ ".narinfo") ⟨name, "nar/" ++ name, [], 1⟩),
    .staging (.commitOverlay [name]), .dirty generation none, .quietFires, .buildStarts,
    .buildEnds answer]

/-- The build of the first path fails, the build of the second one succeeds. -/
def olderFails : List SchedulerLabel :=
  (SchedulerEvent.restart (fun _ => none) :: publishPath "a" 1 none ++
    publishPath "b" 2 (some builtTree)).map labelOf

/-- Both builds succeed before the candidate is claimed. -/
def bothSucceed : List SchedulerLabel :=
  (SchedulerEvent.restart (fun _ => none) :: publishPath "a" 1 (some builtTree) ++
    publishPath "b" 2 (some builtTree) ++
    [SchedulerEvent.saga (.claimPublication ["server"])]).map labelOf

theorem pending_never_regresses_sample :
    ∃ later generation earlier,
      (run (schedulerStep (fun _ => "") (fun _ => true) 0) (schedulerInitial 0)
        bothSucceed).journal.log = later ++ .taken generation :: earlier ∧
      .recorded generation ∈ earlier ∧ ∀ built, .recorded built ∈ earlier → built ≤ generation := by
  have hrun := (pending_never_regresses (fun _ => "") (fun _ => true) 0 0 bothSucceed (by decide)).2
  have hlog : (run (schedulerStep (fun _ => "") (fun _ => true) 0) (schedulerInitial 0)
      bothSucceed).journal.log = [] ++ .taken 2 :: (run (schedulerStep (fun _ => "")
        (fun _ => true) 0) (schedulerInitial 0) bothSucceed).journal.log.tail := by rfl
  exact ⟨[], 2, _, hlog, hrun [] 2 _ hlog⟩

/-- The next process builds the failed batch again and replaces the newer candidate, and a claim then
takes the older one. -/
theorem retried_batch_regresses :
    let step := schedulerStep (fun _ => "") (fun _ => true) 0
    let w := run step (schedulerInitial 0)
      (olderFails ++ [labelOf (.restart fun _ => none), labelOf .buildStarts])
    let next := step w (labelOf (.buildEnds (some builtTree)))
    let last := step next (labelOf (.saga (.claimPublication ["server"])))
    w.journal.state.pendingCandidate.map PendingCandidate.generation = some 2 ∧
      next.journal.state.pendingCandidate.map PendingCandidate.generation = some 1 ∧
      ∃ earlier, last.journal.log = .taken 1 :: earlier ∧ .recorded 2 ∈ earlier := by
  refine ⟨by rfl, by rfl, ?_⟩
  refine ⟨_, rfl, by decide⟩

end Retries

end NixstrCache.Write.BatchScheduler

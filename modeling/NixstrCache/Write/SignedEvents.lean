import NixstrCache.Write.AvailabilityGate
import NixstrCache.Write.PublicationEvent

/-!
The signed events of the sagas.

A saga is marked by its generation, its batch id and its event.  The marks of the active and of the
archived sagas only grow as long as no claim takes over the id of an earlier saga: the event of a
saga stays as it was recorded, and each new event is later than those of the sagas before it.
-/

namespace NixstrCache.Write

open Durable KeyedTable Runs Persistence Persistence.WriteRepository

section Marks

structure Mark where
  generation : ℕ
  batchId : ℕ
  event : Option RawPublication

def Mark.Before (p q : Mark) : Prop :=
  p.generation < q.generation ∨ p.generation = q.generation ∧ p.batchId < q.batchId

structure Marks where
  active : List Mark
  archived : List Mark

def sagaMark (r : SagaRow) : Mark :=
  ⟨r.candidate.generation, r.batchId, r.signedEvent⟩

def marksOf (s : WriteRepository) : Marks :=
  ⟨s.sagas.rows.map sagaMark, s.history.rows.map fun h => sagaMark h.saga⟩

def Marks.all (m : Marks) : List Mark :=
  m.active ++ m.archived

/-- The archived sagas are before the active one and have other ids, and later sagas have later
events. -/
structure Marks.Chain (m : Marks) : Prop where
  single : m.active.length ≤ 1
  older : ∀ a ∈ m.active, ∀ h ∈ m.archived, h.Before a
  distinct : ∀ a ∈ m.active, ∀ h ∈ m.archived, h.batchId ≠ a.batchId
  increasing : ∀ p ∈ m.all, ∀ q ∈ m.all, p.Before q → ∀ e ∈ p.event, ∀ f ∈ q.event,
    e.createdAt < f.createdAt

/-- Every saga of the first marks is in the second ones, with its event if it had one. -/
def Marks.Retains (m n : Marks) : Prop :=
  ∀ p ∈ m.all, ∃ q ∈ n.all, q.generation = p.generation ∧ q.batchId = p.batchId ∧
    ∀ e ∈ p.event, q.event = some e

variable {m n k : Marks} {a : Mark}

theorem Marks.Retains.refl (m : Marks) : m.Retains m :=
  fun p hp => ⟨p, hp, rfl, rfl, fun _ he => he⟩

theorem Marks.Retains.trans (h : m.Retains n) (h' : n.Retains k) : m.Retains k := by
  intro p hp
  obtain ⟨q, hq, hgeneration, hid, hevent⟩ := h p hp
  obtain ⟨r, hr, hgeneration', hid', hevent'⟩ := h' q hq
  exact ⟨r, hr, hgeneration'.trans hgeneration, hid'.trans hid,
    fun e he => hevent' e (hevent e he)⟩

theorem Marks.mem_all : a ∈ m.all ↔ a ∈ m.active ∨ a ∈ m.archived :=
  List.mem_append

theorem Marks.Chain.active_eq (h : m.Chain) (ha : a ∈ m.active) : m.active = [a] := by
  have hsingle := h.single
  match hactive : m.active with
  | [] => simp [hactive] at ha
  | [b] =>
    obtain rfl : a = b := by simpa [hactive] using ha
    rfl
  | b :: c :: rest => simp [hactive] at hsingle

/-- The active saga goes to the archive and a new one without an event takes its place. -/
structure Marks.Opens (m n : Marks) (b : Mark) : Prop where
  active : n.active = [b]
  archived : ∀ p, p ∈ n.archived ↔ p ∈ m.all
  later : ∀ p ∈ m.all, p.Before b
  unused : ∀ p ∈ m.all, p.batchId ≠ b.batchId
  unsigned : b.event = none

theorem Marks.Opens.retains {b : Mark} (h : m.Opens n b) : m.Retains n :=
  fun p hp => ⟨p, Marks.mem_all.mpr (Or.inr ((h.archived p).mpr hp)), rfl, rfl, fun _ he => he⟩

theorem Marks.Opens.chain {b : Mark} (h : m.Opens n b) (hm : m.Chain) : n.Chain where
  single := by simp [h.active]
  older a ha p hp := by
    obtain rfl : a = b := by simpa [h.active] using ha
    exact h.later p ((h.archived p).mp hp)
  distinct a ha p hp := by
    obtain rfl : a = b := by simpa [h.active] using ha
    exact h.unused p ((h.archived p).mp hp)
  increasing p hp q hq hbefore e he f hf := by
    have hold {r : Mark} (hr : r ∈ n.all) {g : RawPublication} (hg : g ∈ r.event) : r ∈ m.all := by
      rcases Marks.mem_all.mp hr with hr | hr
      · obtain rfl : r = b := by simpa [h.active] using hr
        simp [h.unsigned] at hg
      · exact (h.archived r).mp hr
    exact hm.increasing p (hold hp he) q (hold hq hf) hbefore e he f hf

/-- The active saga gets an event that is later than all archived ones. -/
structure Marks.Signs (m n : Marks) (a : Mark) (event : RawPublication) : Prop where
  before : m.active = [a]
  unsigned : a.event = none
  active : n.active = [{ a with event := some event }]
  archived : n.archived = m.archived
  later : ∀ h ∈ m.archived, ∀ e ∈ h.event, e.createdAt < event.createdAt

theorem Marks.Signs.retains {event : RawPublication} (h : m.Signs n a event) : m.Retains n := by
  intro p hp
  rcases Marks.mem_all.mp hp with hp | hp
  · obtain rfl : p = a := by simpa [h.before] using hp
    refine ⟨{ p with event := some event }, ?_, rfl, rfl, fun e he => ?_⟩
    · exact Marks.mem_all.mpr (Or.inl (by simp [h.active]))
    · simp [h.unsigned] at he
  · exact ⟨p, Marks.mem_all.mpr (Or.inr (h.archived ▸ hp)), rfl, rfl, fun _ he => he⟩

theorem Marks.Signs.chain {event : RawPublication} (h : m.Signs n a event) (hm : m.Chain) :
    n.Chain := by
  have ha : a ∈ m.active := by simp [h.before]
  have holder : ∀ p ∈ m.archived, p.Before { a with event := some event } := hm.older a ha
  refine ⟨by simp [h.active], ?_, ?_, ?_⟩
  · intro b hb p hp
    obtain rfl : b = _ := by simpa [h.active] using hb
    exact holder p (h.archived ▸ hp)
  · intro b hb p hp
    obtain rfl : b = _ := by simpa [h.active] using hb
    exact hm.distinct a ha p (h.archived ▸ hp)
  · intro p hp q hq hbefore e he f hf
    rw [Marks.mem_all, h.active, h.archived, List.mem_singleton] at hp hq
    rcases hp with rfl | hp
    · -- nothing comes after the active saga
      exfalso
      rcases hq with rfl | hq
      · unfold Mark.Before at hbefore
        omega
      · have hback := holder q hq
        unfold Mark.Before at hbefore hback
        simp only at hbefore hback
        omega
    · rcases hq with rfl | hq
      · obtain rfl : event = f := by simpa using hf
        exact h.later p hp e he
      · exact hm.increasing p (Marks.mem_all.mpr (Or.inr hp)) q (Marks.mem_all.mpr (Or.inr hq)) hbefore
          e he f hf

end Marks

section Moves

variable {s t : WriteRepository}

theorem marksOf_of_tables (hsagas : t.sagas = s.sagas) (hhistory : t.history = s.history) :
    marksOf t = marksOf s := by
  simp only [marksOf, hsagas, hhistory]

theorem marksOf_of_ledger (h : t.ledger = s.ledger) : marksOf t = marksOf s := by
  simp only [ledger, Ledger.mk.injEq] at h
  exact marksOf_of_tables (by simp [h]) (by simp [h])

theorem marksOf_updateSaga {n : ℕ} {g : SagaRow → SagaRow} {hg : ∀ r, (g r).batchId = r.batchId}
    (hmark : ∀ r, sagaMark (g r) = sagaMark r) : marksOf (s.updateSaga n g hg) = marksOf s := by
  have hrow : ∀ r : SagaRow, sagaMark (if r.batchId = n then g r else r) = sagaMark r := by
    intro r
    split_ifs
    · exact hmark r
    · rfl
  simp [marksOf, updateSaga, Function.comp_def, hrow]

theorem marksOf_columns {touched : EndpointWork → Prop} (h : ColumnMove touched s t) :
    marksOf t = marksOf s := by
  cases h with
  | same h => exact marksOf_of_ledger h.1
  | work | prune => exact marksOf_of_tables rfl rfl
  | completeArchived =>
    have hrow : ∀ (n : ℕ) (server : String) (h : HistoryRow), sagaMark (if h.batchId = n then
        { h with saga := setCompleteServer server h.saga } else h).saga = sagaMark h.saga := by
      intro n server h
      split_ifs <;> rfl
    simp [marksOf, completeArchived, Function.comp_def, hrow]
  | _ => exact marksOf_updateSaga fun _ => rfl

theorem marksOf_batch (h : BatchMove s t) : marksOf t = marksOf s := by
  cases h with
  | same h => exact marksOf_of_ledger h.1
  | claim h =>
    rcases claimBatch_ok h with ⟨-, rfl⟩ | ⟨_, _, _, -, -, -, -, -, -, rfl⟩
    · rfl
    · rfl
  | record h => exact marksOf_of_tables (storePending_stored h).sagas (storePending_stored h).history
  | _ => rfl

theorem marksOf_adopt (server : String) (n : ℕ) : marksOf (adoptServer server n s) = marksOf s := by
  have hrow : ∀ r : SagaRow, sagaMark (if r.batchId = n ∧ r.completeServer = none ∧
      r.signedEvent = none then { r with completeServer := some server } else r) = sagaMark r := by
    intro r
    split_ifs <;> rfl
  simp [marksOf, adoptServer, Function.comp_def, hrow]

theorem mem_marksOf_all {p : Mark} :
    p ∈ (marksOf s).all ↔ ∃ r ∈ s.records, sagaMark r = p := by
  simp [Marks.all, marksOf, records, or_and_right, exists_or]

theorem claim_opens {candidate : PendingCandidate} {destinations : List String} {now : ℕ}
    (hI : SagaInvariant s) (hc : Claimed s t candidate destinations now)
    (hnewer : ∀ a ∈ s.sagas.rows, a.candidate.generation < candidate.generation)
    (hchain : (marksOf s).Chain) (hunused : ∀ r ∈ s.records, r.batchId ≠ candidate.batchId) :
    (marksOf s).Opens (marksOf t) (sagaMark (freshSaga candidate destinations)) where
  active := by simp [marksOf, hc.sagas]
  archived p := by
    have hdistinct : ∀ h ∈ s.history.rows, ∀ a ∈ s.sagas.rows, a.batchId ≠ h.batchId := by
      intro h hh a ha
      exact (hchain.distinct (sagaMark a) (List.mem_map_of_mem ha) (sagaMark h.saga)
        (List.mem_map_of_mem (f := fun h => sagaMark h.saga) hh)).symm
    simp only [marksOf, Marks.all, List.mem_append, List.mem_map, hc.mem_history hI.single]
    constructor
    · rintro ⟨h, ⟨hh, -⟩ | ⟨a, ha, rfl⟩, rfl⟩
      · exact Or.inr ⟨h, hh, rfl⟩
      · exact Or.inl ⟨a, ha, rfl⟩
    · rintro (⟨a, ha, rfl⟩ | ⟨h, hh, rfl⟩)
      · exact ⟨⟨a, now⟩, Or.inr ⟨a, ha, rfl⟩, rfl⟩
      · exact ⟨h, Or.inl ⟨hh, hdistinct h hh⟩, rfl⟩
  later p hp := by
    obtain ⟨r, hr, rfl⟩ := mem_marksOf_all.mp hp
    exact Or.inl (hI.generation_lt hnewer r hr)
  unused p hp := by
    obtain ⟨r, hr, rfl⟩ := mem_marksOf_all.mp hp
    exact hunused r hr
  unsigned := rfl

theorem refresh_opens {a : SagaRow} {now : ℕ} (hI : SagaInvariant s) (hrows : s.sagas.rows = [a])
    (hc : Refreshed s t a now) (hchain : (marksOf s).Chain) :
    (marksOf s).Opens (marksOf t) (sagaMark (refreshedSaga (readSaga a) (s.maxSagaId + 1))) where
  active := by simp [marksOf, hc.sagas]
  archived p := by
    have hfresh : ∀ q ∈ s.history.rows, q.batchId ≠ a.batchId := by
      intro q hq
      exact hchain.distinct (sagaMark a) (by simp [marksOf, hrows]) (sagaMark q.saga)
        (List.mem_map_of_mem (f := fun h => sagaMark h.saga) hq)
    simp only [marksOf, Marks.all, List.mem_append, List.mem_map, hc.mem_history, hrows,
      List.mem_singleton]
    constructor
    · rintro ⟨h, hh | ⟨rfl, -⟩, rfl⟩
      · exact Or.inr ⟨h, hh, rfl⟩
      · exact Or.inl ⟨a, rfl, rfl⟩
    · rintro (⟨q, rfl, rfl⟩ | ⟨h, hh, rfl⟩)
      · exact ⟨⟨q, now⟩, Or.inr ⟨rfl, hfresh⟩, rfl⟩
      · exact ⟨h, Or.inl hh, rfl⟩
  later p hp := by
    obtain ⟨r, hr, rfl⟩ := mem_marksOf_all.mp hp
    exact hI.before_refreshed hrows r hr
  unused p hp := by
    obtain ⟨r, hr, rfl⟩ := mem_marksOf_all.mp hp
    exact (Nat.lt_succ_of_le (le_maxSagaId hr)).ne
  unsigned := rfl

end Moves

section Claims

variable {s t : WriteRepository} {destinations : List String}

/-- The candidate that `claimPublication` opens a saga for. -/
def claimable (s : WriteRepository) (destinations : List String) : Option PendingCandidate :=
  s.pendingCandidate.filter fun candidate => destinations ≠ [] ∧
    s.publicationSaga.all fun current => current.candidate.generation < candidate.generation ∧
      (current.admitted ∨ current.signedEvent = none)

/-- The id of the candidate that is claimed is not the id of a saga. -/
def ClaimsUnused (s : WriteRepository) (destinations : List String) : Prop :=
  ∀ candidate, claimable s destinations = some candidate →
    ∀ r ∈ s.records, r.batchId ≠ candidate.batchId

/-- The transactions of `claimPublication` with the candidate that they claim. -/
inductive TakeMove (destinations : List String) : WriteRepository → WriteRepository → Prop
  | adopt {s current prior server} (hcurrent : s.publicationSaga = some current)
      (hunset : current.completeServer = none ∧ current.signedEvent = none)
      (hprior : s.priorComplete current = some prior) (hserver : prior.completeServer = some server) :
      TakeMove destinations s (adoptServer server current.batchId s)
  | claim {s t candidate now} (hclaimable : claimable s destinations = some candidate)
      (h : claimCandidate candidate destinations now s = .ok ((), t)) : TakeMove destinations s t

theorem claimable_eq_some {candidate : PendingCandidate} :
    claimable s destinations = some candidate ↔ s.pendingCandidate = some candidate ∧
      destinations ≠ [] ∧ ∀ current, s.publicationSaga = some current →
        current.candidate.generation < candidate.generation ∧
          (current.admitted = true ∨ current.signedEvent = none) := by
  simp only [claimable, Option.filter_eq_some_iff, Bool.decide_and, Bool.and_eq_true,
    decide_eq_true_eq, Option.all_eq_true]

theorem TakeMove.claimMove (h : TakeMove destinations s t) : ClaimMove s t := by
  cases h with
  | adopt hcurrent hunset hprior hserver => exact .adopt hcurrent hunset hprior hserver
  | claim hclaimable h =>
    obtain ⟨hpending, -, hnewer⟩ := claimable_eq_some.mp hclaimable
    exact .claim hpending hnewer h

theorem takeCandidate_advances {candidate : PendingCandidate} (now : ℕ)
    (hclaimable : claimable s destinations = some candidate) :
    AdvancesFrom (TakeMove destinations) s (do
      Program.transaction (claimCandidate candidate destinations now)
      let t ← Program.read
      pure t.publicationSaga) := by
  refine AdvancesFrom.bind (AdvancesFrom.transaction fun _ t h => .claim hclaimable h) ?_
  exact fun _ _ => AdvancesFrom.read_bind (AdvancesFrom.pure _)

theorem claimPublication_takes (now : ℕ) (destinations : List String) :
    Advances (TakeMove destinations) (claimPublication destinations now) := by
  refine Advances.bind (fun s => AdvancesFrom.read_bind ?_) fun _ s => AdvancesFrom.read_bind ?_
  · split
    · exact AdvancesFrom.pure _
    · next current hcurrent =>
      split_ifs with hunset
      · split
        · next prior hprior =>
          split
          · next server hserver => exact AdvancesFrom.commit (.adopt hcurrent hunset hprior hserver)
          · exact AdvancesFrom.pure _
        · exact AdvancesFrom.pure _
      · exact AdvancesFrom.pure _
  · split
    · exact AdvancesFrom.pure _
    · exact AdvancesFrom.pure _
    · next current candidate hcurrent hpending =>
      split_ifs with hkeep hempty
      · exact AdvancesFrom.pure _
      · exact AdvancesFrom.pure _
      · refine takeCandidate_advances now (claimable_eq_some.mpr ⟨hpending, hempty, fun r hr => ?_⟩)
        obtain rfl : current = r := by simpa [hcurrent] using hr
        push Not at hkeep
        refine ⟨hkeep.1, ?_⟩
        cases hadmitted : current.admitted with
        | true => exact Or.inl rfl
        | false => exact Or.inr (by simpa using hkeep.2 hadmitted)
    · next candidate hcurrent hpending =>
      split_ifs with hempty
      · exact AdvancesFrom.pure _
      · refine takeCandidate_advances now (claimable_eq_some.mpr ⟨hpending, hempty, fun r hr => ?_⟩)
        simp [hcurrent] at hr

theorem ClaimsUnused.adopt (hI : SagaInvariant s) (h : ClaimsUnused s destinations)
    {current : SagaRow} (hcurrent : s.publicationSaga = some current) (server : String) :
    ClaimsUnused (adoptServer server current.batchId s) destinations := by
  obtain ⟨a, hrows, rfl⟩ := hI.single.publicationSaga hcurrent
  have hafter : (adoptServer server (readSaga a).batchId s).sagas.rows =
      [if a.batchId = a.batchId ∧ a.completeServer = none ∧ a.signedEvent = none then
        { a with completeServer := some server } else a] := by
    simp [adoptServer, hrows]
  intro candidate hcandidate r hr
  obtain ⟨hpending, hempty, hnewer⟩ := claimable_eq_some.mp hcandidate
  have hsame := hnewer _ (publicationSaga_of_rows hafter)
  have hclaimable : claimable s destinations = some candidate := by
    refine claimable_eq_some.mpr ⟨hpending, hempty, fun q hq => ?_⟩
    obtain rfl := Option.some.inj (hcurrent.symm.trans hq)
    simp only [readSaga_candidate, readSaga_admitted, readSaga_signedEvent] at hsame ⊢
    split_ifs at hsame <;> exact hsame
  have hmark := mem_marksOf_all.mpr ⟨r, hr, rfl⟩
  rw [marksOf_adopt] at hmark
  obtain ⟨q, hq, hqr⟩ := mem_marksOf_all.mp hmark
  rw [← show q.batchId = r.batchId from congrArg Mark.batchId hqr]
  exact h candidate hclaimable q hq

end Claims

section Assertions

def publishedOf (log : List Entry) : List SagaRow :=
  log.filterMap fun entry =>
    match entry with
    | .published saga => some saga
    | _ => none

theorem mem_publishedOf {saga : SagaRow} {log : List Entry} :
    saga ∈ publishedOf log ↔ .published saga ∈ log := by
  simp only [publishedOf, List.mem_filterMap]
  constructor
  · rintro ⟨entry, hentry, hsome⟩
    cases entry <;> simp_all
  · exact fun h => ⟨_, h, rfl⟩

def Sent (m : Marks) (sent : List SagaRow) : Prop :=
  ∀ saga ∈ sent, saga.signedEvent ≠ none ∧ sagaMark saga ∈ m.all

theorem Sent.retains {m n : Marks} {sent : List SagaRow} (h : Sent m sent) (hmn : m.Retains n) :
    Sent n sent := by
  intro saga hsaga
  obtain ⟨hsigned, hmem⟩ := h saga hsaga
  refine ⟨hsigned, ?_⟩
  obtain ⟨event, hevent⟩ := Option.ne_none_iff_exists'.mp hsigned
  obtain ⟨q, hq, hgeneration, hid, hkept⟩ := hmn _ hmem
  have hqevent : q.event = some event := hkept event hevent
  have hqmark : q = sagaMark saga := by
    cases q
    simp only at hgeneration hid hqevent
    simp [sagaMark, hgeneration, hid, hqevent, hevent]
  exact hqmark ▸ hq

/-- What holds of every state that a program leaves behind when it starts with the marks `start`. -/
structure Recorded (start : Marks) (j : Journal) : Prop where
  invariant : SagaInvariant j.state
  chain : (marksOf j.state).Chain
  handed : Sent (marksOf j.state) (publishedOf j.log)
  retains : start.Retains (marksOf j.state)

structure Unmoved (start m : Marks) (sent : List SagaRow) (j : Journal) : Prop
    extends Recorded start j where
  marks : marksOf j.state = m
  published : publishedOf j.log = sent

variable {start m : Marks} {sent : List SagaRow} {α β : Type}

theorem Recorded.unmoved {j : Journal} (h : Recorded start j) :
    Unmoved start (marksOf j.state) (publishedOf j.log) j :=
  ⟨h, rfl, rfl⟩

theorem Recorded.next {j k : Journal} (h : Recorded start j) (hI : SagaInvariant k.state)
    (hchain : (marksOf k.state).Chain) (hretains : (marksOf j.state).Retains (marksOf k.state))
    (hpublished : publishedOf k.log = publishedOf j.log) : Recorded start k where
  invariant := hI
  chain := hchain
  handed := hpublished ▸ h.handed.retains hretains
  retains := h.retains.trans hretains

theorem unmoved_of_advances {R : WriteRepository → WriteRepository → Prop}
    {note : WriteRepository → WriteRepository → List Entry} {program : RepositoryProgram α}
    (hR : ∀ s t, SagaInvariant s → R s t → SagaInvariant t ∧ marksOf t = marksOf s)
    (hnote : ∀ s t, publishedOf (note s t) = []) (h : Advances R program) :
    Preserves (Unmoved start m sent) (repository note program) := by
  refine Advances.logged h fun s t log hmoves hs => ?_
  have hsame : SagaInvariant t ∧ marksOf t = marksOf s := by
    induction hmoves with
    | refl => exact ⟨hs.invariant, rfl⟩
    | tail _ hmove ih =>
      obtain ⟨hI, hmarks⟩ := hR _ _ ih.1 hmove
      exact ⟨hI, hmarks.trans ih.2⟩
  have hpublished : publishedOf (note s t ++ log) = publishedOf log := by
    have := hnote s t
    simp_all [publishedOf]
  refine ⟨hs.toRecorded.next hsame.1 ?_ ?_ hpublished, hsame.2.trans hs.marks,
    hpublished.trans hs.published⟩
  · exact hsame.2.symm ▸ hs.chain
  · exact hsame.2.symm ▸ Marks.Retains.refl _

theorem unmoved_of_columns {touched : EndpointWork → Prop} {program : RepositoryProgram α}
    (h : Advances (ColumnMove touched) program) :
    Preserves (Unmoved start m sent) (repository silently program) := by
  refine unmoved_of_advances (fun s t hI hmove => ⟨?_, marksOf_columns hmove⟩) (fun _ _ => rfl) h
  exact (hI.quiet_steady (hmove.quiet : QuietMove (fun _ => true) s t)).invariant

theorem unmoved_keepsWork (o : CoordinatorOptions) (moment : Moment) (kind : EndpointWorkKind) :
    KeepsWork o moment kind (Unmoved start m sent) where
  outcome work _ _ _ := by
    have hwork (result : EndpointOutcome) :
        Advances (ColumnMove fun _ => True) (recordEndpointOutcome work result) :=
      recordEndpointOutcome_advances (fun _ _ => trivial) result
    exact unmoved_of_columns (hwork _)
  claim batchId target := by
    have hclaim : Advances (ColumnMove fun _ => True)
        (claimEndpointWork batchId kind target moment.now) :=
      claimEndpointWork_advances _ (fun _ _ => trivial) batchId target
    exact unmoved_of_columns hclaim

theorem unmoved_keepsReplicas (o : CoordinatorOptions) (moment : Moment) :
    KeepsReplicas o moment (Unmoved start m sent) where
  toKeepsWork := unmoved_keepsWork o moment .replica
  complete batchId server :=
    unmoved_of_columns (recordCompleteServer_advances (fun _ => True) batchId server)

theorem unmoved_proof (batchId : ℕ) (server hash : String) :
    Preserves (Unmoved start m sent)
      (repository (noteProof batchId server hash) (recordBlobProof batchId server hash)) := by
  refine Preserves.of_commits fun j hj k hk => ?_
  obtain ⟨t, ht, rfl⟩ := List.mem_map.mp hk
  obtain ⟨saga, hsaga, hserver, hblob, rfl⟩ := recordBlobProof_commits ht
  have hpublished : publishedOf (noteProof batchId server hash j.state
      { j.state with proofs := j.state.proofs.insertOrIgnore ⟨batchId, server, hash⟩ } ++ j.log) =
        publishedOf j.log := by
    simp [noteProof, hsaga, publishedOf]
  have hmarks : marksOf { j.state with
      proofs := j.state.proofs.insertOrIgnore ⟨batchId, server, hash⟩ } = marksOf j.state :=
    marksOf_of_tables rfl rfl
  refine ⟨hj.toRecorded.next (hj.invariant.prove_evolves hsaga hserver hblob).invariant
    (hmarks.symm ▸ hj.chain) (hmarks.symm ▸ Marks.Retains.refl _) hpublished, hmarks.trans hj.marks,
    hpublished.trans hj.published⟩

theorem recorded_of_unmoved {program : CoordinatorProgram α}
    (h : ∀ m sent, Preserves (Unmoved start m sent) program) : Preserves (Recorded start) program := by
  intro j hj
  obtain ⟨hcommits, hfinal⟩ := h _ _ j hj.unmoved
  exact ⟨fun k hk => (hcommits k hk).toRecorded, fun a ha => (hfinal a ha).toRecorded⟩

theorem Recorded.publish {j : Journal} (h : Recorded start j) {saga : SagaRow}
    (hsigned : saga.signedEvent ≠ none) (hmem : sagaMark saga ∈ (marksOf j.state).all) :
    Recorded start { j with log := .published saga :: j.log } where
  invariant := h.invariant
  chain := h.chain
  retains := h.retains
  handed := by
    intro q hq
    have hcases : q = saga ∨ q ∈ publishedOf j.log := by
      simpa [publishedOf] using hq
    rcases hcases with rfl | hq
    · exact ⟨hsigned, hmem⟩
    · exact h.handed q hq

theorem Unmoved.note {j : Journal} (h : Unmoved start m sent j) {entry : Entry}
    (hentry : publishedOf [entry] = []) :
    Unmoved start m sent { j with log := entry :: j.log } := by
  have hpublished : publishedOf (entry :: j.log) = publishedOf j.log := by
    rw [show entry :: j.log = [entry] ++ j.log from rfl, publishedOf, List.filterMap_append,
      ← publishedOf, ← publishedOf, hentry, List.nil_append]
  exact ⟨h.toRecorded.next h.invariant h.chain (Marks.Retains.refl _) hpublished, h.marks,
    hpublished.trans h.published⟩

end Assertions

section Programs

variable {start m : Marks} {sent : List SagaRow} {α : Type} (o : CoordinatorOptions)
  (moment : Moment)

/-- What the signing phase relies on: the active saga has no event yet, and the archived ones have
none that is as late as the template. -/
def Phase.Due (m : Marks) : Phase → Prop
  | .signing saga template _ => ∃ a, m.active = [a] ∧ a.batchId = saga.batchId ∧ a.event = none ∧
      ∀ h ∈ m.archived, ∀ e ∈ h.event, e.createdAt < template.createdAt
  | _ => True

def Arrives (start : Marks) (phase : Phase) (j : Journal) : Prop :=
  Recorded start j ∧ phase.Due (marksOf j.state)

/-- From `P` the program comes to a phase with what it relies on. -/
def Arriving (start : Marks) (P : Journal → Prop) (program : CoordinatorProgram Phase) : Prop :=
  Triple P program (Recorded start) (Arrives start)

variable {P : Journal → Prop} {program : CoordinatorProgram α} {f : α → CoordinatorProgram Phase}

theorem Arriving.to {phase : Phase} (h : ∀ j, P j → Recorded start j)
    (hphase : ∀ m, phase.Due m) : Arriving start P (pure phase) :=
  Triple.pure phase fun j hj => ⟨h j hj, hphase _⟩

theorem Arriving.read_bind {f : Journal → CoordinatorProgram Phase}
    (hf : ∀ j, P j → Arriving start (fun k => k = j) (f j)) :
    Arriving start P (Program.read >>= f) := by
  intro j hj
  rw [Program.bind_read_run]
  exact hf j hj j rfl

theorem Arriving.after_unmoved (hprogram : Preserves (Unmoved start m sent) program)
    (hf : ∀ a, Arriving start (Unmoved start m sent) (f a)) :
    Arriving start (Unmoved start m sent) (program >>= f) :=
  Triple.bind (hprogram.mono (fun _ h => h) (fun _ h => h.toRecorded) fun _ _ h => h) hf

theorem Arriving.after_quiet (hprogram : ∀ m sent, Preserves (Unmoved start m sent) program)
    (hf : ∀ a, Arriving start (Recorded start) (f a)) :
    Arriving start (Recorded start) (program >>= f) :=
  Triple.bind (recorded_of_unmoved hprogram) hf

theorem outcome_unmoved (work : EndpointWork) (ok : Bool) (code : EndpointWorkCode) :
    Preserves (Unmoved start m sent) (outcome o moment work ok code) :=
  (unmoved_keepsWork o moment work.kind).outcome work ok code rfl

theorem ensure_unmoved (batchId : ℕ) (kind : EndpointWorkKind) (targets : List String) :
    Preserves (Unmoved start m sent)
      (repository silently (ensureEndpointWork batchId kind targets moment.now)) := by
  have hensure : Advances (ColumnMove fun _ => True)
      (ensureEndpointWork batchId kind targets moment.now) :=
    ensureEndpointWork_advances _ (fun _ _ => trivial) _
  exact unmoved_of_columns hensure

theorem admission_arrives (saga : SagaRow) :
    Arriving start (Recorded start) (admission moment saga) := by
  unfold admission
  split_ifs
  · exact Arriving.to (fun _ h => h) fun _ => trivial
  · refine Arriving.after_quiet (fun m sent => ?_) fun _ => Arriving.to (fun _ h => h) fun _ => trivial
    have hmark : Advances (ColumnMove fun _ => True)
        (markPublicationAdmitted moment.fails moment.now saga.batchId) :=
      markPublicationAdmitted_advances _ _ _ _
    exact unmoved_of_columns hmark
  · exact Triple.throw _

theorem conclude_arrives (saga : SagaRow) :
    Arriving start (Recorded start) (conclude moment saga) := by
  unfold conclude
  split_ifs
  · exact admission_arrives moment saga
  · have hcommit : Advances (ColumnMove fun _ => True) (commitPublication saga.batchId) :=
      commitPublication_advances _ _
    refine Arriving.after_quiet (fun m sent => unmoved_of_columns hcommit) fun _ => ?_
    refine Arriving.read_bind fun j hj => ?_
    · split
      · exact Triple.throw _
      · exact (admission_arrives moment _).mono (fun k hk => hk ▸ hj) (fun _ h => h) fun _ _ h => h

theorem announce_arrives (saga : SagaRow) (relays : List String) (hsigned : saga.signedEvent ≠ none)
    (hmem : sagaMark saga ∈ m.all) :
    Arriving start (Unmoved start m sent) (announce moment saga relays) := by
  unfold announce
  refine Arriving.after_unmoved (ensure_unmoved moment _ _ _) fun _ => ?_
  split_ifs
  · refine Triple.bind (R := fun _ => Recorded start) ?_ fun _ =>
      Arriving.to (fun _ h => h) fun _ => trivial
    have hpublish : ∀ j, Unmoved start m sent j →
        Recorded start { j with log := .published saga :: j.log } := by
      intro j hj
      exact hj.toRecorded.publish hsigned (hj.marks ▸ hmem)
    exact Triple.commit hpublish hpublish
  · exact (conclude_arrives moment saga).mono (fun _ h => h.toRecorded) (fun _ h => h) fun _ _ h => h

theorem marksOf_active {s : WriteRepository} (hs : s.Single) {saga : SagaRow}
    (h : s.publicationSaga = some saga) : (marksOf s).active = [sagaMark saga] := by
  obtain ⟨r, hrows, rfl⟩ := hs.publicationSaga h
  simp [marksOf, hrows, sagaMark]

theorem archived_historical {s : WriteRepository} {h : Mark} (hh : h ∈ (marksOf s).archived) :
    ∃ item ∈ s.publicationHistory, item.signedEvent = h.event := by
  obtain ⟨row, hrow, rfl⟩ := List.mem_map.mp hh
  refine ⟨readSaga row.saga, List.mem_map_of_mem (f := fun r : HistoryRow => readSaga r.saga) ?_, rfl⟩
  exact (List.mem_insertionSort _).mpr hrow

theorem sign_arrives (saga : SagaRow) (relays : List String) (hactive : m.active = [sagaMark saga]) :
    Arriving start (Unmoved start m sent) (sign o moment saga relays) := by
  unfold sign
  split_ifs with hunsigned
  · refine Arriving.read_bind fun j hj => ?_
    refine Triple.bind (R := fun _ => Unmoved start m sent) ?_ fun _ => ?_
    · have hnote : ∀ k, k = j → Unmoved start m sent { k with log := .templated saga :: k.log } := by
        rintro k rfl
        exact hj.note rfl
      exact Triple.commit (fun k hk => (hnote k hk).toRecorded) hnote
    · refine Triple.pure _ fun k hk => ⟨hk.toRecorded, sagaMark saga, ?_, rfl, hunsigned, ?_⟩
      · exact hk.marks.symm ▸ hactive
      · intro h hh e he
        rw [hk.marks, ← hj.marks] at hh
        obtain ⟨item, hitem, hevent⟩ := archived_historical hh
        have hbound := (@templateOf_createdAt o moment saga j.state.publicationHistory _
          (le_foldl_max ..)).mp le_rfl
        exact hbound item hitem e (hevent ▸ he)
  · exact announce_arrives moment saga relays hunsigned
      (Marks.mem_all.mpr (Or.inl (by simp [hactive])))

theorem signed_replicates :
    Replicates o moment (Unmoved start m sent) (Recorded start) (Arrives start) where
  keeps := unmoved_keepsReplicas o moment
  proof := unmoved_proof
  weaker _ hj := hj.toRecorded
  idle _ hj := ⟨hj.toRecorded, trivial⟩
  replicating _ _ hj := ⟨hj.toRecorded, trivial⟩
  sign j saga relays hj hsaga _ := by
    have hactive : m.active = [sagaMark saga] :=
      hj.marks ▸ marksOf_active hj.invariant.single hsaga
    exact (sign_arrives o moment saga relays hactive).mono (fun k hk => hk ▸ hj) (fun _ h => h)
      fun _ _ h => h

theorem Recorded.refresh {s t : WriteRepository} {log : List Entry} (h : Recorded start ⟨s, log⟩)
    (hmove : RefreshMove s t) : Recorded start ⟨t, log⟩ := by
  have hI := (h.invariant.refreshMove_steady hmove).invariant
  obtain ⟨hsaga, hmove⟩ := hmove
  obtain ⟨a, hrows, rfl⟩ := h.invariant.single.publicationSaga (Option.filter_eq_some_iff.mp hsaga).1
  have hopens := refresh_opens h.invariant hrows (refreshSaga_refreshed hrows hmove) h.chain
  exact h.next hI (hopens.chain h.chain) hopens.retains rfl

theorem Recorded.take {s t : WriteRepository} {log log' : List Entry} {destinations : List String}
    (h : Recorded start ⟨s, log⟩) (hunused : ClaimsUnused s destinations)
    (hmove : TakeMove destinations s t) (hlog : publishedOf log' = publishedOf log) :
    Recorded start ⟨t, log'⟩ ∧ ClaimsUnused t destinations := by
  have hI := (h.invariant.claimMove_evolves hmove.claimMove).invariant
  cases hmove with
  | @adopt current _ server hcurrent hunset hprior hserver =>
    have hmarks := marksOf_adopt (s := s) server current.batchId
    refine ⟨h.next hI (hmarks.symm ▸ h.chain) (hmarks.symm ▸ Marks.Retains.refl _) hlog, ?_⟩
    exact hunused.adopt h.invariant hcurrent server
  | @claim _ candidate now hclaimable hclaim =>
    obtain ⟨hpending, -, hnewer⟩ := claimable_eq_some.mp hclaimable
    have hclaimed := claimCandidate_claimed h.invariant.single hnewer hclaim
    have hopens := claim_opens h.invariant hclaimed
      (fun a ha => (hnewer _ (publicationSaga_of_rows (h.invariant.single.rows ha))).1) h.chain
      (hunused candidate hclaimable)
    refine ⟨h.next hI (hopens.chain h.chain) hopens.retains hlog, fun next hnext => ?_⟩
    -- the claim has taken the pending candidate
    exact absurd ((claimable_eq_some.mp hnext).1.symm.trans hclaimed.pendingCandidate) (by simp)

theorem claim_recorded (destinations : List String) :
    Triple (fun j => Recorded start j ∧ ClaimsUnused j.state destinations)
      (repository noteClaim (claimPublication destinations moment.now)) (Recorded start)
      fun result j => Recorded start j ∧ ∀ saga, result = some saga →
        j.state.publicationSaga = some saga := by
  have hquiet : ∀ s t, publishedOf (noteClaim s t) = [] := by
    intro s t
    unfold noteClaim
    split <;> rfl
  have hkeeps : Preserves (fun j => Recorded start j ∧ ClaimsUnused j.state destinations)
      (repository noteClaim (claimPublication destinations moment.now)) := by
    refine Advances.logged (claimPublication_takes moment.now destinations) ?_
    intro s t log hmoves hs
    have hreached : Recorded start ⟨t, log⟩ ∧ ClaimsUnused t destinations := by
      induction hmoves with
      | refl => exact hs
      | tail _ hmove ih => exact ih.1.take ih.2 hmove rfl
    have hlog : publishedOf (noteClaim s t ++ log) = publishedOf log := by
      rw [publishedOf, List.filterMap_append, ← publishedOf, ← publishedOf, hquiet, List.nil_append]
    exact ⟨hreached.1.next hreached.1.invariant hreached.1.chain (Marks.Retains.refl _) hlog,
      hreached.2⟩
  intro j hj
  obtain ⟨hcommits, hfinal⟩ := hkeeps j hj
  refine ⟨fun k hk => (hcommits k hk).1, fun result hresult => ⟨(hfinal result hresult).1, ?_⟩⟩
  intro saga hsaga
  rw [Program.logged_final]
  exact (claimPublication_active destinations moment.now j.state trivial).2 result hresult saga hsaga

theorem refresh_recorded (lead : ℕ) (Q : WriteRepository → Prop) :
    Triple (fun j => Recorded start j ∧
        Q (((beginPublicationRefresh moment.now lead).run j.state).final j.state))
      (repository silently (beginPublicationRefresh moment.now lead)) (Recorded start)
      fun _ j => Recorded start j ∧ Q j.state := by
  have hkeeps : Preserves (Recorded start)
      (repository silently (beginPublicationRefresh moment.now lead)) := by
    refine Advances.logged (beginPublicationRefresh_advances moment.now lead) ?_
    intro s t log hmoves hs
    induction hmoves with
    | refl => exact hs
    | tail _ hmove ih => exact ih.refresh hmove
  intro j hj
  obtain ⟨hcommits, hfinal⟩ := hkeeps j hj.1
  refine ⟨hcommits, fun result hresult => ⟨hfinal result hresult, ?_⟩⟩
  rw [Program.logged_final]
  exact hj.2

/-- What the coordinator claims in a tick is not the id of a saga. -/
def beginUnused (destinations : List String) (s : WriteRepository) : Prop :=
  ClaimsUnused (((beginPublicationRefresh moment.now o.refreshLeadSeconds).run s).final s) destinations

theorem begin_arrives (destinations relays : List String) :
    Arriving start (fun j => Recorded start j ∧ beginUnused o moment destinations j.state)
      (begin o moment destinations relays) := by
  have hrefresh : Triple (fun j => Recorded start j ∧ beginUnused o moment destinations j.state)
      (repository silently (beginPublicationRefresh moment.now o.refreshLeadSeconds)) (Recorded start)
      fun _ j => Recorded start j ∧ ClaimsUnused j.state destinations :=
    refresh_recorded moment o.refreshLeadSeconds fun s => ClaimsUnused s destinations
  refine Triple.bind hrefresh fun _ => ?_
  refine Triple.bind (claim_recorded moment destinations) fun result => ?_
  split
  · exact Arriving.to (fun _ h => h.1) fun _ => trivial
  · next saga =>
    intro j hj
    have hactive := marksOf_active hj.1.invariant.single (hj.2 saga rfl)
    refine Arriving.after_unmoved (ensure_unmoved moment saga.batchId .replica saga.destinations)
      (fun _ => Arriving.read_bind fun k hk => ?_) j hj.1.unmoved
    split_ifs
    · exact Triple.pure _ fun _ h => ⟨(h ▸ hk).toRecorded, trivial⟩
    · exact Triple.pure _ fun _ h => ⟨(h ▸ hk).toRecorded, trivial⟩
    · exact (sign_arrives o moment saga relays hactive).mono (fun _ h => h ▸ hk) (fun _ h => h)
        fun _ _ h => h

/-- `recordSigned` signs the active saga. -/
theorem recordSigned_signs {s : WriteRepository} {a : Mark} {batchId : ℕ} {template : EventTemplate}
    {event : RawPublication} (acceptable : RawPublication → Bool) (hI : SagaInvariant s)
    (hactive : (marksOf s).active = [a]) (hid : a.batchId = batchId) (hunsigned : a.event = none)
    (hlater : ∀ h ∈ (marksOf s).archived, ∀ e ∈ h.event, e.createdAt < template.createdAt) :
    Triple (fun t => t = s) (recordSigned acceptable batchId template event)
      (fun t => SagaInvariant t ∧ (marksOf s).Signs (marksOf t) a event)
      fun _ t => SagaInvariant t ∧ (marksOf s).Signs (marksOf t) a event := by
  refine Triple.bind (Triple.read (Q := fun t u => t = s ∧ u = s) fun _ h => ⟨h, h⟩) fun t => ?_
  split
  · exact Triple.throw _
  · next saga hsaga =>
    split_ifs with hcomplete hmatches himmutable
    · exact Triple.throw _
    · exact Triple.throw _
    · have hsigns : ∀ u, t = s ∧ u = s →
          SagaInvariant (u.updateSaga batchId (setSigned template event) fun _ => rfl) ∧
            (marksOf s).Signs (marksOf (u.updateSaga batchId (setSigned template event)
              fun _ => rfl)) a event := by
        rintro u ⟨rfl, rfl⟩
        simp only [Bool.and_eq_true] at hmatches
        have hquiet : QuietMove acceptable u
            (u.updateSaga batchId (setSigned template event) fun _ => rfl) :=
          .sign hsaga hcomplete hmatches.1 hmatches.2
        refine ⟨(hI.quiet_steady hquiet).invariant, ?_⟩
        obtain ⟨row, hrows, rfl⟩ := hI.single.publicationSaga hsaga
        obtain rfl : sagaMark row = a := by simpa [marksOf, hrows] using hactive
        have hrow : row.batchId = batchId := hid
        have hnone : row.signedEvent = none := hunsigned
        have htime : event.createdAt = template.createdAt := (of_decide_eq_true hmatches.1).2.1
        refine ⟨hactive, hunsigned, ?_, ?_, fun h hh e he => htime ▸ hlater h hh e he⟩
        · simp [marksOf, updateSaga, hrows, hrow, sagaMark, setSigned, hnone]
        · simp [marksOf, updateSaga]
      exact Triple.commit hsigns hsigns
    · exact Triple.throw _

theorem signed_recorded {saga : SagaRow} {template : EventTemplate} {relays : List String}
    (event : RawPublication) (hdue : (Phase.signing saga template relays).Due m) :
    Triple (Unmoved start m sent)
      (repository silently (recordSigned o.acceptable saga.batchId template event)) (Recorded start)
      fun _ j => Recorded start j ∧ ∀ saga, j.state.publicationSaga = some saga →
        saga.signedEvent ≠ none := by
  intro j hj
  obtain ⟨a, hactive, hid, hunsigned, hlater⟩ := hdue
  rw [← hj.marks] at hactive hlater
  have hkept : ∀ k : Journal, (SagaInvariant k.state ∧
      (marksOf j.state).Signs (marksOf k.state) a event) ∧ k.log = j.log → Recorded start k := by
    rintro k ⟨⟨hI, hsigns⟩, hlog⟩
    exact hj.toRecorded.next hI (hsigns.chain hj.chain) hsigns.retains (hlog ▸ rfl)
  have hsigned : Triple (fun k : Journal => k.state = j.state ∧ k.log = j.log)
      (repository silently (recordSigned o.acceptable saga.batchId template event)) _ _ :=
    (recordSigned_signs o.acceptable hj.invariant hactive hid hunsigned hlater).logged fun _ _ => rfl
  obtain ⟨hcommits, hresult⟩ := hsigned j ⟨rfl, rfl⟩
  refine ⟨fun k hk => hkept k (hcommits k hk), fun b hb => ⟨hkept _ (hresult b hb), ?_⟩⟩
  intro later hlater
  obtain ⟨⟨hI, hsigns⟩, -⟩ := hresult b hb
  have hmark := (marksOf_active hI.single hlater).symm.trans hsigns.active
  have hevent : later.signedEvent = some event := by
    simpa [sagaMark] using congrArg (List.map Mark.event) hmark
  simp [hevent]

theorem signerAnswered_arrives {saga : SagaRow} {template : EventTemplate} {relays : List String}
    (answer : Option RawPublication) (hdue : (Phase.signing saga template relays).Due m) :
    Arriving start (Unmoved start m sent) (signerAnswered o moment saga template relays answer) := by
  cases answer with
  | none => exact Triple.throw _
  | some event =>
    refine Triple.bind (R := fun _ => Unmoved start m sent) ?_ fun _ => ?_
    · exact Triple.commit (fun j hj => (hj.note rfl).toRecorded) fun j hj => hj.note rfl
    · split_ifs
      · exact Triple.throw _
      · refine Triple.bind (signed_recorded o event hdue) fun _ => Arriving.read_bind fun j hj => ?_
        split
        · exact Triple.throw _
        · next saga hsaga =>
          have hactive := marksOf_active hj.1.invariant.single hsaga
          have hannounce : Arriving start (Unmoved start (marksOf j.state) (publishedOf j.log))
              (announce moment saga relays) :=
            announce_arrives moment saga relays (hj.2 saga hsaga)
              (Marks.mem_all.mpr (Or.inl (by simp [hactive])))
          exact hannounce.mono (fun k hk => hk ▸ hj.1.unmoved) (fun _ h => h) fun _ _ h => h
      · exact Triple.throw _

theorem relaysAnswered_arrives (saga : SagaRow) (relays : List String)
    (answer : Option (List (String × Bool))) :
    Arriving start (Recorded start) (relaysAnswered o moment saga relays answer) := by
  cases answer with
  | none => exact Triple.throw _
  | some outcomes =>
    refine Arriving.read_bind fun j hj => ?_
    split_ifs
    · exact Arriving.to (fun k hk => hk ▸ hj) fun _ => trivial
    · refine Triple.mono (Arriving.after_quiet (fun m sent => Preserves.forEach fun relay _ =>
        recordInitial_keeps (unmoved_keepsWork o moment .relay) _ _ _) fun _ => ?_)
          (fun k hk => hk ▸ hj) (fun _ h => h) fun _ _ h => h
      split
      · exact Arriving.to (fun _ h => h) fun _ => trivial
      · next acknowledged _ =>
        have hacknowledge : Advances (ColumnMove fun _ => True)
            (recordRelayAcknowledgement saga.batchId acknowledged.1) :=
          recordRelayAcknowledgement_advances _ _ _
        refine Arriving.after_quiet (fun m sent => unmoved_of_columns hacknowledge) fun _ => ?_
        refine Arriving.read_bind fun j hj => ?_
        split
        · exact Triple.throw _
        · exact (conclude_arrives moment _).mono (fun k hk => hk ▸ hj) (fun _ h => h) fun _ _ h => h

theorem repaired_arrives (due : List EndpointWork) (work : EndpointWork) (answer : Option Bool) :
    Arriving start (Recorded start) (repaired o moment due work answer) := by
  cases answer with
  | none => exact Triple.throw _
  | some ok =>
    refine Arriving.after_quiet (fun m sent => outcome_unmoved o moment work ok .rejected) fun _ => ?_
    refine Arriving.to (fun _ h => h) fun _ => ?_
    split_ifs <;> trivial

theorem published_recorded {s : WriteRepository} {work : EndpointWork} {saga : SagaRow}
    (hs : s.Single) (h : published s work = some saga) :
    saga.signedEvent ≠ none ∧ sagaMark saga ∈ (marksOf s).all := by
  obtain ⟨hsaga, hsigned⟩ := Option.filter_eq_some_iff.mp h
  obtain ⟨row, hrow, rfl⟩ := hs.publicationSagaByBatch hsaga
  refine ⟨Option.isSome_iff_ne_none.mp (of_decide_eq_true hsigned).2, ?_⟩
  exact mem_marksOf_all.mpr ⟨row, hrow.mem_records, rfl⟩

theorem repair_arrives : Arriving start (Recorded start) (repair o moment) := by
  have hclaim : Advances (ColumnMove fun _ => True) (claimDueWork moment.now o.concurrency) :=
    claimDueWork_advances _ (fun _ _ => trivial) _
  refine Arriving.after_quiet (fun m sent => unmoved_of_columns hclaim) fun due => ?_
  refine Arriving.read_bind fun j hj => ?_
  refine Triple.bind (R := fun _ => Recorded start) ?_ fun _ => ?_
  · refine Triple.mono (Preserves.forEach fun work _ => ?_) (fun k hk => hk ▸ hj) (fun _ h => h)
      fun _ _ h => h
    intro k hk
    rw [Program.bind_read_run]
    split
    · exact recorded_of_unmoved (fun m sent => outcome_unmoved o moment work false .unavailable) k hk
    · next saga hsaga =>
      obtain ⟨hsigned, hmem⟩ := published_recorded hk.invariant.single hsaga
      have hpublish : ∀ i, i = k → Recorded start { i with log := .published saga :: i.log } := by
        rintro i rfl
        exact hk.publish hsigned hmem
      exact Triple.commit hpublish hpublish k rfl
  · refine Arriving.to (fun _ h => h) fun _ => ?_
    split_ifs <;> trivial

theorem close_arrives (phase : Phase) :
    Arriving start (Recorded start) (close o moment phase) := by
  have hrestore : Advances (ColumnMove fun _ => True) (restoreClaimedWork moment.now) :=
    restoreClaimedWork_advances _
  refine Arriving.after_quiet (fun m sent => unmoved_of_columns hrestore) fun _ => ?_
  split
  · refine Arriving.after_quiet (fun m sent => failServers_keeps (unmoved_keepsReplicas o moment) _ _)
      fun _ => ?_
    exact Arriving.to (fun _ h => h) fun _ => trivial
  · exact Arriving.to (fun _ h => h) fun _ => trivial
  · exact Arriving.to (fun _ h => h) fun _ => trivial

def foreign : RepositoryOp → Bool
  | .saga (.releaseGeneration _) => true
  | .saga _ => false
  | _ => true

variable (digest : Bytes → String)

theorem operation_unmoved (op : RepositoryOp) (hop : foreign op = true) :
    Preserves (Unmoved start m sent) (repository (noteOp op)
      (RepositoryLabel.program digest o.acceptable ⟨op, moment.now, moment.fails, none⟩)) := by
  cases op with
  | staging op =>
    refine unmoved_of_advances (fun s t hI (h : Staged s t) => ⟨?_, marksOf_of_ledger h.ledger⟩)
      (fun _ _ => rfl) (staging_advances digest moment.fails moment.now op)
    exact (hI.steady_of_ledger h.ledger).invariant
  | batch op =>
    refine unmoved_of_advances (fun s t hI (h : BatchMove s t) => ⟨?_, marksOf_batch h⟩)
      (fun _ _ => rfl) (batch_advances moment.fails moment.now op)
    exact (hI.batch_steady h).invariant
  | reopen retries =>
    have hreopen : Advances (fun s t => SameLedger s t ∨ s.activateRows = t)
        (WriteRepository.reopen digest moment.fails retries moment.now) :=
      reopen_advances digest (fun _ _ => Or.inl) (fun _ => Or.inr rfl) _ _ _
    refine unmoved_of_advances (fun s t hI hmove => ?_) (fun _ _ => rfl) hreopen
    rcases hmove with hsame | rfl
    · exact ⟨(hI.steady_of_ledger hsame.1).invariant, marksOf_of_ledger hsame.1⟩
    · exact ⟨hI.activate_steady.invariant, marksOf_of_tables rfl rfl⟩
  | saga op =>
    cases op with
    | releaseGeneration generation =>
      exact unmoved_of_columns (plain_advances o.acceptable moment.fails moment.now
        (.releaseGeneration generation) rfl)
    | _ => cases hop

theorem operation_arrives {op : RepositoryOp} (hop : foreign op = true) (phase : Phase)
    (hphase : phase.Due m) :
    Arriving start (Unmoved start m sent) (operation digest o moment op phase) := by
  refine Arriving.after_unmoved (operation_unmoved o moment digest op hop).attempt fun _ => ?_
  split
  · exact Arriving.to (fun _ h => h.toRecorded) fun _ => trivial
  · exact Triple.pure phase fun j hj => ⟨hj.toRecorded, hj.marks.symm ▸ hphase⟩

end Programs

section Runs

variable (digest : Bytes → String) (o : CoordinatorOptions) {start : Marks}

def CoordinatorLabel.Exclusive (l : CoordinatorLabel) : Prop :=
  match l.event with
  | .operation op => foreign op = true
  | _ => True

def CoordinatorLabel.ClaimsUnused (w : CoordinatorState) (l : CoordinatorLabel) : Prop :=
  match l.event, w.phase with
  | .tick destinations _, .idle => beginUnused o l.moment destinations w.journal.state
  | _, _ => True

theorem program_arrives {w : CoordinatorState} {l : CoordinatorLabel}
    (h : Arrives start w.phase w.journal) (hexclusive : l.Exclusive) (hunused : l.ClaimsUnused o w) :
    Arriving start (fun j => j = w.journal) (l.program digest o w.phase) := by
  have hstay : Arriving start (fun j => j = w.journal) (pure w.phase) :=
    Triple.pure w.phase fun j hj => hj ▸ h
  have hquiet {program : CoordinatorProgram Phase} (hprogram : Arriving start (Recorded start) program) :
      Arriving start (fun j => j = w.journal) program :=
    hprogram.mono (fun j hj => hj ▸ h.1) (fun _ h => h) fun _ _ h => h
  have hunmoved {program : CoordinatorProgram Phase} (hprogram : Arriving start
      (Unmoved start (marksOf w.journal.state) (publishedOf w.journal.log)) program) :
      Arriving start (fun j => j = w.journal) program :=
    hprogram.mono (fun j hj => hj ▸ h.1.unmoved) (fun _ h => h) fun _ _ h => h
  unfold CoordinatorLabel.program
  split
  · next hevent hphase =>
    simp only [CoordinatorLabel.ClaimsUnused, hevent, hphase] at hunused
    exact (begin_arrives o l.moment _ _).mono (fun j hj => hj ▸ ⟨h.1, hunused⟩) (fun _ h => h)
      fun _ _ h => h
  · exact hunmoved (authorized_replicates (signed_replicates o l.moment) _ _ _ _ _ _)
  · next hphase =>
    split
    · split
      · exact hunmoved (proved_replicates (signed_replicates o l.moment) _ _ _ _ _)
      · exact hphase ▸ hstay
    · exact hphase ▸ hstay
  · exact hunmoved (Triple.pure _ fun j hj => ⟨hj.toRecorded, trivial⟩)
  · next hphase => exact hunmoved (signerAnswered_arrives o l.moment _ (hphase ▸ h.2))
  · exact hquiet (relaysAnswered_arrives o l.moment _ _ _)
  · split_ifs
    · exact hquiet (repair_arrives o l.moment)
    · exact Triple.throw _
  · next hphase =>
    split
    · exact hquiet (repaired_arrives o l.moment _ _ _)
    · exact hphase ▸ hstay
  · exact hquiet (close_arrives o l.moment _)
  · next hevent =>
    simp only [CoordinatorLabel.Exclusive, hevent] at hexclusive
    exact hunmoved (operation_arrives o l.moment digest hexclusive w.phase h.2)
  · exact hstay

theorem coordinatorStep_arrives {w : CoordinatorState} {l : CoordinatorLabel}
    (h : Arrives start w.phase w.journal) (hexclusive : l.Exclusive) (hunused : l.ClaimsUnused o w) :
    Arrives start (coordinatorStep digest o w l).phase (coordinatorStep digest o w l).journal := by
  refine coordinatorStep_of_triple digest o (program_arrives digest o h hexclusive hunused) h.1
    (fun j hj => ⟨hj, trivial⟩) fun j hj => ?_
  have hsteady : Steady j.state j.state.forgetProcess := hj.invariant.steady_of_ledger rfl
  exact hj.next hsteady.invariant hj.chain (Marks.Retains.refl _) rfl

/-- A step of the coordinator whose claims get unused ids. -/
def Tidy (w : CoordinatorState) (l : CoordinatorLabel) : Prop :=
  l.Exclusive ∧ l.ClaimsUnused o w

theorem run_arrives {w : CoordinatorState} {labels : List CoordinatorLabel}
    (h : Arrives start w.phase w.journal)
    (htidy : Always (coordinatorStep digest o) (Tidy o) w labels) :
    Arrives start (run (coordinatorStep digest o) w labels).phase
      (run (coordinatorStep digest o) w labels).journal :=
  run_invariant (I := fun w => Arrives start w.phase w.journal)
    (fun _ _ h hl => coordinatorStep_arrives digest o h hl.1 hl.2) h htidy

theorem initial_arrives (capacity : ℕ) :
    Arrives (marksOf (WriteRepository.initial capacity)) (coordinatorInitial capacity).phase
      (coordinatorInitial capacity).journal := by
  refine ⟨⟨initial_invariant capacity, ?_, fun saga hsaga => ?_, Marks.Retains.refl _⟩, trivial⟩
  · refine ⟨by simp [marksOf, WriteRepository.initial, coordinatorInitial], ?_, ?_, ?_⟩ <;>
      simp [marksOf, Marks.all, WriteRepository.initial, coordinatorInitial]
  · exact absurd hsaga List.not_mem_nil

theorem Marks.Chain.sagaMark_eq {s : WriteRepository} (h : (marksOf s).Chain) {p q : Mark}
    (hp : p ∈ (marksOf s).all) (hq : q ∈ (marksOf s).all) (hid : p.batchId = q.batchId) : p = q := by
  rcases Marks.mem_all.mp hp with hp | hp
  · rcases Marks.mem_all.mp hq with hq | hq
    · exact (List.mem_singleton.mp (h.active_eq hp ▸ hq)).symm
    · exact absurd hid.symm (h.distinct p hp q hq)
  · rcases Marks.mem_all.mp hq with hq | hq
    · exact absurd hid (h.distinct q hq p hp)
    · obtain ⟨r, hr, rfl⟩ := List.mem_map.mp hp
      obtain ⟨t, ht, rfl⟩ := List.mem_map.mp hq
      rw [Table.eq_of_key hr ht hid]

/-- One event for each saga, with increasing times.  In every run in which only the coordinator works
on the sagas and no claim takes over the id of an earlier saga, all that goes to the relays for a saga
is one event, the recorded one, which every later state has kept; and the event of a later saga is
later. -/
theorem signed_events (capacity : ℕ) (labels later : List CoordinatorLabel)
    (htidy : Always (coordinatorStep digest o) (Tidy o) (coordinatorInitial capacity)
      (labels ++ later)) :
    let j := (run (coordinatorStep digest o) (coordinatorInitial capacity) labels).journal
    let k := (run (coordinatorStep digest o) (coordinatorInitial capacity) (labels ++ later)).journal
    (∀ saga, .published saga ∈ j.log → saga.signedEvent ≠ none ∧
      ∃ r ∈ j.state.records, r.Same saga ∧ r.signedEvent = saga.signedEvent) ∧
    (∀ p q, .published p ∈ k.log → .published q ∈ k.log → p.Same q →
      p.signedEvent = q.signedEvent) ∧
    (∀ r ∈ j.state.records, ∃ q ∈ k.state.records, r.Same q ∧
      ∀ e ∈ r.signedEvent, q.signedEvent = some e) ∧
    ∀ r ∈ k.state.records, ∀ q ∈ k.state.records, r.Before q →
      ∀ e ∈ r.signedEvent, ∀ f ∈ q.signedEvent, e.createdAt < f.createdAt := by
  intro j k
  obtain ⟨hfirst, hrest⟩ := (always_append _ _ _ _).mp htidy
  have hj := (run_arrives digest o (initial_arrives capacity) hfirst).1
  have hk : Recorded (marksOf j.state) k := by
    have hstart : Arrives (marksOf j.state) _ j :=
      ⟨⟨hj.invariant, hj.chain, hj.handed, Marks.Retains.refl _⟩,
        (run_arrives digest o (initial_arrives capacity) hfirst).2⟩
    have hend := (run_arrives digest o hstart hrest).1
    rwa [← run_append] at hend
  refine ⟨fun saga hsaga => ?_, fun p q hp hq hsame => ?_, fun r hr => ?_, fun r hr q hq => ?_⟩
  · obtain ⟨hsigned, hmem⟩ := hj.handed saga (mem_publishedOf.mpr hsaga)
    obtain ⟨r, hr, hmark⟩ := mem_marksOf_all.mp hmem
    exact ⟨hsigned, r, hr, ⟨congrArg Mark.generation hmark, congrArg Mark.batchId hmark⟩,
      congrArg Mark.event hmark⟩
  · have heq := hk.chain.sagaMark_eq (hk.handed p (mem_publishedOf.mpr hp)).2
      (hk.handed q (mem_publishedOf.mpr hq)).2 hsame.2
    exact congrArg Mark.event heq
  · obtain ⟨mark, hmark, hgeneration, hid, hevent⟩ := hk.retains _ (mem_marksOf_all.mpr ⟨r, hr, rfl⟩)
    obtain ⟨q, hq, rfl⟩ := mem_marksOf_all.mp hmark
    exact ⟨q, hq, ⟨hgeneration.symm, hid.symm⟩, hevent⟩
  · intro hbefore
    exact hk.chain.increasing _ (mem_marksOf_all.mpr ⟨r, hr, rfl⟩) _ (mem_marksOf_all.mpr ⟨q, hq, rfl⟩)
      hbefore

instance (r q : SagaRow) : Decidable (r.Before q) :=
  inferInstanceAs (Decidable (_ ∨ _ ∧ _))

instance (s : WriteRepository) (destinations : List String) :
    Decidable (ClaimsUnused s destinations) :=
  inferInstanceAs (Decidable (∀ candidate ∈ claimable s destinations,
    ∀ r ∈ s.records, r.batchId ≠ candidate.batchId))

instance (l : CoordinatorLabel) : Decidable l.Exclusive := by
  unfold CoordinatorLabel.Exclusive
  split <;> infer_instance

instance (w : CoordinatorState) (l : CoordinatorLabel) : Decidable (l.ClaimsUnused o w) := by
  unfold CoordinatorLabel.ClaimsUnused beginUnused
  split <;> infer_instance

instance (w : CoordinatorState) (l : CoordinatorLabel) : Decidable (Tidy o w l) :=
  inferInstanceAs (Decidable (l.Exclusive ∧ l.ClaimsUnused o w))

end Runs

section Regression

def labelsAt (now : ℕ) (events : List CoordinatorEvent) : List CoordinatorLabel :=
  events.map fun event => ⟨event, ⟨now, true, fun _ => none⟩, none⟩

def publicationAt (now : ℕ) : List CoordinatorEvent :=
  [.tick ["server"] ["relay"],
    .signed (some { sampleEvent with
      createdAt := now
      tags := [["htree", "htree://nhash"], ["blossom", "server"],
        ["expiration", toString (now + 100)]] }),
    .relaysAnswered (some [("relay", true)]), .repairAuthorized true]

def unansweredRefresh : List CoordinatorEvent :=
  [.tick ["server"] ["relay"], .signed none]

theorem signed_events_refreshed :
    let k := (run (coordinatorStep (fun _ => "") sampleOptions) (coordinatorInitial 0)
      (labelsAt 0 (batchEvents 1 [] ++ firstPublication) ++ labelsAt 90 (publicationAt 90))).journal
    ∀ r ∈ k.state.records, ∀ q ∈ k.state.records, r.Before q →
      ∀ e ∈ r.signedEvent, ∀ f ∈ q.signedEvent, e.createdAt < f.createdAt :=
  (signed_events (fun _ => "") sampleOptions 0 (labelsAt 0 (batchEvents 1 [] ++ firstPublication))
    (labelsAt 90 (publicationAt 90)) (by decide +kernel)).2.2.2

/-- The second batch has the id of the first refresh.  Its saga is archived under that id without its
event when it is refreshed itself, and the clock has gone back when the refresh is signed. -/
def regressionRun : List CoordinatorLabel :=
  labelsAt 0 (batchEvents 1 [] ++ firstPublication) ++ labelsAt 90 (publicationAt 90) ++
    labelsAt 180 (unansweredRefresh ++ batchEvents 2 [] ++
      [CoordinatorEvent.tick ["server"] ["relay"], .authorized false false] ++ publicationAt 180) ++
    labelsAt 270 unansweredRefresh ++ labelsAt 100 (publicationAt 100)

/-- The event of a later saga is published with an earlier time, although only the coordinator has
worked on the sagas. -/
theorem published_events_regress :
    let j := (run (coordinatorStep (fun _ => "") sampleOptions) (coordinatorInitial 0)
      regressionRun).journal
    (∀ l ∈ regressionRun, l.Exclusive ∧ l.stop = none) ∧
      ∃ p ∈ publishedOf j.log, ∃ q ∈ publishedOf j.log, p.Before q ∧
        ∃ e ∈ p.signedEvent, ∃ f ∈ q.signedEvent, f.createdAt < e.createdAt := by
  decide +kernel

end Regression

end NixstrCache.Write

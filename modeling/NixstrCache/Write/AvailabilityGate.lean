import NixstrCache.Write.ReplicaPrograms

/-!
The availability gate.

The log of a run accounts for the saga tables: an inventory in the tables holds what a candidate with
the same root brought, and what it holds as proven is in the log.  A complete server of a saga is
then backed by proofs for a whole candidate inventory with the root of the saga, and nothing is
templated, signed or handed to the relays without one.
-/

namespace NixstrCache.Write

open Durable KeyedTable Runs Persistence Persistence.WriteRepository

section Accounts

/-- A server has proven every blob that some candidate with the root hash brought. -/
def Backed (log : List Entry) (rootHex server : String) : Prop :=
  ∃ inventory, inventory ≠ [] ∧ .claimed rootHex inventory ∈ log ∧
    ∀ hash ∈ inventory, .proven rootHex server hash ∈ log

def Ready (log : List Entry) (saga : SagaRow) : Prop :=
  ∃ server ∈ saga.destinations, Backed log saga.candidate.rootHex server

/-- The saga whose event an entry hands to the signer or to the relays. -/
def Entry.announced : Entry → Option SagaRow
  | .templated saga | .signed saga | .published saga => some saga
  | _ => none

def Gated (log : List Entry) : Prop :=
  Throughout (fun entry earlier => ∀ saga, entry.announced = some saga → Ready earlier saga) log

/-- The inventory of a batch holds a candidate inventory with the root of its saga, and of that
inventory nothing is proven that is not in the log. -/
def Listed (log : List Entry) (s : WriteRepository) (n : ℕ) (r : SagaRow) : Prop :=
  ∃ inventory, inventory ≠ [] ∧ .claimed r.candidate.rootHex inventory ∈ log ∧
    ∀ hash ∈ inventory, hash ∈ s.inventoryHashes n ∧
      ∀ server, hash ∈ s.provenHashes n server → .proven r.candidate.rootHex server hash ∈ log

structure Accounted (log : List Entry) (s : WriteRepository) : Prop where
  invariant : SagaInvariant s
  complete : ∀ r ∈ s.records, ∀ server, r.completeServer = some server →
    Backed log r.candidate.rootHex server
  listed : ∀ n r, s.SpeaksFor n r → s.inventoryHashes n ≠ [] → Listed log s n r

variable {log log' : List Entry} {s t : WriteRepository} {n : ℕ}

theorem Backed.mono {rootHex server : String} (h : Backed log rootHex server) (hlog : log ⊆ log') :
    Backed log' rootHex server := by
  obtain ⟨inventory, hne, hclaimed, hproven⟩ := h
  exact ⟨inventory, hne, hlog hclaimed, fun hash hmem => hlog (hproven hash hmem)⟩

theorem Ready.mono {saga : SagaRow} (h : Ready log saga) (hlog : log ⊆ log') : Ready log' saga := by
  obtain ⟨server, hserver, hbacked⟩ := h
  exact ⟨server, hserver, hbacked.mono hlog⟩

theorem Accounted.mono (h : Accounted log s) (hlog : log ⊆ log') : Accounted log' s where
  invariant := h.invariant
  complete r hr server hserver := (h.complete r hr server hserver).mono hlog
  listed n r hr hne := by
    obtain ⟨inventory, hinventory, hclaimed, hmem⟩ := h.listed n r hr hne
    exact ⟨inventory, hinventory, hlog hclaimed, fun hash hhash =>
      ⟨(hmem hash hhash).1, fun server hproven => hlog ((hmem hash hhash).2 server hproven)⟩⟩

theorem Accounted.initial (capacity : ℕ) : Accounted [] (WriteRepository.initial capacity) := by
  refine ⟨initial_invariant capacity, fun r hr => ?_, fun n r _ hne => absurd ?_ hne⟩
  · simp [records, WriteRepository.initial] at hr
  · simp [inventoryHashes, sagaBlobsOf, WriteRepository.initial]

theorem Accounted.serverComplete_backed (h : Accounted log s) {r : SagaRow} {server : String}
    (hr : s.SpeaksFor n r) (hcomplete : s.serverComplete n server = true) :
    Backed log r.candidate.rootHex server := by
  obtain ⟨hne, hproven⟩ := h.invariant.proofsListed.serverComplete_iff.mp hcomplete
  obtain ⟨inventory, hinventory, hclaimed, hmem⟩ := h.listed n r hr hne
  refine ⟨inventory, hinventory, hclaimed, fun hash hhash => ?_⟩
  obtain ⟨hlisted, hlogged⟩ := hmem hash hhash
  exact hlogged server ((hproven hash).mpr hlisted)

theorem Accounted.steady (h : Accounted log s) (hst : Steady s t) : Accounted log t where
  invariant := hst.invariant
  complete r hr server hserver := by
    rcases hst.sourced r hr server hserver with ⟨q, hq, hroot, hq'⟩ | ⟨n, q, hq, hroot, hq'⟩
    · exact hroot ▸ h.complete q hq server hq'
    · exact hroot ▸ h.serverComplete_backed hq hq'
  listed n r' hr' hne := by
    obtain ⟨m, r, hr, hroot, -, hinventory, hproven⟩ := hst.inherits n r' hr' hne
    obtain ⟨hash, hhash⟩ := List.exists_mem_of_ne_nil _ hne
    obtain ⟨inventory, hnonempty, hclaimed, hmem⟩ :=
      h.listed m r hr (List.ne_nil_of_mem ((hinventory hash).mp hhash))
    refine ⟨inventory, hnonempty, hroot ▸ hclaimed, fun hash hhash => ?_⟩
    obtain ⟨hlisted, hlogged⟩ := hmem hash hhash
    refine ⟨(hinventory hash).mpr hlisted, fun server h => ?_⟩
    exact hroot ▸ hlogged server ((hproven server hash).mp h)

theorem Accounted.prove (h : Accounted log s) {saga : SagaRow} {server hash : String}
    (hsaga : s.publicationSagaByBatch n = some saga) (hserver : server ∈ saga.destinations)
    (hblob : s.sagaBlobs.has (n, hash) = true) :
    Accounted (.proven saga.candidate.rootHex server hash :: log)
      { s with proofs := s.proofs.insertOrIgnore ⟨n, server, hash⟩ } := by
  obtain ⟨q, hq, rfl⟩ := h.invariant.single.publicationSagaByBatch hsaga
  refine ⟨(h.invariant.prove_evolves hsaga hserver hblob).invariant, fun r hr v hv => ?_,
    fun m r hr hne => ?_⟩
  · exact (h.complete r hr v hv).mono (List.subset_cons_self _ _)
  · have hold : s.SpeaksFor m r := hr.of_rows (by rfl) (by rfl)
    obtain ⟨inventory, hinventory, hclaimed, hmem⟩ := h.listed m r hold hne
    refine ⟨inventory, hinventory, List.mem_cons_of_mem _ hclaimed, fun x hx => ?_⟩
    obtain ⟨hlisted, hlogged⟩ := hmem x hx
    refine ⟨hlisted, fun v hv => ?_⟩
    rw [mem_provenHashes, Table.mem_insertOrIgnore] at hv
    rcases hv with hv | ⟨hnew, -⟩
    · exact List.mem_cons_of_mem _ (hlogged v (mem_provenHashes.mpr hv))
    · simp only [ProofRow.mk.injEq] at hnew
      obtain ⟨rfl, rfl, rfl⟩ := hnew
      rw [hold.unique h.invariant.single hq]
      exact List.mem_cons_self

theorem Accounted.claim (h : Accounted log s) {candidate : PendingCandidate}
    {destinations : List String} {now : ℕ} (hc : Claimed s t candidate destinations now)
    (hpending : s.pendingCandidate = some candidate)
    (hnewer : ∀ a ∈ s.sagas.rows, a.candidate.generation < candidate.generation) :
    Accounted (.claimed candidate.rootHex (pendingInventory s candidate) :: log) t := by
  have hsingle := h.invariant.single
  refine ⟨(h.invariant.claim_evolves hc hpending hnewer).invariant, fun r hr v hv => ?_,
    fun n r hr hne => ?_⟩
  · rcases hc.mem_records hsingle hr with rfl | hr
    · simp [freshSaga] at hv
    · exact (h.complete r hr v hv).mono (List.subset_cons_self _ _)
  · rcases hc.speaksFor_cases hsingle hr with ⟨rfl, rfl⟩ | ⟨hn, hold⟩
    · refine ⟨pendingInventory s candidate, ?_, List.mem_cons_self, fun hash hhash => ?_⟩
      · obtain ⟨b, hb, hid⟩ := h.invariant.pendingListed candidate hpending
        refine List.ne_nil_of_mem (a := b.hash) (List.mem_map_of_mem ?_)
        exact List.mem_filter.mpr ⟨hb, by simpa using hid⟩
      · obtain ⟨b, hb, rfl⟩ := List.mem_map.mp hhash
        obtain ⟨hb, hid⟩ := List.mem_filter.mp hb
        obtain ⟨hlisted, hunproven⟩ :=
          hc.fresh_inventory h.invariant.proofsListed hb (of_decide_eq_true hid)
        exact ⟨hlisted, fun server hproven => absurd hproven (hunproven server)⟩
    · have hne' : s.inventoryHashes n ≠ [] := by
        obtain ⟨hash, hhash⟩ := List.exists_mem_of_ne_nil _ hne
        exact List.ne_nil_of_mem ((hc.mem_inventory hn).mp hhash)
      obtain ⟨inventory, hinventory, hclaimed, hmem⟩ := h.listed n r hold hne'
      refine ⟨inventory, hinventory, List.mem_cons_of_mem _ hclaimed, fun hash hhash => ?_⟩
      obtain ⟨hlisted, hlogged⟩ := hmem hash hhash
      refine ⟨(hc.mem_inventory hn).mpr hlisted, fun server hproven => ?_⟩
      exact List.mem_cons_of_mem _ (hlogged server (hc.mem_proven.mp hproven))

/-- The commits of `claimPublication` with what they add to the log. -/
theorem Accounted.claimMoves (h : Accounted log s)
    (hmoves : Relation.ReflTransGen ClaimMove s t) : Accounted (noteClaim s t ++ log) t := by
  have hcases : (t.pendingCandidate = s.pendingCandidate ∧ t.pendingBlobs = s.pendingBlobs ∧
      Accounted log t) ∨ ∃ candidate, s.pendingCandidate = some candidate ∧
        t.pendingCandidate = none ∧
        Accounted (.claimed candidate.rootHex (pendingInventory s candidate) :: log) t := by
    induction hmoves with
    | refl => exact Or.inl ⟨rfl, rfl, h⟩
    | @tail u _ hmoves hmove ih =>
      rcases ih with ⟨hcandidate, hblobs, hu⟩ | ⟨candidate, hcandidate, hnone, hu⟩
      · cases hmove with
        | adopt hcurrent hunset hprior hserver =>
          have hsteady := hu.invariant.adopt_steady hcurrent hprior hserver
          exact Or.inl ⟨hcandidate, hblobs, hu.steady hsteady⟩
        | @claim _ candidate _ _ hpending hnewer hclaim =>
          have hc := claimCandidate_claimed hu.invariant.single hnewer hclaim
          refine Or.inr ⟨candidate, hcandidate ▸ hpending, hc.pendingCandidate, ?_⟩
          have hinventory : pendingInventory s candidate = pendingInventory u candidate := by
            rw [pendingInventory, pendingInventory, hblobs]
          rw [hinventory]
          refine hu.claim hc hpending fun a ha => ?_
          exact (hnewer _ (publicationSaga_of_rows (hu.invariant.single.rows ha))).1
      · cases hmove with
        | adopt hcurrent hunset hprior hserver =>
          have hsteady := hu.invariant.adopt_steady hcurrent hprior hserver
          exact Or.inr ⟨candidate, hcandidate, hnone, hu.steady hsteady⟩
        | claim hpending => exact absurd (hnone.symm.trans hpending) (by simp)
  rcases hcases with ⟨hcandidate, -, ht⟩ | ⟨candidate, hcandidate, hnone, ht⟩
  · have hquiet : noteClaim s t = [] := by
      unfold noteClaim
      rw [hcandidate]
      cases s.pendingCandidate <;> rfl
    rwa [hquiet]
  · have hnote : noteClaim s t =
        [.claimed candidate.rootHex (pendingInventory s candidate)] := by
      simp [noteClaim, hcandidate, hnone]
    rwa [hnote]

theorem Accounted.ready (h : Accounted log s) {r : SagaRow} (hr : r ∈ s.records)
    (hset : (readSaga r).completeServer ≠ none ∨ r.signedEvent ≠ none) : Ready log (readSaga r) := by
  have hordered := h.invariant.ordered r hr
  have hcomplete : r.completeServer ≠ none := by
    rcases hset with hset | hset
    · intro hnone
      simp [hnone, truthy] at hset
    · exact hordered.complete_of_signed hset
  obtain ⟨server, hserver⟩ := Option.ne_none_iff_exists'.mp hcomplete
  exact ⟨server, hordered.complete_listed server hserver, h.complete r hr server hserver⟩

theorem Accounted.active_ready (h : Accounted log s) {saga : SagaRow}
    (hsaga : s.publicationSaga = some saga)
    (hset : saga.completeServer ≠ none ∨ saga.signedEvent ≠ none) : Ready log saga := by
  obtain ⟨r, hrows, rfl⟩ := h.invariant.single.publicationSaga hsaga
  exact h.ready (sagas_recorded r (by simp [hrows])) hset

theorem Accounted.published_ready (h : Accounted log s) {saga : SagaRow} {work : EndpointWork}
    (hsaga : published s work = some saga) : Ready log saga := by
  obtain ⟨hsaga, hsigned⟩ := Option.filter_eq_some_iff.mp hsaga
  obtain ⟨r, hr, rfl⟩ := h.invariant.single.publicationSagaByBatch hsaga
  refine h.ready hr.mem_records (Or.inr ?_)
  have hsome := (of_decide_eq_true hsigned).2
  rw [readSaga_signedEvent] at hsome
  exact Option.isSome_iff_ne_none.mp hsome

end Accounts

section Assertions

/-- The accounts hold, the log is gated and satisfies `P`. -/
def Holds (P : List Entry → Prop) (j : Journal) : Prop :=
  Accounted j.log j.state ∧ Gated j.log ∧ P j.log

def Silent {α : Type} (m : CoordinatorProgram α) : Prop :=
  ∀ P, Preserves (Holds P) m

def Sound {α : Type} (P : List Entry → Prop) (m : CoordinatorProgram α)
    (Q : α → List Entry → Prop) : Prop :=
  Triple (Holds P) m (Holds fun _ => True) fun a => Holds (Q a)

variable {α β : Type} {P P' : List Entry → Prop} {Q Q' : α → List Entry → Prop}

theorem Holds.mono {j : Journal} (h : Holds P j) (hP : ∀ log, P log → P' log) : Holds P' j :=
  ⟨h.1, h.2.1, hP _ h.2.2⟩

theorem Silent.sound {m : CoordinatorProgram α} (h : Silent m) : Sound P m fun _ => P :=
  Triple.mono (h P) (fun _ hj => hj) (fun _ hj => hj.mono fun _ _ => trivial) fun _ _ hj => hj

theorem Sound.mono {m : CoordinatorProgram α} (h : Sound P m Q) (hP : ∀ log, P' log → P log)
    (hQ : ∀ a log, Q a log → Q' a log) : Sound P' m Q' :=
  Triple.mono h (fun _ hj => hj.mono hP) (fun _ hj => hj) fun a _ hj => hj.mono (hQ a)

theorem Sound.pure (a : α) (h : ∀ log, P log → Q a log) : Sound P (Pure.pure a) Q :=
  Triple.pure a fun _ hj => hj.mono h

theorem Sound.throw (e : Failure) : Sound P (Program.throw e) Q :=
  Triple.throw e

theorem Sound.bind {m : CoordinatorProgram α} {f : α → CoordinatorProgram β}
    {R : β → List Entry → Prop} (hm : Sound P m Q) (hf : ∀ a, Sound (Q a) (f a) R) :
    Sound P (m >>= f) R :=
  Triple.bind hm hf

theorem Silent.bind_sound {m : CoordinatorProgram α} {f : α → CoordinatorProgram β}
    {R : β → List Entry → Prop} (hm : Silent m) (hf : ∀ a, Sound P (f a) R) :
    Sound P (m >>= f) R :=
  hm.sound.bind hf

theorem Sound.read_bind {f : Journal → CoordinatorProgram β} {R : β → List Entry → Prop}
    (hf : ∀ j, Holds P j → Sound (fun log => P log ∧ log = j.log) (f j) R) :
    Sound P (Program.read >>= f) R := by
  intro j hj
  rw [Program.bind_read_run]
  exact hf j hj j ⟨hj.1, hj.2.1, hj.2.2, rfl⟩

theorem Sound.record {entry : Entry} {Q : List Entry → Prop}
    (hready : ∀ log, P log → ∀ saga, entry.announced = some saga → Ready log saga)
    (hQ : ∀ log, P log → Q (entry :: log)) : Sound P (record entry) fun _ => Q := by
  have hstep : ∀ j, Holds P j → Holds Q { j with log := entry :: j.log } := by
    intro j hj
    exact ⟨hj.1.mono (List.subset_cons_self _ _), hj.2.1.cons (hready _ hj.2.2), hQ _ hj.2.2⟩
  exact Triple.commit (fun j hj => (hstep j hj).mono fun _ _ => trivial) hstep

theorem repository_keeps {note : WriteRepository → WriteRepository → List Entry}
    {m : RepositoryProgram α} (hP : ∀ log s t, P log → P (note s t ++ log))
    (hgate : ∀ s t, ∀ entry ∈ note s t, entry.announced = none)
    (h : ∀ log s, Accounted log s → ∀ t ∈ (m.run s).commits, Accounted (note s t ++ log) t) :
    Preserves (Holds P) (repository note m) := by
  refine Preserves.of_commits fun j hj k hk => ?_
  obtain ⟨t, ht, rfl⟩ := List.mem_map.mp hk
  refine ⟨h j.log j.state hj.1 t ht, ?_, hP _ _ _ hj.2.2⟩
  refine Throughout.append hj.2.1 fun entry hentry earlier saga hsaga => ?_
  rw [hgate j.state t entry hentry] at hsaga
  exact absurd hsaga (by simp)

def Calm (m : RepositoryProgram α) : Prop :=
  Advances (fun s t => SagaInvariant s → Steady s t) m

theorem calm_of_quiet {acceptable : RawPublication → Bool} {m : RepositoryProgram α}
    (h : Advances (QuietMove acceptable) m) : Calm m :=
  Advances.mono (fun _ _ hmove hI => hI.quiet_steady hmove) h

theorem calm_of_columns {m : RepositoryProgram α}
    (h : Advances (ColumnMove fun _ => True) m) : Calm m :=
  have hquiet : Advances (QuietMove fun _ => true) m := Advances.mono (fun _ _ hmove => hmove.quiet) h
  calm_of_quiet hquiet

theorem calm_of_refresh {m : RepositoryProgram α} (h : Advances RefreshMove m) : Calm m :=
  calm_of_quiet (Advances.mono (fun _ _ h => QuietMove.refresh h) h : Advances (QuietMove fun _ => true) m)

theorem Calm.accounted {m : RepositoryProgram α} (hm : Calm m) {log : List Entry}
    {s : WriteRepository} (h : Accounted log s) : ∀ t ∈ (m.run s).commits, Accounted log t := by
  intro t ht
  have hmoves := hm s t ht
  clear ht
  induction hmoves with
  | refl => exact h
  | tail _ hmove ih => exact ih.steady (hmove ih.invariant)

theorem Calm.silent {m : RepositoryProgram α} (hm : Calm m) : Silent (repository silently m) := by
  intro P
  refine repository_keeps (fun _ _ _ hP => hP) (fun _ _ entry hentry => ?_) fun log s h => ?_
  · exact absurd hentry List.not_mem_nil
  · exact hm.accounted h

end Assertions

section Programs

variable (o : CoordinatorOptions) (m : Moment)

theorem outcome_silent (work : EndpointWork) (ok : Bool) (code : EndpointWorkCode) :
    Silent (outcome o m work ok code) :=
  (calm_of_columns (recordEndpointOutcome_advances (fun _ _ => trivial) _)).silent

theorem work_silent (kind : EndpointWorkKind) (P : List Entry → Prop) :
    KeepsWork o m kind (Holds P) where
  outcome work ok code _ := outcome_silent o m work ok code P
  claim _ _ := (calm_of_columns (claimEndpointWork_advances _ (fun _ _ => trivial) _ _)).silent P

theorem replicas_silent (P : List Entry → Prop) : KeepsReplicas o m (Holds P) where
  toKeepsWork := work_silent o m .replica P
  complete _ _ := (calm_of_columns (recordCompleteServer_advances _ _ _)).silent P

def Phase.Promised (log : List Entry) : Phase → Prop
  | .signing saga _ _ => Ready log saga
  | _ => True

theorem Phase.Promised.mono {log log' : List Entry} {phase : Phase} (h : phase.Promised log)
    (hlog : log ⊆ log') : phase.Promised log' := by
  cases phase with
  | signing saga template relays => exact Ready.mono h hlog
  | _ => trivial

def Advancing (P : List Entry → Prop) (program : CoordinatorProgram Phase) : Prop :=
  Sound P program fun phase log => phase.Promised log

variable {P : List Entry → Prop}

theorem Advancing.to {phase : Phase} (h : ∀ log, P log → phase.Promised log) :
    Advancing P (pure phase) :=
  Sound.pure phase h

theorem repair_advancing : Advancing P (repair o m) := by
  refine Silent.bind_sound (calm_of_columns (claimDueWork_advances _ (fun _ _ => trivial) _)).silent
    fun due => Sound.read_bind fun j _ => ?_
  refine Sound.bind (Q := fun _ _ => True) ?_ fun _ => ?_
  · refine Triple.mono (Triple.forEach (J := fun _ => Holds fun _ => True) (fun work _ => ?_) due)
      (fun j hj => hj.mono fun _ _ => trivial) (fun _ hj => hj) fun _ _ hj => hj
    refine Sound.read_bind fun j hj => ?_
    split
    · exact (outcome_silent o m work false .unavailable).sound.mono (fun _ _ => trivial) fun _ _ h => h
    · next saga hsaga =>
      refine Sound.record (fun log hlog q hq => ?_) fun _ _ => trivial
      obtain rfl : saga = q := by simpa [Entry.announced] using hq
      exact hlog.2 ▸ hj.1.published_ready hsaga
  · refine Advancing.to fun log _ => ?_
    split_ifs <;> trivial

theorem admission_advancing (saga : SagaRow) : Advancing P (admission m saga) := by
  unfold admission
  split_ifs
  · exact Advancing.to fun _ _ => trivial
  · exact Silent.bind_sound (calm_of_columns
      (markPublicationAdmitted_advances _ _ _ _)).silent fun _ =>
        Advancing.to fun _ _ => trivial
  · exact Sound.throw _

theorem conclude_advancing (saga : SagaRow) : Advancing P (conclude m saga) := by
  unfold conclude
  split_ifs
  · exact admission_advancing m saga
  · refine Silent.bind_sound (calm_of_columns
      (commitPublication_advances _ _)).silent fun _ => Sound.read_bind fun j _ => ?_
    split
    · exact Sound.throw _
    · exact admission_advancing m _

theorem announce_advancing (saga : SagaRow) (relays : List String)
    (hready : ∀ log, P log → Ready log saga) : Advancing P (announce m saga relays) := by
  refine Silent.bind_sound (calm_of_columns
    (ensureEndpointWork_advances _ (fun _ _ => trivial) _)).silent fun _ => ?_
  split_ifs
  · refine Sound.bind (Sound.record (Q := fun _ => True) (fun log hlog q hq => ?_) fun _ _ => trivial)
      fun _ => Advancing.to fun _ _ => trivial
    obtain rfl : saga = q := by simpa [Entry.announced] using hq
    exact hready log hlog
  · exact conclude_advancing m saga

theorem sign_advancing (saga : SagaRow) (relays : List String)
    (hready : ∀ log, P log → Ready log saga) : Advancing P (sign o m saga relays) := by
  unfold sign
  split_ifs
  · refine Sound.read_bind fun j _ => ?_
    refine Sound.bind (Sound.record (Q := fun log => Ready log saga) (fun log hlog q hq => ?_)
      fun log hlog => ?_) fun _ => Advancing.to fun _ h => h
    · obtain rfl : saga = q := by simpa [Entry.announced] using hq
      exact hready log hlog.1
    · exact (hready log hlog.1).mono (List.subset_cons_self _ _)
  · exact announce_advancing m saga relays hready

/-- What `claimPublication` returns is the active saga. -/
theorem claimPublication_active (destinations : List String) (now : ℕ) :
    Triple (fun _ => True) (claimPublication destinations now) (fun _ => True)
      fun result s => ∀ saga, result = some saga → s.publicationSaga = some saga := by
  have hclaim (candidate : PendingCandidate) : Triple (fun _ => True)
      (do
        Program.transaction (claimCandidate candidate destinations now)
        let t ← Program.read
        pure t.publicationSaga) (fun _ => True)
      fun result s => ∀ saga, result = some saga → s.publicationSaga = some saga := by
    refine Triple.bind (Triple.transaction fun _ _ _ _ _ => ⟨trivial, trivial⟩) fun _ => ?_
    refine Triple.bind (Triple.read (Q := fun t s => t = s) fun _ _ => rfl) fun t => ?_
    exact Triple.pure _ fun s hs saga hsaga => hs ▸ hsaga
  refine Triple.bind (R := fun _ _ => True) (fun s _ => ⟨fun _ _ => trivial, fun _ _ => trivial⟩)
    fun _ => ?_
  refine Triple.bind (Triple.read (Q := fun t s => t = s) fun _ _ => rfl) fun t => ?_
  split
  · next current hcurrent hcandidate =>
    exact Triple.pure _ fun s hs saga hsaga => hs ▸ hcurrent.trans hsaga
  · exact Triple.pure _ fun s hs saga hsaga => by simp at hsaga
  · next current candidate hcurrent hcandidate =>
    split_ifs
    · exact Triple.pure _ fun s hs saga hsaga => hs ▸ hcurrent.trans hsaga
    · exact Triple.pure _ fun s hs saga hsaga => by simp at hsaga
    · exact (hclaim candidate).mono (fun _ _ => trivial) (fun _ h => h) fun _ _ h => h
  · next candidate hcurrent hcandidate =>
    split_ifs
    · exact Triple.pure _ fun s hs saga hsaga => by simp at hsaga
    · exact (hclaim candidate).mono (fun _ _ => trivial) (fun _ h => h) fun _ _ h => h

theorem noteClaim_quiet (s t : WriteRepository) : ∀ entry ∈ noteClaim s t, entry.announced = none := by
  intro entry hentry
  unfold noteClaim at hentry
  split at hentry
  · obtain rfl : entry = _ := by simpa using hentry
    rfl
  · exact absurd hentry List.not_mem_nil

theorem noteProof_quiet (batchId : ℕ) (server hash : String) (s t : WriteRepository) :
    ∀ entry ∈ noteProof batchId server hash s t, entry.announced = none := by
  intro entry hentry
  unfold noteProof at hentry
  split at hentry
  · obtain rfl : entry = _ := by simpa using hentry
    rfl
  · exact absurd hentry List.not_mem_nil

theorem claim_keeps (destinations : List String) (now : ℕ)
    (hP : ∀ log entries, P log → P (entries ++ log)) :
    Preserves (Holds P) (repository noteClaim (claimPublication destinations now)) := by
  refine repository_keeps (fun _ _ _ => hP _ _) noteClaim_quiet fun log s h t ht => ?_
  exact h.claimMoves (claimPublication_advances now destinations s t ht)

theorem proof_keeps (batchId : ℕ) (server hash : String)
    (hP : ∀ log entries, P log → P (entries ++ log)) :
    Preserves (Holds P) (repository (noteProof batchId server hash)
      (recordBlobProof batchId server hash)) := by
  refine repository_keeps (fun _ _ _ => hP _ _) (noteProof_quiet batchId server hash)
    fun log s h t ht => ?_
  obtain ⟨saga, hsaga, hserver, hblob, rfl⟩ := recordBlobProof_commits ht
  have hnote : noteProof batchId server hash s
      { s with proofs := s.proofs.insertOrIgnore ⟨batchId, server, hash⟩ } =
        [.proven saga.candidate.rootHex server hash] := by
    simp [noteProof, hsaga]
  rw [hnote]
  exact h.prove hsaga hserver hblob

theorem claimed_sound (destinations : List String) (now : ℕ) :
    Sound (fun _ => True) (repository noteClaim (claimPublication destinations now))
      fun result log => ∀ saga, result = some saga → saga.completeServer ≠ none → Ready log saga := by
  intro j hj
  obtain ⟨hcommits, hfinal⟩ := claim_keeps destinations now (fun _ _ _ => trivial) j hj
  refine ⟨hcommits, fun result hresult => ?_⟩
  obtain ⟨hholds, hgated, -⟩ := hfinal result hresult
  refine ⟨hholds, hgated, fun saga hsaga hcomplete => hholds.active_ready ?_ (Or.inl hcomplete)⟩
  have hactive := (claimPublication_active destinations now j.state trivial).2 result hresult saga hsaga
  exact (Program.logged_final noteClaim _ j).symm ▸ hactive

theorem begin_advancing (destinations relays : List String) :
    Advancing (fun _ => True) (begin o m destinations relays) := by
  refine Silent.bind_sound (calm_of_refresh (beginPublicationRefresh_advances _ _)).silent
    fun _ => Sound.bind (claimed_sound destinations m.now) fun result => ?_
  split
  · exact Advancing.to fun _ _ => trivial
  · next saga =>
    refine Silent.bind_sound (calm_of_columns
      (ensureEndpointWork_advances _ (fun _ _ => trivial) _)).silent fun _ => Sound.read_bind fun j _ => ?_
    split_ifs with hcomplete hservers
    · exact Advancing.to fun _ _ => trivial
    · exact Advancing.to fun _ _ => trivial
    · exact sign_advancing o m saga relays fun log hlog => hlog.1 saga rfl hcomplete

theorem gate_replicates : Replicates o m (Holds fun _ => True) (Holds fun _ => True)
    fun phase => Holds phase.Promised where
  keeps := replicas_silent o m _
  proof _ _ _ := proof_keeps _ _ _ fun _ _ _ => trivial
  weaker _ hj := hj
  idle _ hj := hj.mono fun _ _ => trivial
  replicating _ _ hj := hj.mono fun _ _ => trivial
  sign j saga relays hj hsaga hcomplete k hk := by
    subst hk
    refine sign_advancing o m saga relays (P := fun log => log = k.log) (fun log hlog => ?_) k
      ⟨hj.1, hj.2.1, rfl⟩
    exact hlog ▸ hj.1.active_ready hsaga (Or.inl hcomplete)

/-- After `recordSigned` the active saga has a complete server. -/
theorem recordSigned_complete (acceptable : RawPublication → Bool) (batchId : ℕ)
    (template : EventTemplate) (event : RawPublication) :
    Triple SagaInvariant (recordSigned acceptable batchId template event) (fun _ => True)
      fun _ t => ∀ saga, t.publicationSaga = some saga → saga.completeServer ≠ none := by
  refine Triple.bind (Triple.read (Q := fun t s => t = s ∧ SagaInvariant s) fun _ h => ⟨rfl, h⟩)
    fun s => ?_
  split
  · exact Triple.throw _
  · next saga hsaga =>
    split_ifs with hcomplete
    · exact Triple.throw _
    · exact Triple.throw _
    · refine Triple.commit (fun _ _ => trivial) fun t ht later hlater => ?_
      obtain ⟨rfl, hI⟩ := ht
      obtain ⟨a, hrows, rfl⟩ := hI.single.publicationSaga hsaga
      have hlaterRows : (s.updateSaga batchId (setSigned template event) fun _ => rfl).sagas.rows =
          [if a.batchId = batchId then setSigned template event a else a] := by
        simp [updateSaga, hrows]
      rw [publicationSaga_of_rows hlaterRows] at hlater
      obtain rfl : readSaga _ = later := by simpa using hlater
      split_ifs <;> exact hcomplete
    · exact Triple.throw _

theorem signed_ready (batchId : ℕ) (template : EventTemplate) (event : RawPublication) :
    Triple (Holds fun _ => True) (repository silently (recordSigned o.acceptable batchId template event))
      (Holds fun _ => True) fun _ j => Holds (fun _ => True) j ∧
        ∀ saga, j.state.publicationSaga = some saga → Ready j.log saga := by
  intro j hj
  have hcalm := calm_of_quiet (recordSigned_advances o.acceptable batchId template event)
  obtain ⟨hcommits, hfinal⟩ := hcalm.silent _ j hj
  refine ⟨hcommits, fun result hresult => ⟨hfinal result hresult, fun saga hsaga => ?_⟩⟩
  refine (hfinal result hresult).1.active_ready hsaga (Or.inl ?_)
  rw [Program.logged_final] at hsaga
  exact (recordSigned_complete o.acceptable batchId template event j.state hj.1.invariant).2
    result hresult saga hsaga

theorem signerAnswered_advancing (saga : SagaRow) (template : EventTemplate) (relays : List String)
    (answer : Option RawPublication) :
    Advancing (fun log => Ready log saga) (signerAnswered o m saga template relays answer) := by
  cases answer with
  | none => exact Sound.throw _
  | some event =>
    refine Sound.bind (Sound.record (Q := fun _ => True) (fun log hlog q hq => ?_) fun _ _ => trivial)
      fun _ => ?_
    · obtain rfl : saga = q := by simpa [Entry.announced] using hq
      exact hlog
    · split_ifs
      · exact Sound.throw _
      · refine Triple.bind (signed_ready o saga.batchId template event) fun _ j hj => ?_
        rw [Program.bind_read_run]
        split
        · exact Triple.throw (P := fun k => k = j) _ j rfl
        · next saga hsaga =>
          exact announce_advancing m saga relays (P := fun log => log = j.log)
            (fun log hlog => hlog ▸ hj.2 saga hsaga) j ⟨hj.1.1, hj.1.2.1, rfl⟩
      · exact Sound.throw _

theorem relaysAnswered_advancing (saga : SagaRow) (relays : List String)
    (answer : Option (List (String × Bool))) :
    Advancing P (relaysAnswered o m saga relays answer) := by
  cases answer with
  | none => exact Sound.throw _
  | some outcomes =>
    refine Sound.read_bind fun j _ => ?_
    split_ifs
    · exact Advancing.to fun _ _ => trivial
    · refine Silent.bind_sound (fun P => Preserves.forEach fun relay _ =>
        recordInitial_keeps (work_silent o m .relay P) _ _ _) fun _ => ?_
      split
      · exact Advancing.to fun _ _ => trivial
      · refine Silent.bind_sound (calm_of_columns
          (recordRelayAcknowledgement_advances _ _ _)).silent fun _ =>
            Sound.read_bind fun j _ => ?_
        split
        · exact Sound.throw _
        · exact conclude_advancing m _

theorem repaired_advancing (due : List EndpointWork) (work : EndpointWork) (answer : Option Bool) :
    Advancing P (repaired o m due work answer) := by
  cases answer with
  | none => exact Sound.throw _
  | some ok =>
    refine (outcome_silent o m work ok .rejected).bind_sound fun _ => ?_
    refine Advancing.to fun _ _ => ?_
    split_ifs <;> trivial

theorem close_advancing (phase : Phase) : Advancing P (close o m phase) := by
  refine Silent.bind_sound (calm_of_columns (restoreClaimedWork_advances _)).silent
    fun _ => ?_
  split
  · refine Silent.bind_sound (fun P => failServers_keeps (replicas_silent o m P) _ _) fun _ => ?_
    exact Advancing.to fun _ _ => trivial
  · exact Advancing.to fun _ _ => trivial
  · exact Advancing.to fun _ _ => trivial

variable (digest : Bytes → String)

theorem operation_keeps (op : RepositoryOp) (hP : ∀ log entries, P log → P (entries ++ log)) :
    Preserves (Holds P) (repository (noteOp op)
      (RepositoryLabel.program digest o.acceptable ⟨op, m.now, m.fails, none⟩)) := by
  have hcalm {program : RepositoryProgram Unit} (h : Calm program) :=
    h.silent P
  cases op with
  | staging op =>
    refine hcalm (Advances.mono (fun _ _ (h : Staged _ _) hI => hI.steady_of_ledger h.ledger) ?_)
    exact staging_advances digest m.fails m.now op
  | batch op =>
    refine hcalm (Advances.mono (fun _ _ h hI => hI.batch_steady h) ?_)
    exact batch_advances m.fails m.now op
  | reopen retries =>
    exact hcalm (reopen_advances digest (fun _ _ h hI => hI.steady_of_ledger h.1)
      (fun _ hI => hI.activate_steady) m.fails retries m.now)
  | saga op =>
    by_cases hclaim : ∃ destinations, op = .claimPublication destinations
    · obtain ⟨destinations, rfl⟩ := hclaim
      refine repository_keeps (fun _ _ _ => hP _ _) noteClaim_quiet fun log s h t ht => ?_
      refine h.claimMoves ?_
      exact advances_discarded (claimPublication_advances m.now destinations) s t ht
    · by_cases hprove : ∃ batchId server hash, op = .recordBlobProof batchId server hash
      · obtain ⟨batchId, server, hash, rfl⟩ := hprove
        exact proof_keeps batchId server hash hP
      · have hnote : noteOp (.saga op) = silently := by
          cases op <;> simp_all [noteOp]
        rw [hnote]
        refine hcalm (calm_of_quiet (quiet_advances o.acceptable m.fails m.now op ?_ ?_))
        · simpa using hclaim
        · simpa using hprove

theorem operation_advancing (op : RepositoryOp) (phase : Phase) :
    Advancing phase.Promised (operation digest o m op phase) := by
  refine Triple.bind (R := fun _ => Holds fun log => phase.Promised log) ?_ fun _ => ?_
  · refine (operation_keeps o m digest op fun log entries h => ?_).attempt.mono
      (fun _ h => h) (fun _ h => h.mono fun _ _ => trivial) fun _ _ h => h
    exact h.mono (List.subset_append_right _ _)
  · split
    · exact Advancing.to fun _ _ => trivial
    · exact Advancing.to fun _ h => h

end Programs

section Gate

variable (digest : Bytes → String) (o : CoordinatorOptions)

theorem program_advancing (l : CoordinatorLabel) (phase : Phase) :
    Advancing phase.Promised (l.program digest o phase) := by
  unfold CoordinatorLabel.program
  split
  · exact (begin_advancing o l.moment _ _).mono (fun _ _ => trivial) fun _ _ h => h
  · exact Triple.mono (authorized_replicates (gate_replicates o l.moment) _ _ _ _ _ _)
      (fun _ hj => hj.mono fun _ _ => trivial) (fun _ hj => hj) fun _ _ hj => hj
  · split
    · split
      · exact Triple.mono (proved_replicates (gate_replicates o l.moment) _ _ _ _ _)
          (fun _ hj => hj.mono fun _ _ => trivial) (fun _ hj => hj) fun _ _ hj => hj
      · exact Advancing.to fun _ h => h
    · exact Advancing.to fun _ h => h
  · exact Advancing.to fun _ _ => trivial
  · exact signerAnswered_advancing o l.moment _ _ _ _
  · exact relaysAnswered_advancing o l.moment _ _ _
  · split_ifs
    · exact repair_advancing o l.moment
    · exact Sound.throw _
  · split
    · exact repaired_advancing o l.moment _ _ _
    · exact Advancing.to fun _ h => h
  · exact close_advancing o l.moment _
  · exact operation_advancing o l.moment digest _ _
  · exact Advancing.to fun _ h => h

def CoordinatorInvariant (w : CoordinatorState) : Prop :=
  Holds w.phase.Promised w.journal

theorem coordinatorStep_invariant {w : CoordinatorState} (h : CoordinatorInvariant w)
    (l : CoordinatorLabel) : CoordinatorInvariant (coordinatorStep digest o w l) := by
  have hprogram : Triple (fun j => j = w.journal) (l.program digest o w.phase) (Holds fun _ => True)
      fun phase => Holds phase.Promised :=
    Triple.mono (program_advancing digest o l w.phase) (fun j (hj : j = w.journal) => hj ▸ h)
      (fun _ h => h) fun _ _ h => h
  refine coordinatorStep_of_triple digest o hprogram (h.mono fun _ _ => trivial)
    (fun j hj => hj.mono fun _ _ => trivial) fun j hj => ?_
  exact ⟨hj.1.steady (hj.1.invariant.steady_of_ledger rfl), hj.2.1, trivial⟩

theorem coordinator_invariant (capacity : ℕ) (labels : List CoordinatorLabel) :
    CoordinatorInvariant (run (coordinatorStep digest o) (coordinatorInitial capacity) labels) := by
  refine run_preserves (I := CoordinatorInvariant)
    (fun _ l h => coordinatorStep_invariant digest o h l) labels ?_
  exact ⟨.initial capacity, .nil _, trivial⟩

/-- The availability gate.  In every run an event for a saga is templated, signed or handed to the
relays only if some destination of the saga has by then proven every blob of the inventory that some
candidate with the same root hash brought, and the count test finds a server complete exactly when it
has proven the whole inventory. -/
theorem availability_gate (capacity : ℕ) (labels : List CoordinatorLabel) :
    let j := (run (coordinatorStep digest o) (coordinatorInitial capacity) labels).journal
    (∀ later entry earlier saga, j.log = later ++ entry :: earlier →
      entry = .templated saga ∨ entry = .signed saga ∨ entry = .published saga →
      ∃ server ∈ saga.destinations, ∃ inventory, inventory ≠ [] ∧
        .claimed saga.candidate.rootHex inventory ∈ earlier ∧
        ∀ hash ∈ inventory, .proven saga.candidate.rootHex server hash ∈ earlier) ∧
    ∀ batchId server, j.state.serverComplete batchId server = true ↔
      j.state.inventoryHashes batchId ≠ [] ∧
        ∀ hash, hash ∈ j.state.provenHashes batchId server ↔ hash ∈ j.state.inventoryHashes batchId := by
  obtain ⟨haccounted, hgated, -⟩ := coordinator_invariant digest o capacity labels
  refine ⟨fun later entry earlier saga hsplit hentry => hgated later entry earlier hsplit saga ?_,
    fun batchId server => haccounted.invariant.proofsListed.serverComplete_iff⟩
  rcases hentry with rfl | rfl | rfl <;> rfl

end Gate

section Adoption

def sampleOptions : CoordinatorOptions where
  kind := 17091
  identifier := ""
  pubkey := "key"
  nixSigKeys := []
  lifetimeSeconds := 100
  refreshLeadSeconds := 10
  baseSeconds := 1
  maxSeconds := 1
  maxAttempts := 1
  concurrency := 1
  jitter := fun _ _ => 0
  verifyEvent := fun _ => true
  validatePublication := fun _ _ => true

/-- A build with the root manifest `root`, which may list further manifests. -/
def sampleBuild (manifests : List String) : HashtreeBuild where
  rootHex := "root"
  rootNhash := "nhash"
  rootBlob := ⟨"root", 1, "root"⟩
  otherBlobs := manifests.map fun hash => ⟨hash, 1, hash⟩
  totalBytes := 1
  runId := none

def batchEvents (n : ℕ) (manifests : List String) : List CoordinatorEvent :=
  [.operation (.batch (.markPublicationDirty n none)),
    .operation (.batch (.claimPublicationBatch n)),
    .operation (.batch (.recordPending ⟨n, n, n, none, 0⟩ (sampleBuild manifests)))]

def sampleEvent : RawPublication where
  id := "event"
  pubkey := "key"
  createdAt := 0
  kind := 17091
  tags := [["htree", "htree://nhash"], ["blossom", "server"], ["expiration", "100"]]
  content := ""
  sig := ""

def firstPublication : List CoordinatorEvent :=
  [.tick ["server"] ["relay"], .authorized true false, .proved 0 .confirmed,
    .signed (some sampleEvent), .relaysAnswered (some [("relay", true)]), .repairAuthorized true]

def secondPublication : List CoordinatorEvent :=
  [.tick ["server"] ["relay"], .authorized false false, .tick ["server"] ["relay"]]

/-- Two batches with one root.  The second one lists a manifest that the first one does not. -/
def adoptionRun : List CoordinatorLabel :=
  (batchEvents 1 [] ++ firstPublication ++ batchEvents 2 ["manifest"] ++ secondPublication).map
    fun event => ⟨event, ⟨0, true, fun _ => none⟩, none⟩

def Entry.provenHash : Entry → Option String
  | .proven _ _ hash => some hash
  | _ => none

/-- The second saga takes over the complete server of the first and is templated, although no server
has proven its manifest. -/
theorem adopted_without_proof :
    let j := (run (coordinatorStep (fun _ => "") sampleOptions) (coordinatorInitial 0)
      adoptionRun).journal
    ∃ saga earlier, j.log = .templated saga :: earlier ∧
      "manifest" ∈ j.state.inventoryHashes saga.batchId ∧
      ∀ rootHex server, .proven rootHex server "manifest" ∉ earlier := by
  intro j
  have hunproven : ∀ entry ∈ j.log.tail, entry.provenHash ≠ some "manifest" := by decide
  refine ⟨_, j.log.tail, rfl, by decide, fun rootHex server hmem => ?_⟩
  exact hunproven _ hmem rfl

end Adoption

end NixstrCache.Write


import NixstrCache.Persistence.SagaTables

/-!
The invariant of the saga tables and what each change of the ledger does to them.

A saga is identified by its generation and its batch id.  The invariant carries the order in which
the columns of a saga are filled; `Follows` says that sagas only grow and that a new saga comes after
every older one.  A change is steady when it neither claims a candidate nor records a proof: then
inventories and proofs are inherited and complete servers have a source.
-/

namespace NixstrCache.Persistence

def SagaRow.Same (a b : SagaRow) : Prop :=
  a.candidate.generation = b.candidate.generation ∧ a.batchId = b.batchId

def SagaRow.Before (a b : SagaRow) : Prop :=
  a.candidate.generation < b.candidate.generation ∨
    a.candidate.generation = b.candidate.generation ∧ a.batchId < b.batchId

/-- The columns of a saga are filled in the order of the publication. -/
structure SagaRow.Ordered (r : SagaRow) : Prop where
  committed_of_admitted : r.admitted = true → r.committed = true
  acknowledged_of_committed : r.committed = true → r.acknowledgedRelay ≠ none
  signed_of_acknowledged : r.acknowledgedRelay ≠ none → r.signedEvent ≠ none
  complete_of_signed : r.signedEvent ≠ none → r.completeServer ≠ none
  complete_listed : ∀ server, r.completeServer = some server → server ∈ r.destinations

/-- What is set in the first row is set to the same value in the second. -/
structure SagaRow.Extends (r r' : SagaRow) : Prop where
  completeServer : ∀ server, r.completeServer = some server → r'.completeServer = some server
  template : ∀ template, r.template = some template → r'.template = some template
  signedEvent : ∀ event, r.signedEvent = some event → r'.signedEvent = some event
  acknowledgedRelay : ∀ relay, r.acknowledgedRelay = some relay → r'.acknowledgedRelay = some relay

/-- The columns that a saga is created with and keeps. -/
structure SagaRow.Keeps (r r' : SagaRow) : Prop where
  batchId : r'.batchId = r.batchId
  candidate : r'.candidate = r.candidate
  destinations : r'.destinations = r.destinations

namespace SagaRow

theorem Same.refl (a : SagaRow) : a.Same a :=
  ⟨rfl, rfl⟩

theorem Extends.refl (r : SagaRow) : r.Extends r :=
  ⟨fun _ h => h, fun _ h => h, fun _ h => h, fun _ h => h⟩

theorem Extends.trans {a b c : SagaRow} (h : a.Extends b) (h' : b.Extends c) : a.Extends c :=
  ⟨fun v hv => h'.completeServer v (h.completeServer v hv),
    fun v hv => h'.template v (h.template v hv),
    fun v hv => h'.signedEvent v (h.signedEvent v hv),
    fun v hv => h'.acknowledgedRelay v (h.acknowledgedRelay v hv)⟩

theorem Keeps.refl (r : SagaRow) : r.Keeps r :=
  ⟨rfl, rfl, rfl⟩

theorem Keeps.same {r r' : SagaRow} (h : r.Keeps r') : r.Same r' := by
  simp [Same, h.candidate, h.batchId]

end SagaRow

namespace WriteRepository

open Durable KeyedTable Runs

section Columns

variable {r : SagaRow}

theorem or_some_ne_none {α : Type} (a : Option α) (b : α) : a.or (some b) ≠ none := by
  cases a <;> simp

theorem or_of_some {α : Type} {a : Option α} {v : α} (b : Option α) (h : a = some v) :
    a.or b = some v := by
  simp [h]

theorem setCompleteServer_extends (server : String) : r.Extends (setCompleteServer server r) :=
  ⟨fun _ h => or_of_some _ h, fun _ h => h, fun _ h => h, fun _ h => h⟩

theorem setCompleteServer_ordered {server : String} (hr : r.Ordered)
    (hserver : server ∈ r.destinations) : (setCompleteServer server r).Ordered where
  committed_of_admitted := hr.committed_of_admitted
  acknowledged_of_committed := hr.acknowledged_of_committed
  signed_of_acknowledged := hr.signed_of_acknowledged
  complete_of_signed := fun _ => or_some_ne_none _ _
  complete_listed := fun v hv => by
    rcases Option.or_eq_some_iff.mp hv with h | ⟨-, h⟩
    · exact hr.complete_listed v h
    · obtain rfl : server = v := by simpa using h
      exact hserver

theorem setSigned_extends (template : EventTemplate) (event : RawPublication) :
    r.Extends (setSigned template event r) :=
  ⟨fun _ h => h, fun _ h => or_of_some _ h, fun _ h => or_of_some _ h, fun _ h => h⟩

theorem setSigned_ordered (template : EventTemplate) (event : RawPublication) (hr : r.Ordered)
    (hcomplete : r.completeServer ≠ none) : (setSigned template event r).Ordered where
  committed_of_admitted := hr.committed_of_admitted
  acknowledged_of_committed := hr.acknowledged_of_committed
  signed_of_acknowledged := fun _ => or_some_ne_none _ _
  complete_of_signed := fun _ => hcomplete
  complete_listed := hr.complete_listed

theorem setAcknowledged_extends (relay : String) : r.Extends (setAcknowledged relay r) :=
  ⟨fun _ h => h, fun _ h => h, fun _ h => h, fun _ h => or_of_some _ h⟩

theorem setAcknowledged_ordered (relay : String) (hr : r.Ordered) (hsigned : r.signedEvent ≠ none) :
    (setAcknowledged relay r).Ordered where
  committed_of_admitted := hr.committed_of_admitted
  acknowledged_of_committed := fun _ => or_some_ne_none _ _
  signed_of_acknowledged := fun _ => hsigned
  complete_of_signed := hr.complete_of_signed
  complete_listed := hr.complete_listed

theorem freshSaga_ordered (candidate : PendingCandidate) (destinations : List String) :
    (freshSaga candidate destinations).Ordered := by
  constructor <;> simp [freshSaga]

theorem refreshedSaga_ordered (hr : r.Ordered) (n : ℕ) :
    (refreshedSaga (readSaga r) n).Ordered where
  committed_of_admitted := by simp [refreshedSaga, freshSaga]
  acknowledged_of_committed := by simp [refreshedSaga, freshSaga]
  signed_of_acknowledged := by simp [refreshedSaga, freshSaga]
  complete_of_signed := by simp [refreshedSaga, freshSaga]
  complete_listed := fun server h => hr.complete_listed server (truthy_eq_some h)

end Columns

section Invariant

/-- Whatever the inventory of a batch holds, the server has not proven all of it. -/
def Unproven (s : WriteRepository) (n : ℕ) (server : String) : Prop :=
  s.inventoryHashes n ≠ [] →
    ∃ hash ∈ s.inventoryHashes n, hash ∉ s.provenHashes n server

/-- The invariant of the saga tables.  A server outside the destinations of a saga never gets all
blobs proven, because a candidate brings at least one blob and only destinations bring proofs. -/
structure SagaInvariant (s : WriteRepository) : Prop where
  single : s.Single
  ordered : ∀ r ∈ s.records, r.Ordered
  older : ∀ a ∈ s.sagas.rows, ∀ h ∈ s.history.rows, h.saga.Before a
  started : s.sagas.rows = [] → s.history.rows = []
  pendingListed : ∀ c, s.pendingCandidate = some c → ∃ b ∈ s.pendingBlobs.rows, b.batchId = c.batchId
  proofsListed : s.ProofsListed
  blobsKnown : ∀ b ∈ s.sagaBlobs.rows, ∃ r ∈ s.records, r.batchId = b.batchId
  foreign : ∀ n r, s.SpeaksFor n r → ∀ server ∉ r.destinations, s.Unproven n server

structure Follows (s t : WriteRepository) : Prop where
  forward : ∀ a ∈ s.sagas.rows, ∃ b ∈ t.sagas.rows, a.Same b ∨ a.Before b
  kept : ∀ r ∈ s.records, ∃ r' ∈ t.records, r'.batchId = r.batchId
  grown : ∀ r' ∈ t.records, (∃ r ∈ s.records, r.Same r' ∧ r.Extends r') ∨
    ∀ a ∈ s.sagas.rows, a.Before r'

/-- A server is complete for a root because some saga with that root says so, or by the count. -/
def Sourced (s : WriteRepository) (rootHex server : String) : Prop :=
  (∃ r ∈ s.records, r.candidate.rootHex = rootHex ∧ r.completeServer = some server) ∨
    ∃ n r, s.SpeaksFor n r ∧ r.candidate.rootHex = rootHex ∧ s.serverComplete n server = true

/-- A batch with an inventory has it, with the proofs, from a batch of a saga with the same root. -/
def Inherits (s t : WriteRepository) : Prop :=
  ∀ n r', t.SpeaksFor n r' → t.inventoryHashes n ≠ [] → ∃ m r, s.SpeaksFor m r ∧
    r'.candidate.rootHex = r.candidate.rootHex ∧ r'.destinations = r.destinations ∧
    (∀ hash, hash ∈ t.inventoryHashes n ↔ hash ∈ s.inventoryHashes m) ∧
    ∀ server hash, hash ∈ t.provenHashes n server ↔ hash ∈ s.provenHashes m server

structure Evolves (s t : WriteRepository) : Prop where
  invariant : SagaInvariant t
  follows : Follows s t

structure Steady (s t : WriteRepository) : Prop extends Evolves s t where
  inherits : Inherits s t
  sourced : ∀ r ∈ t.records, ∀ server, r.completeServer = some server →
    s.Sourced r.candidate.rootHex server

variable {s t u : WriteRepository} {n : ℕ}

theorem Follows.of_records (hsagas : t.sagas = s.sagas) (hhistory : t.history = s.history) :
    Follows s t := by
  have hrecords : t.records = s.records := by simp [records, hsagas, hhistory]
  refine ⟨fun a ha => ⟨a, hsagas ▸ ha, Or.inl (.refl a)⟩, fun r hr => ⟨r, hrecords ▸ hr, rfl⟩, ?_⟩
  exact fun r hr => Or.inl ⟨r, hrecords ▸ hr, .refl r, .refl r⟩

theorem Follows.refl (s : WriteRepository) : Follows s s :=
  .of_records rfl rfl

theorem Follows.trans (h : Follows s t) (h' : Follows t u) : Follows s u where
  forward a ha := by
    obtain ⟨b, hb, hab⟩ := h.forward a ha
    obtain ⟨c, hc, hbc⟩ := h'.forward b hb
    refine ⟨c, hc, ?_⟩
    unfold SagaRow.Same SagaRow.Before at *
    omega
  kept r hr := by
    obtain ⟨r', hr', hid⟩ := h.kept r hr
    obtain ⟨r'', hr'', hid'⟩ := h'.kept r' hr'
    exact ⟨r'', hr'', hid'.trans hid⟩
  grown r'' hr'' := by
    rcases h'.grown r'' hr'' with ⟨r', hr', hsame', hext'⟩ | hnew
    · rcases h.grown r' hr' with ⟨r, hr, hsame, hext⟩ | hnew
      · exact Or.inl ⟨r, hr, ⟨hsame.1.trans hsame'.1, hsame.2.trans hsame'.2⟩, hext.trans hext'⟩
      · refine Or.inr fun a ha => ?_
        have := hnew a ha
        unfold SagaRow.Same SagaRow.Before at *
        omega
    · refine Or.inr fun a ha => ?_
      obtain ⟨b, hb, hab⟩ := h.forward a ha
      have := hnew b hb
      unfold SagaRow.Same SagaRow.Before at *
      omega

theorem Unproven.congr {m n : ℕ} {server : String} (h : s.Unproven n server)
    (hinventory : ∀ hash, hash ∈ t.inventoryHashes m ↔ hash ∈ s.inventoryHashes n)
    (hproven : ∀ hash, hash ∈ t.provenHashes m server ↔ hash ∈ s.provenHashes n server) :
    t.Unproven m server := by
  intro hne
  obtain ⟨hash, hhash⟩ := List.exists_mem_of_ne_nil _ hne
  obtain ⟨hash, hmem, hnot⟩ := h (List.ne_nil_of_mem ((hinventory hash).mp hhash))
  exact ⟨hash, (hinventory hash).mpr hmem, fun hp => hnot ((hproven hash).mp hp)⟩

theorem SpeaksFor.unique {n : ℕ} {r r' : SagaRow} (hs : s.Single) (h : s.SpeaksFor n r)
    (h' : s.SpeaksFor n r') : r = r' := by
  cases h with
  | active _ ha hn =>
    cases h' with
    | active _ hb hn' =>
      rw [hs.rows ha, List.mem_singleton] at hb
      exact hb.symm
    | archived h hh hn' hactive => exact absurd hn (hactive r ha)
  | archived h hh hn hactive =>
    cases h' with
    | active _ hb hn' => exact absurd hn' (hactive r' hb)
    | archived h' hh' hn' hactive' => rw [Table.eq_of_key hh hh' (hn.trans hn'.symm)]

theorem SpeaksFor.of_rows {r : SagaRow} (hsagas : t.sagas = s.sagas) (hhistory : t.history = s.history)
    (h : t.SpeaksFor n r) : s.SpeaksFor n r := by
  cases h with
  | active _ ha hn => exact .active r (hsagas ▸ ha) hn
  | archived h hh hn hactive => exact .archived h (hhistory ▸ hh) hn (hsagas ▸ hactive)

theorem SpeaksFor.mem_records {r : SagaRow} (h : s.SpeaksFor n r) : r ∈ s.records := by
  cases h with
  | active _ ha hn => exact WriteRepository.mem_records.mpr (Or.inl ha)
  | archived h hh hn hactive => exact WriteRepository.mem_records.mpr (Or.inr ⟨h, hh, rfl⟩)

theorem Sourced.of_record {r : SagaRow} {server : String} (hr : r ∈ s.records)
    (h : r.completeServer = some server) : s.Sourced r.candidate.rootHex server :=
  Or.inl ⟨r, hr, rfl, h⟩

theorem Inherits.foreign (h : Inherits s t) (hI : SagaInvariant s) (r : SagaRow)
    (hr : t.SpeaksFor n r) (server : String) (hserver : server ∉ r.destinations) :
    t.Unproven n server := by
  intro hne
  obtain ⟨m, q, hq, -, hdestinations, hinventory, hproven⟩ := h n r hr hne
  exact ((hI.foreign m q hq server (hdestinations ▸ hserver)).congr hinventory
    (hproven server)) hne

theorem SagaInvariant.server_listed {r : SagaRow} {server : String} (hI : SagaInvariant s)
    (hr : s.SpeaksFor n r) (hcomplete : s.serverComplete n server = true) :
    server ∈ r.destinations := by
  obtain ⟨hne, hproven⟩ := hI.proofsListed.serverComplete_iff.mp hcomplete
  by_contra hserver
  obtain ⟨hash, hmem, hnot⟩ := hI.foreign n r hr server hserver hne
  exact hnot ((hproven hash).mpr hmem)

section Tables

def sagaTables (s : WriteRepository) :=
  (s.sagas, s.history, s.sagaBlobs, s.proofs)

theorem sagaTables_of_ledger (h : t.ledger = s.ledger) : t.sagaTables = s.sagaTables := by
  simp only [ledger, Ledger.mk.injEq] at h
  simp [sagaTables, h]

theorem SagaInvariant.steady_of_tables (hI : SagaInvariant s) (h : t.sagaTables = s.sagaTables)
    (hpending : ∀ c, t.pendingCandidate = some c → ∃ b ∈ t.pendingBlobs.rows, b.batchId = c.batchId) :
    Steady s t := by
  simp only [sagaTables, Prod.mk.injEq] at h
  obtain ⟨hsagas, hhistory, hblobs, hproofs⟩ := h
  have hrecords : t.records = s.records := by simp [records, hsagas, hhistory]
  have hinherits : Inherits s t := fun n r hr _ => by
    refine ⟨n, r, hr.of_rows hsagas hhistory, rfl, rfl, fun hash => ?_, fun server hash => ?_⟩
    · simp only [mem_inventoryHashes, hblobs]
    · simp only [mem_provenHashes, hproofs]
  refine ⟨⟨⟨?_, ?_, ?_, ?_, hpending, ?_, ?_, fun n => hinherits.foreign hI⟩,
    .of_records hsagas hhistory⟩, hinherits, ?_⟩
  · exact (congrArg (fun table => table.rows.length ≤ 1) hsagas).mpr hI.single
  · exact hrecords ▸ hI.ordered
  · exact hsagas ▸ hhistory ▸ hI.older
  · exact hsagas ▸ hhistory ▸ hI.started
  · rw [ProofsListed, hproofs, hblobs]
    exact hI.proofsListed
  · exact hblobs ▸ hrecords ▸ hI.blobsKnown
  · exact fun r hr server hserver => .of_record (hrecords ▸ hr) hserver

theorem SagaInvariant.steady_of_ledger (hI : SagaInvariant s) (h : t.ledger = s.ledger) :
    Steady s t := by
  refine hI.steady_of_tables (sagaTables_of_ledger h) ?_
  simp only [ledger, Ledger.mk.injEq] at h
  simpa [h] using hI.pendingListed

end Tables

section Updates

/-- Rewriting the columns of sagas that they do not keep. -/
structure Fills (s : WriteRepository) (g : SagaRow → SagaRow) (rows : List SagaRow) : Prop where
  keeps : ∀ r : SagaRow, r.Keeps (g r)
  extends_ : ∀ r : SagaRow, r.Extends (g r)
  ordered : ∀ r ∈ rows, (g r).Ordered
  sourced : ∀ r ∈ rows, ∀ server, (g r).completeServer = some server →
    s.Sourced r.candidate.rootHex server

variable {g k : SagaRow → SagaRow} {rows : List SagaRow}

theorem SagaInvariant.fills_id (hI : SagaInvariant s) (hrows : ∀ r ∈ rows, r ∈ s.records) :
    Fills s id rows :=
  ⟨SagaRow.Keeps.refl, SagaRow.Extends.refl, fun r hr => hI.ordered r (hrows r hr),
    fun r hr _ h => .of_record (hrows r hr) h⟩

theorem SagaInvariant.fills_at (hI : SagaInvariant s) (hrows : ∀ r ∈ rows, r ∈ s.records)
    (p : SagaRow → Prop) [DecidablePred p] (hkeeps : ∀ r : SagaRow, r.Keeps (g r))
    (hextends : ∀ r, p r → r.Extends (g r)) (hordered : ∀ r ∈ rows, p r → (g r).Ordered)
    (hsourced : ∀ r ∈ rows, p r → ∀ server, (g r).completeServer = some server →
      s.Sourced r.candidate.rootHex server) :
    Fills s (fun r => if p r then g r else r) rows := by
  refine ⟨fun r => ?_, fun r => ?_, fun r hr => ?_, fun r hr => ?_⟩
  · split
    · exact hkeeps r
    · exact .refl r
  · split
    · next hp => exact hextends r hp
    · exact .refl r
  · split
    · next hp => exact hordered r hr hp
    · exact hI.ordered r (hrows r hr)
  · split
    · next hp => exact hsourced r hr hp
    · exact fun _ h => .of_record (hrows r hr) h

theorem SpeaksFor.of_mapped {r' : SagaRow} (hg : ∀ r : SagaRow, r.Keeps (g r))
    (hk : ∀ r : SagaRow, r.Keeps (k r)) (hsagas : t.sagas.rows = s.sagas.rows.map g)
    (hhistory : t.history.rows = s.history.rows.map fun h => { h with saga := k h.saga })
    (h : t.SpeaksFor n r') : ∃ r, s.SpeaksFor n r ∧ r.Keeps r' := by
  cases h with
  | active _ ha hn =>
    rw [hsagas] at ha
    obtain ⟨a, haRow, rfl⟩ := List.mem_map.mp ha
    exact ⟨a, .active a haRow ((hg a).batchId.symm.trans hn), hg a⟩
  | archived h hh hn hactive =>
    rw [hhistory] at hh
    obtain ⟨q, hq, rfl⟩ := List.mem_map.mp hh
    refine ⟨q.saga, .archived q hq ((hk q.saga).batchId.symm.trans hn) fun a ha hid => ?_, hk q.saga⟩
    exact hactive (g a) (hsagas ▸ List.mem_map_of_mem ha) ((hg a).batchId.trans hid)

theorem mem_records_mapped {r : SagaRow} (hsagas : t.sagas.rows = s.sagas.rows.map g)
    (hhistory : t.history.rows = s.history.rows.map fun h => { h with saga := k h.saga }) :
    r ∈ t.records ↔ (∃ a ∈ s.sagas.rows, g a = r) ∨ ∃ h ∈ s.history.rows, k h.saga = r := by
  simp [mem_records, hsagas, hhistory]

theorem Follows.mapped (hg : Fills s g s.sagas.rows) (hk : Fills s k (s.history.rows.map HistoryRow.saga))
    (hsagas : t.sagas.rows = s.sagas.rows.map g)
    (hhistory : t.history.rows = s.history.rows.map fun h => { h with saga := k h.saga }) :
    Follows s t where
  forward a ha := ⟨g a, hsagas ▸ List.mem_map_of_mem ha, Or.inl (hg.keeps a).same⟩
  kept r hr := by
    rcases mem_records.mp hr with hr | ⟨h, hh, rfl⟩
    · exact ⟨g r, (mem_records_mapped hsagas hhistory).mpr (Or.inl ⟨r, hr, rfl⟩), (hg.keeps r).batchId⟩
    · exact ⟨k h.saga, (mem_records_mapped hsagas hhistory).mpr (Or.inr ⟨h, hh, rfl⟩),
        (hk.keeps h.saga).batchId⟩
  grown r hr := by
    rcases (mem_records_mapped hsagas hhistory).mp hr with ⟨a, ha, rfl⟩ | ⟨h, hh, rfl⟩
    · exact Or.inl ⟨a, mem_records.mpr (Or.inl ha), (hg.keeps a).same, hg.extends_ a⟩
    · exact Or.inl ⟨h.saga, mem_records.mpr (Or.inr ⟨h, hh, rfl⟩), (hk.keeps _).same, hk.extends_ _⟩

theorem SagaInvariant.steady_mapped (hI : SagaInvariant s) (hg : Fills s g s.sagas.rows)
    (hk : Fills s k (s.history.rows.map HistoryRow.saga))
    (hsagas : t.sagas.rows = s.sagas.rows.map g)
    (hhistory : t.history.rows = s.history.rows.map fun h => { h with saga := k h.saga })
    (hcandidate : t.pendingCandidate = s.pendingCandidate) (hpending : t.pendingBlobs = s.pendingBlobs)
    (hblobs : t.sagaBlobs = s.sagaBlobs) (hproofs : t.proofs = s.proofs) : Steady s t := by
  have hmem {r : SagaRow} := mem_records_mapped (r := r) hsagas hhistory
  have hinherits : Inherits s t := fun n r' hr' _ => by
    obtain ⟨r, hr, hkeeps⟩ := hr'.of_mapped hg.keeps hk.keeps hsagas hhistory
    refine ⟨n, r, hr, by rw [hkeeps.candidate], hkeeps.destinations, fun hash => ?_,
      fun server hash => ?_⟩
    · simp only [mem_inventoryHashes, hblobs]
    · simp only [mem_provenHashes, hproofs]
  refine ⟨⟨⟨?_, fun r hr => ?_, fun a ha h hh => ?_, fun h => ?_, ?_, ?_, fun b hb => ?_,
    fun n => hinherits.foreign hI⟩, .mapped hg hk hsagas hhistory⟩, hinherits, fun r hr server h => ?_⟩
  · simpa [Single, hsagas] using hI.single
  · rcases hmem.mp hr with ⟨a, ha, rfl⟩ | ⟨h, hh, rfl⟩
    · exact hg.ordered a ha
    · exact hk.ordered _ (List.mem_map_of_mem hh)
  · rw [hsagas] at ha
    rw [hhistory] at hh
    obtain ⟨b, hb, rfl⟩ := List.mem_map.mp ha
    obtain ⟨q, hq, rfl⟩ := List.mem_map.mp hh
    simpa [SagaRow.Before, (hg.keeps b).candidate, (hg.keeps b).batchId, (hk.keeps q.saga).candidate,
      (hk.keeps q.saga).batchId] using hI.older b hb q hq
  · have hempty := hI.started (by simpa [hsagas] using h)
    simp [hhistory, hempty]
  · rw [hcandidate, hpending]
    exact hI.pendingListed
  · rw [ProofsListed, hproofs, hblobs]
    exact hI.proofsListed
  · obtain ⟨r, hr, hid⟩ := hI.blobsKnown b (hblobs ▸ hb)
    obtain ⟨r', hr', hid'⟩ := (Follows.mapped hg hk hsagas hhistory).kept r hr
    exact ⟨r', hr', hid'.trans hid⟩
  · rcases hmem.mp hr with ⟨a, ha, rfl⟩ | ⟨q, hq, rfl⟩
    · rw [(hg.keeps a).candidate]
      exact hg.sourced a ha server h
    · rw [(hk.keeps q.saga).candidate]
      exact hk.sourced _ (List.mem_map_of_mem hq) server h

theorem sagas_recorded : ∀ r ∈ s.sagas.rows, r ∈ s.records :=
  fun _ hr => mem_records.mpr (Or.inl hr)

theorem history_recorded : ∀ r ∈ s.history.rows.map HistoryRow.saga, r ∈ s.records := by
  intro r hr
  obtain ⟨h, hh, rfl⟩ := List.mem_map.mp hr
  exact mem_records.mpr (Or.inr ⟨h, hh, rfl⟩)

theorem history_map_id (s : WriteRepository) :
    s.history.rows = s.history.rows.map fun h => { h with saga := id h.saga } := by
  simp

theorem SagaInvariant.updateSaga_steady (hI : SagaInvariant s)
    (hg : ∀ r : SagaRow, r.Keeps (g r)) (hextends : ∀ r : SagaRow, r.Extends (g r))
    (hordered : ∀ a ∈ s.sagas.rows, (g a).Ordered)
    (hsourced : ∀ a ∈ s.sagas.rows, ∀ server, (g a).completeServer = some server →
      s.Sourced a.candidate.rootHex server) :
    Steady s (s.updateSaga n g fun r => (hg r).batchId) :=
  hI.steady_mapped
    (hI.fills_at sagas_recorded (fun r => r.batchId = n) hg (fun r _ => hextends r)
      (fun a ha _ => hordered a ha) fun a ha _ => hsourced a ha)
    (hI.fills_id history_recorded) rfl (history_map_id s) rfl rfl rfl rfl

theorem SagaInvariant.adopt_steady {current prior : SagaRow} {server : String}
    (hI : SagaInvariant s) (hcurrent : s.publicationSaga = some current)
    (hprior : s.priorComplete current = some prior) (hserver : prior.completeServer = some server) :
    Steady s (adoptServer server current.batchId s) := by
  obtain ⟨a, hrows, rfl⟩ := hI.single.publicationSaga hcurrent
  have hfound := List.find?_some hprior
  simp only [hserver, Option.any_some, decide_eq_true_eq, Bool.decide_and,
    Bool.and_eq_true] at hfound
  obtain ⟨-, -, hroot, hlisted⟩ := hfound
  obtain ⟨h, hh, rfl⟩ := mem_publicationHistory
    (List.mem_reverse.mp (List.mem_of_find?_eq_some hprior))
  have hordered : ∀ r ∈ s.sagas.rows, r.Ordered := fun r hr => hI.ordered r (sagas_recorded r hr)
  have hsource : s.Sourced a.candidate.rootHex server :=
    Or.inl ⟨h.saga, mem_records.mpr (Or.inr ⟨h, hh, rfl⟩), hroot, truthy_eq_some hserver⟩
  refine hI.steady_mapped
    (hI.fills_at (g := fun r => { r with completeServer := some server }) sagas_recorded
      (fun r => r.batchId = a.batchId ∧ r.completeServer = none ∧ r.signedEvent = none)
      (fun _ => ⟨rfl, rfl, rfl⟩)
      (fun r hp => ⟨by simp [hp.2.1], fun _ h => h, fun _ h => h, fun _ h => h⟩)
      (fun r hr hp => ?_) fun r hr hp v hv => ?_)
    (hI.fills_id history_recorded) rfl (history_map_id s) rfl rfl rfl rfl
  · obtain rfl : r = a := by simpa [hrows] using hr
    have ha := hordered r hr
    exact ⟨ha.committed_of_admitted, ha.acknowledged_of_committed, ha.signed_of_acknowledged,
      fun _ => by simp, fun v hv => Option.some.inj hv ▸ hlisted⟩
  · obtain rfl : r = a := by simpa [hrows] using hr
    exact Option.some.inj hv ▸ hsource

theorem setCompleteServer_sourced {r : SagaRow} {server v : String} (hr : s.SpeaksFor n r)
    (hcomplete : s.serverComplete n server = true)
    (h : (setCompleteServer server r).completeServer = some v) :
    s.Sourced r.candidate.rootHex v := by
  rcases Option.or_eq_some_iff.mp h with h | ⟨-, h⟩
  · exact .of_record hr.mem_records h
  · exact Or.inr ⟨n, r, hr, rfl, Option.some.inj h ▸ hcomplete⟩

theorem SagaInvariant.completeArchived_steady {server : String} (hI : SagaInvariant s)
    (hactive : ∀ saga, s.publicationSaga = some saga → saga.batchId ≠ n)
    (hcomplete : s.serverComplete n server = true) : Steady s (s.completeArchived n server) := by
  have hspeaks : ∀ r ∈ s.history.rows.map HistoryRow.saga, r.batchId = n → s.SpeaksFor n r := by
    intro r hr hid
    obtain ⟨h, hh, rfl⟩ := List.mem_map.mp hr
    refine .archived h hh hid fun a ha => ?_
    simpa using hactive _ (publicationSaga_of_rows (hI.single.rows ha))
  refine hI.steady_mapped (hI.fills_id sagas_recorded)
    (hI.fills_at (g := setCompleteServer server) history_recorded (fun r => r.batchId = n)
      (fun _ => ⟨rfl, rfl, rfl⟩) (fun _ _ => setCompleteServer_extends server) (fun r hr hid => ?_)
      fun r hr hid _ h => setCompleteServer_sourced (hspeaks r hr hid) hcomplete h)
    (by simp [completeArchived]) ?_ rfl rfl rfl rfl
  · exact setCompleteServer_ordered (hI.ordered r (history_recorded r hr))
      (hI.server_listed (hspeaks r hr hid) hcomplete)
  · refine List.map_congr_left fun h _ => ?_
    by_cases hid : h.saga.batchId = n <;> simp [HistoryRow.batchId, hid]

end Updates

section Rows

theorem SagaInvariant.prove_evolves {saga : SagaRow} {server hash : String}
    (hI : SagaInvariant s) (hsaga : s.publicationSagaByBatch n = some saga)
    (hserver : server ∈ saga.destinations) (hblob : s.sagaBlobs.has (n, hash) = true) :
    Evolves s { s with proofs := s.proofs.insertOrIgnore ⟨n, server, hash⟩ } := by
  obtain ⟨r, hr, rfl⟩ := hI.single.publicationSagaByBatch hsaga
  refine ⟨⟨hI.single, hI.ordered, hI.older, hI.started, hI.pendingListed, ?_, hI.blobsKnown, ?_⟩,
    .of_records rfl rfl⟩
  · intro p hp
    rcases Table.mem_insertOrIgnore.mp hp with hp | ⟨rfl, -⟩
    · exact hI.proofsListed p hp
    · exact hblob
  · intro m q hq v hv
    have hold : s.SpeaksFor m q := hq.of_rows (by rfl) (by rfl)
    refine (hI.foreign m q hold v hv).congr (fun _ => Iff.rfl) fun x => ?_
    rw [mem_provenHashes, mem_provenHashes, Table.mem_insertOrIgnore, or_iff_left]
    rintro ⟨hnew, -⟩
    simp only [ProofRow.mk.injEq] at hnew
    obtain ⟨rfl, rfl, -⟩ := hnew
    exact hv (hold.unique hI.single hr ▸ hserver)

theorem mem_pruned_inventory {hash : String} : hash ∈ s.pruneRows.inventoryHashes n ↔
    hash ∈ s.inventoryHashes n ∧ n ∉ s.releasable := by
  simp only [mem_inventoryHashes, pruneRows, Table.mem_filter, decide_eq_true_eq]
  constructor
  · rintro ⟨b, ⟨hb, hkeep⟩, rfl, rfl⟩
    exact ⟨⟨b, hb, rfl, rfl⟩, hkeep⟩
  · rintro ⟨⟨b, hb, rfl, rfl⟩, hkeep⟩
    exact ⟨b, ⟨hb, hkeep⟩, rfl, rfl⟩

theorem mem_pruned_proofs {server hash : String} :
    hash ∈ s.pruneRows.provenHashes n server ↔
      hash ∈ s.provenHashes n server ∧ n ∉ s.releasable := by
  simp [mem_provenHashes, pruneRows]

theorem SagaInvariant.prune_steady (hI : SagaInvariant s) : Steady s s.pruneRows := by
  have hinherits : Inherits s s.pruneRows := fun n r hr hne => by
    obtain ⟨x, hx⟩ := List.exists_mem_of_ne_nil _ hne
    have hkeep := (mem_pruned_inventory.mp hx).2
    refine ⟨n, r, hr.of_rows (by rfl) (by rfl), rfl, rfl, fun hash => ?_, fun server hash => ?_⟩
    · exact mem_pruned_inventory.trans (and_iff_left hkeep)
    · exact mem_pruned_proofs.trans (and_iff_left hkeep)
  refine ⟨⟨⟨hI.single, hI.ordered, hI.older, hI.started, hI.pendingListed, ?_, ?_,
    fun n => hinherits.foreign hI⟩, .of_records rfl rfl⟩, hinherits,
    fun r hr server h => .of_record hr h⟩
  · intro p hp
    obtain ⟨hp, hkeep⟩ := Table.mem_filter.mp hp
    exact has_sagaBlobs.mpr (mem_pruned_inventory.mpr
      ⟨has_sagaBlobs.mp (hI.proofsListed p hp), by simpa using hkeep⟩)
  · exact fun b hb => hI.blobsKnown b (Table.mem_filter.mp hb).1

end Rows

theorem Single.cases (hs : s.Single) : s.sagas.rows = [] ∨ ∃ a, s.sagas.rows = [a] := by
  cases hrows : s.sagas.rows with
  | nil => exact Or.inl rfl
  | cons a rest =>
    rw [← hrows]
    exact Or.inr ⟨a, hs.rows (by simp [hrows])⟩

section Claim

variable {candidate : PendingCandidate} {destinations : List String} {now : ℕ}

theorem Claimed.mem_history (hc : Claimed s t candidate destinations now) (hs : s.Single)
    {h : HistoryRow} : h ∈ t.history.rows ↔
      (h ∈ s.history.rows ∧ ∀ a ∈ s.sagas.rows, a.batchId ≠ h.batchId) ∨
        ∃ a ∈ s.sagas.rows, h = ⟨a, now⟩ := by
  rw [hc.history]
  rcases hs.cases with hrows | ⟨a, hrows⟩
  · simp [hrows]
  · simp [hrows, Table.mem_insertOrReplace, HistoryRow.batchId, ne_comm]

theorem Claimed.mem_inventory (hc : Claimed s t candidate destinations now) {n : ℕ}
    {hash : String} (hn : n ≠ candidate.batchId) :
    hash ∈ t.inventoryHashes n ↔ hash ∈ s.inventoryHashes n := by
  simp only [mem_inventoryHashes, Table.insertAll?_rows hc.sagaBlobs, List.mem_append,
    List.mem_filter, decide_eq_true_eq]
  constructor
  · rintro ⟨b, hb | ⟨-, hid⟩, hbn, hbh⟩
    · exact ⟨b, hb, hbn, hbh⟩
    · exact absurd (hbn.symm.trans hid) hn
  · rintro ⟨b, hb, h⟩
    exact ⟨b, Or.inl hb, h⟩

theorem Claimed.mem_proven (hc : Claimed s t candidate destinations now) {server hash : String} :
    hash ∈ t.provenHashes n server ↔ hash ∈ s.provenHashes n server := by
  rw [mem_provenHashes, mem_provenHashes, hc.proofs]

theorem Claimed.fresh_inventory (hc : Claimed s t candidate destinations now)
    (hproofs : s.ProofsListed) {b : InventoryRow} (hb : b ∈ s.pendingBlobs.rows)
    (hid : b.batchId = candidate.batchId) : b.hash ∈ t.inventoryHashes candidate.batchId ∧
      ∀ server, b.hash ∉ t.provenHashes candidate.batchId server := by
  have hfresh := (Table.insertAll?_isSome.mp (by rw [hc.sagaBlobs]; rfl)).2
  have hb' : b ∈ s.pendingBlobs.rows.filter fun r => r.batchId = candidate.batchId := by
    simp [hb, hid]
  refine ⟨mem_inventoryHashes.mpr ⟨b, ?_, hid, rfl⟩, fun server hproof => ?_⟩
  · rw [Table.insertAll?_rows hc.sagaBlobs]
    exact List.mem_append_right _ hb'
  · rw [hc.mem_proven, mem_provenHashes] at hproof
    obtain ⟨q, hq, hkey⟩ := Table.has_iff.mp (hproofs _ hproof)
    exact hfresh b hb' q hq (hkey.trans (by simp [InventoryRow.key, hid]))

theorem Claimed.speaksFor_cases (hc : Claimed s t candidate destinations now) (hs : s.Single)
    {r : SagaRow} (h : t.SpeaksFor n r) :
    (n = candidate.batchId ∧ r = freshSaga candidate destinations) ∨
      n ≠ candidate.batchId ∧ s.SpeaksFor n r := by
  cases h with
  | active _ ha hn =>
    obtain rfl : r = _ := by simpa [hc.sagas] using ha
    exact Or.inl ⟨hn.symm, rfl⟩
  | archived h hh hn hactive =>
    refine Or.inr ⟨fun h => hactive _ (by simp [hc.sagas]; rfl) h.symm, ?_⟩
    rcases (hc.mem_history hs).mp hh with ⟨hh, hids⟩ | ⟨a, ha, rfl⟩
    · exact .archived h hh hn fun a ha => hn ▸ hids a ha
    · exact .active a ha hn

theorem Claimed.mem_records (hc : Claimed s t candidate destinations now) (hs : s.Single)
    {r : SagaRow} (hr : r ∈ t.records) :
    r = freshSaga candidate destinations ∨ r ∈ s.records := by
  rcases WriteRepository.mem_records.mp hr with hr | ⟨h, hh, rfl⟩
  · exact Or.inl (by simpa [hc.sagas] using hr)
  · rcases (hc.mem_history hs).mp hh with ⟨hh, -⟩ | ⟨a, ha, rfl⟩
    · exact Or.inr (WriteRepository.mem_records.mpr (Or.inr ⟨h, hh, rfl⟩))
    · exact Or.inr (WriteRepository.mem_records.mpr (Or.inl ha))

theorem Claimed.kept (hc : Claimed s t candidate destinations now) (hs : s.Single) :
    ∀ r ∈ s.records, ∃ r' ∈ t.records, r'.batchId = r.batchId := by
  intro r hr
  by_cases hid : ∃ a ∈ s.sagas.rows, a.batchId = r.batchId
  · obtain ⟨a, ha, hid⟩ := hid
    exact ⟨a, WriteRepository.mem_records.mpr
      (Or.inr ⟨_, (hc.mem_history hs).mpr (Or.inr ⟨a, ha, rfl⟩), rfl⟩), hid⟩
  · rcases WriteRepository.mem_records.mp hr with hr | ⟨h, hh, rfl⟩
    · exact absurd ⟨r, hr, rfl⟩ hid
    · push Not at hid
      exact ⟨h.saga, WriteRepository.mem_records.mpr
        (Or.inr ⟨h, (hc.mem_history hs).mpr (Or.inl ⟨hh, hid⟩), rfl⟩), rfl⟩

theorem SagaInvariant.generation_lt (hI : SagaInvariant s) {generation : ℕ}
    (hnewer : ∀ a ∈ s.sagas.rows, a.candidate.generation < generation) :
    ∀ r ∈ s.records, r.candidate.generation < generation := by
  intro r hr
  rcases mem_records.mp hr with hr | ⟨h, hh, rfl⟩
  · exact hnewer r hr
  · rcases hI.single.cases with hrows | ⟨a, hrows⟩
    · simp [hI.started hrows] at hh
    · have ha : a ∈ s.sagas.rows := by simp [hrows]
      have hbefore := hI.older a ha h hh
      have hlt := hnewer a ha
      unfold SagaRow.Before at hbefore
      omega

theorem SagaInvariant.claim_follows (hI : SagaInvariant s)
    (hc : Claimed s t candidate destinations now)
    (hnewer : ∀ a ∈ s.sagas.rows, a.candidate.generation < candidate.generation) : Follows s t where
  forward a ha :=
    ⟨_, by rw [hc.sagas]; exact List.mem_singleton.mpr rfl, Or.inr (Or.inl (hnewer a ha))⟩
  kept := hc.kept hI.single
  grown r hr := by
    rcases hc.mem_records hI.single hr with rfl | hr
    · exact Or.inr fun a ha => Or.inl (hnewer a ha)
    · exact Or.inl ⟨r, hr, .refl r, .refl r⟩

theorem SagaInvariant.claim_evolves (hI : SagaInvariant s)
    (hc : Claimed s t candidate destinations now) (hpending : s.pendingCandidate = some candidate)
    (hnewer : ∀ a ∈ s.sagas.rows, a.candidate.generation < candidate.generation) : Evolves s t := by
  refine ⟨⟨by simp [Single, hc.sagas], fun r hr => ?_, fun a ha h hh => ?_, by simp [hc.sagas],
    by simp [hc.pendingCandidate], fun p hp => ?_, fun b hb => ?_, fun n r hr server hserver => ?_⟩,
    hI.claim_follows hc hnewer⟩
  · rcases hc.mem_records hI.single hr with rfl | hr
    · exact freshSaga_ordered _ _
    · exact hI.ordered r hr
  · obtain rfl : a = _ := by simpa [hc.sagas] using ha
    refine Or.inl (hI.generation_lt hnewer h.saga ?_)
    rcases (hc.mem_history hI.single).mp hh with ⟨hh, -⟩ | ⟨a, ha, rfl⟩
    · exact mem_records.mpr (Or.inr ⟨h, hh, rfl⟩)
    · exact mem_records.mpr (Or.inl ha)
  · rw [hc.proofs] at hp
    obtain ⟨b, hb, hkey⟩ := Table.has_iff.mp (hI.proofsListed p hp)
    exact Table.has_iff.mpr ⟨b, by simp [Table.insertAll?_rows hc.sagaBlobs, hb], hkey⟩
  · rw [Table.insertAll?_rows hc.sagaBlobs, List.mem_append, List.mem_filter] at hb
    rcases hb with hb | ⟨-, hid⟩
    · obtain ⟨r, hr, hid⟩ := hI.blobsKnown b hb
      obtain ⟨r', hr', hid'⟩ := hc.kept hI.single r hr
      exact ⟨r', hr', hid'.trans hid⟩
    · exact ⟨freshSaga candidate destinations, mem_records.mpr (by simp [hc.sagas]),
        (of_decide_eq_true hid).symm⟩
  · rcases hc.speaksFor_cases hI.single hr with ⟨rfl, rfl⟩ | ⟨hn, hr⟩
    · obtain ⟨b, hb, hid⟩ := hI.pendingListed _ hpending
      obtain ⟨hmem, hunproven⟩ := hc.fresh_inventory hI.proofsListed hb hid
      exact fun _ => ⟨b.hash, hmem, hunproven server⟩
    · exact (hI.foreign n r hr server hserver).congr (fun _ => hc.mem_inventory hn)
        fun _ => hc.mem_proven

end Claim

section Refresh

variable {a : SagaRow} {now : ℕ}

theorem Refreshed.mem_history (hc : Refreshed s t a now) {h : HistoryRow} :
    h ∈ t.history.rows ↔ h ∈ s.history.rows ∨
      h = ⟨a, now⟩ ∧ ∀ q ∈ s.history.rows, q.batchId ≠ a.batchId := by
  rw [hc.history, Table.mem_insertOrIgnore]
  rfl

theorem SagaInvariant.next_unused (hI : SagaInvariant s) :
    (∀ b ∈ s.sagaBlobs.rows, b.batchId ≠ s.maxSagaId + 1) ∧
      ∀ p ∈ s.proofs.rows, p.batchId ≠ s.maxSagaId + 1 := by
  have hblobs : ∀ b ∈ s.sagaBlobs.rows, b.batchId ≠ s.maxSagaId + 1 := by
    intro b hb
    obtain ⟨r, hr, hid⟩ := hI.blobsKnown b hb
    have := le_maxSagaId hr
    omega
  refine ⟨hblobs, fun p hp h => ?_⟩
  obtain ⟨b, hb, hkey⟩ := Table.has_iff.mp (hI.proofsListed p hp)
  simp only [InventoryRow.key, Prod.mk.injEq] at hkey
  exact hblobs b hb (hkey.1.trans h)

theorem Refreshed.mem_inventory (hc : Refreshed s t a now) (hI : SagaInvariant s)
    (ha : a.batchId ≤ s.maxSagaId) {hash : String} :
    hash ∈ t.inventoryHashes n ↔
      (n = s.maxSagaId + 1 ∧ hash ∈ s.inventoryHashes a.batchId) ∨
        n ≠ a.batchId ∧ n ≠ s.maxSagaId + 1 ∧ hash ∈ s.inventoryHashes n := by
  simp only [mem_inventoryHashes, hc.sagaBlobs, sagaBlobsOf, List.mem_filter, List.mem_append,
    List.mem_map, decide_eq_true_eq]
  constructor
  · rintro ⟨b, ⟨hb | ⟨c, ⟨hc, hid⟩, rfl⟩, hne⟩, rfl, rfl⟩
    · exact Or.inr ⟨hne, hI.next_unused.1 b hb, b, hb, rfl, rfl⟩
    · exact Or.inl ⟨rfl, c, hc, hid, rfl⟩
  · rintro (⟨rfl, b, hb, hid, rfl⟩ | ⟨hne, -, b, hb, rfl, rfl⟩)
    · refine ⟨b.under _, ⟨Or.inr ⟨b, ⟨hb, hid⟩, rfl⟩, ?_⟩, rfl, rfl⟩
      exact (Nat.lt_succ_of_le ha).ne'
    · exact ⟨b, ⟨Or.inl hb, hne⟩, rfl, rfl⟩

theorem Refreshed.mem_proven (hc : Refreshed s t a now) (hI : SagaInvariant s)
    (ha : a.batchId ≤ s.maxSagaId) {server hash : String} :
    hash ∈ t.provenHashes n server ↔
      (n = s.maxSagaId + 1 ∧ hash ∈ s.provenHashes a.batchId server) ∨
        n ≠ a.batchId ∧ n ≠ s.maxSagaId + 1 ∧ hash ∈ s.provenHashes n server := by
  simp only [mem_provenHashes, hc.proofs, List.mem_filter, List.mem_append, List.mem_map,
    decide_eq_true_eq]
  constructor
  · rintro ⟨hp | ⟨p, ⟨hp, hid⟩, heq⟩, hne⟩
    · exact Or.inr ⟨hne, hI.next_unused.2 _ hp, hp⟩
    · cases p
      simp only [ProofRow.under, ProofRow.mk.injEq] at heq hid
      obtain ⟨rfl, rfl, rfl⟩ := heq
      subst hid
      exact Or.inl ⟨rfl, hp⟩
  · rintro (⟨rfl, hp⟩ | ⟨hne, -, hp⟩)
    · exact ⟨Or.inr ⟨_, ⟨hp, rfl⟩, rfl⟩, (Nat.lt_succ_of_le ha).ne'⟩
    · exact ⟨Or.inl hp, hne⟩

theorem Refreshed.mem_records (hc : Refreshed s t a now) (ha : a ∈ s.records) {r : SagaRow}
    (hr : r ∈ t.records) : r = refreshedSaga (readSaga a) (s.maxSagaId + 1) ∨ r ∈ s.records := by
  rcases WriteRepository.mem_records.mp hr with hr | ⟨h, hh, rfl⟩
  · exact Or.inl (by simpa [hc.sagas] using hr)
  · rcases hc.mem_history.mp hh with hh | ⟨rfl, -⟩
    · exact Or.inr (WriteRepository.mem_records.mpr (Or.inr ⟨h, hh, rfl⟩))
    · exact Or.inr ha

theorem Refreshed.kept (hc : Refreshed s t a now) (hrows : s.sagas.rows = [a]) :
    ∀ r ∈ s.records, ∃ r' ∈ t.records, r'.batchId = r.batchId := by
  intro r hr
  rcases WriteRepository.mem_records.mp hr with hr | ⟨h, hh, rfl⟩
  · obtain rfl : r = a := by simpa [hrows] using hr
    by_cases hid : ∃ q ∈ s.history.rows, q.batchId = r.batchId
    · obtain ⟨q, hq, hid⟩ := hid
      exact ⟨q.saga, WriteRepository.mem_records.mpr
        (Or.inr ⟨q, hc.mem_history.mpr (Or.inl hq), rfl⟩), hid⟩
    · push Not at hid
      exact ⟨r, WriteRepository.mem_records.mpr
        (Or.inr ⟨_, hc.mem_history.mpr (Or.inr ⟨rfl, hid⟩), rfl⟩), rfl⟩
  · exact ⟨h.saga, WriteRepository.mem_records.mpr
      (Or.inr ⟨h, hc.mem_history.mpr (Or.inl hh), rfl⟩), rfl⟩

theorem SagaInvariant.before_refreshed (hI : SagaInvariant s) (hrows : s.sagas.rows = [a]) :
    ∀ r ∈ s.records, r.Before (refreshedSaga (readSaga a) (s.maxSagaId + 1)) := by
  intro r hr
  have hid := le_maxSagaId hr
  have hgeneration : r.candidate.generation ≤ a.candidate.generation := by
    rcases mem_records.mp hr with hr | ⟨h, hh, rfl⟩
    · obtain rfl : r = a := by simpa [hrows] using hr
      exact le_rfl
    · have hbefore := hI.older a (by simp [hrows]) h hh
      unfold SagaRow.Before at hbefore
      omega
  change r.candidate.generation < a.candidate.generation ∨
    r.candidate.generation = a.candidate.generation ∧ r.batchId < s.maxSagaId + 1
  omega

theorem SagaInvariant.refresh_follows (hI : SagaInvariant s) (hrows : s.sagas.rows = [a])
    (hc : Refreshed s t a now) : Follows s t := by
  have ha : a ∈ s.records := mem_records.mpr (Or.inl (by simp [hrows]))
  refine ⟨fun b hb => ?_, hc.kept hrows, fun r hr => ?_⟩
  · obtain rfl : b = a := by simpa [hrows] using hb
    exact ⟨_, by rw [hc.sagas]; exact List.mem_singleton.mpr rfl,
      Or.inr (hI.before_refreshed hrows b ha)⟩
  · rcases hc.mem_records ha hr with rfl | hr
    · exact Or.inr fun b hb => hI.before_refreshed hrows b (mem_records.mpr (Or.inl hb))
    · exact Or.inl ⟨r, hr, .refl r, .refl r⟩

theorem SagaInvariant.refresh_inherits (hI : SagaInvariant s) (hrows : s.sagas.rows = [a])
    (hc : Refreshed s t a now) : Inherits s t := by
  have haRow : a ∈ s.sagas.rows := by simp [hrows]
  have hle : a.batchId ≤ s.maxSagaId := le_maxSagaId (mem_records.mpr (Or.inl haRow))
  intro n r hr hne
  cases hr with
  | active _ hrRow hn =>
    obtain rfl : r = _ := by simpa [hc.sagas] using hrRow
    obtain rfl : s.maxSagaId + 1 = n := hn
    refine ⟨a.batchId, a, .active a haRow rfl, rfl, rfl, fun x => ?_, fun v x => ?_⟩
    · simp [hc.mem_inventory hI hle]
    · simp [hc.mem_proven hI hle]
  | archived h hh hn hactive =>
    have hnext : n ≠ s.maxSagaId + 1 := fun h => hactive _ (by simp [hc.sagas]; rfl) h.symm
    have hna : n ≠ a.batchId := by
      rintro rfl
      obtain ⟨x, hx⟩ := List.exists_mem_of_ne_nil _ hne
      simp [hc.mem_inventory hI hle, hnext] at hx
    refine ⟨n, h.saga, ?_, rfl, rfl, fun x => ?_, fun v x => ?_⟩
    · rcases hc.mem_history.mp hh with hh | ⟨rfl, -⟩
      · refine .archived h hh hn fun b hb => ?_
        obtain rfl : b = a := by simpa [hrows] using hb
        exact hna.symm
      · exact absurd hn.symm hna
    · simp [hc.mem_inventory hI hle, hna, hnext]
    · simp [hc.mem_proven hI hle, hna, hnext]

theorem SagaInvariant.refresh_steady (hI : SagaInvariant s) (hrows : s.sagas.rows = [a])
    (hc : Refreshed s t a now) : Steady s t := by
  have ha : a ∈ s.records := mem_records.mpr (Or.inl (by simp [hrows]))
  have hle : a.batchId ≤ s.maxSagaId := le_maxSagaId ha
  have hinherits := hI.refresh_inherits hrows hc
  refine ⟨⟨⟨by simp [Single, hc.sagas], fun r hr => ?_, fun b hb h hh => ?_, by simp [hc.sagas],
    by rw [hc.pendingCandidate, hc.pendingBlobs]; exact hI.pendingListed, fun p hp => ?_,
    fun b hb => ?_, fun n => hinherits.foreign hI⟩, hI.refresh_follows hrows hc⟩, hinherits,
    fun r hr server h => ?_⟩
  · rcases hc.mem_records ha hr with rfl | hr
    · exact refreshedSaga_ordered (hI.ordered a ha) _
    · exact hI.ordered r hr
  · obtain rfl : b = _ := by simpa [hc.sagas] using hb
    refine hI.before_refreshed hrows h.saga ?_
    rcases hc.mem_history.mp hh with hh | ⟨rfl, -⟩
    · exact mem_records.mpr (Or.inr ⟨h, hh, rfl⟩)
    · exact ha
  · obtain ⟨n, v, x⟩ := p
    refine has_sagaBlobs.mpr ((hc.mem_inventory hI hle).mpr ?_)
    refine ((hc.mem_proven hI hle).mp (mem_provenHashes.mpr hp)).imp ?_ ?_
    · exact fun ⟨hn, hx⟩ => ⟨hn, hI.proofsListed.subset hx⟩
    · exact fun ⟨hn, hn', hx⟩ => ⟨hn, hn', hI.proofsListed.subset hx⟩
  · rcases (hc.mem_inventory hI hle).mp (mem_inventoryHashes.mpr ⟨b, hb, rfl, rfl⟩) with
      ⟨hn, -⟩ | ⟨-, -, hx⟩
    · exact ⟨_, mem_records.mpr (Or.inl (by rw [hc.sagas]; exact List.mem_singleton.mpr rfl)), hn.symm⟩
    · obtain ⟨c, hcRow, hid, -⟩ := mem_inventoryHashes.mp hx
      obtain ⟨r, hr, hrid⟩ := hI.blobsKnown c hcRow
      obtain ⟨r', hr', hid'⟩ := hc.kept hrows r hr
      exact ⟨r', hr', hid'.trans (hrid.trans hid)⟩
  · rcases hc.mem_records ha hr with rfl | hr
    · exact Or.inl ⟨a, ha, rfl, truthy_eq_some h⟩
    · exact .of_record hr h

end Refresh

section Moves

variable {acceptable : RawPublication → Bool}

theorem SagaInvariant.record_steady {batch : FrozenBatch} {candidate : PendingCandidate}
    {inventory : List InventoryEntry} (hI : SagaInvariant s)
    (hc : Stored s t batch candidate inventory) (hne : inventory ≠ []) : Steady s t := by
  refine hI.steady_of_tables ?_ fun c h => ?_
  · simp [sagaTables, hc.sagas, hc.history, hc.sagaBlobs, hc.proofs]
  · obtain rfl : _ = c := by simpa [hc.pendingCandidate] using h
    obtain ⟨blob, hblob⟩ := List.exists_mem_of_ne_nil _ hne
    refine ⟨⟨batch.id, blob.hash, blob.size, blob.path⟩, ?_, rfl⟩
    rw [hc.pendingBlobs]
    exact List.mem_map_of_mem (f := fun blob : InventoryEntry =>
      (⟨batch.id, blob.hash, blob.size, blob.path⟩ : InventoryRow)) hblob

theorem SagaInvariant.batch_steady (hI : SagaInvariant s) (h : BatchMove s t) : Steady s t := by
  cases h with
  | same h => exact hI.steady_of_ledger h.1
  | dirty generation now baseRoot => exact hI.steady_of_tables rfl hI.pendingListed
  | claim h =>
    rcases claimBatch_ok h with ⟨-, rfl⟩ | ⟨_, _, _, -, -, -, -, -, -, rfl⟩
    · exact hI.steady_of_tables rfl hI.pendingListed
    · exact hI.steady_of_tables rfl hI.pendingListed
  | record h => exact hI.record_steady (storePending_stored h) (List.cons_ne_nil _ _)
  | fail id => exact hI.steady_of_tables rfl hI.pendingListed

theorem SagaInvariant.claimMove_evolves (hI : SagaInvariant s) (h : ClaimMove s t) :
    Evolves s t := by
  cases h with
  | adopt hcurrent hunset hprior hserver =>
    exact (hI.adopt_steady hcurrent hprior hserver).toEvolves
  | claim hpending hnewer h =>
    refine hI.claim_evolves (claimCandidate_claimed hI.single hnewer h) hpending fun a ha => ?_
    exact (hnewer _ (publicationSaga_of_rows (hI.single.rows ha))).1

theorem SagaInvariant.refreshMove_steady (hI : SagaInvariant s) (h : RefreshMove s t) :
    Steady s t := by
  obtain ⟨hsaga, h⟩ := h
  obtain ⟨a, hrows, rfl⟩ := hI.single.publicationSaga (Option.filter_eq_some_iff.mp hsaga).1
  exact hI.refresh_steady hrows (refreshSaga_refreshed hrows h)

theorem SagaInvariant.quiet_steady (hI : SagaInvariant s) (h : QuietMove acceptable s t) :
    Steady s t := by
  have hrow {saga : SagaRow} (hsaga : s.publicationSaga = some saga) :
      ∀ a ∈ s.sagas.rows, saga = readSaga a ∧ a.Ordered := by
    intro a ha
    obtain ⟨b, hrows, rfl⟩ := hI.single.publicationSaga hsaga
    obtain rfl : a = b := by simpa [hrows] using ha
    exact ⟨rfl, hI.ordered a (mem_records.mpr (Or.inl ha))⟩
  have hsource : ∀ a ∈ s.sagas.rows, ∀ server, a.completeServer = some server →
      s.Sourced a.candidate.rootHex server :=
    fun a ha _ h => .of_record (mem_records.mpr (Or.inl ha)) h
  cases h with
  | same h => exact hI.steady_of_ledger h.1
  | work endpointWork => exact hI.steady_of_tables rfl hI.pendingListed
  | refresh h => exact hI.refreshMove_steady h
  | completeActive hsaga hcomplete =>
    refine hI.updateSaga_steady (g := setCompleteServer _) (fun _ => ⟨rfl, rfl, rfl⟩)
      (fun _ => setCompleteServer_extends _) (fun a ha => ?_) fun a ha v hv => ?_
    · obtain ⟨rfl, hordered⟩ := hrow hsaga a ha
      exact setCompleteServer_ordered hordered (hI.server_listed (.active a ha rfl) hcomplete)
    · obtain ⟨rfl, -⟩ := hrow hsaga a ha
      exact setCompleteServer_sourced (.active a ha rfl) hcomplete hv
  | completeArchived hactive hcomplete => exact hI.completeArchived_steady hactive hcomplete
  | sign hsaga hcomplete hmatches haccepted =>
    refine hI.updateSaga_steady (g := setSigned _ _) (fun _ => ⟨rfl, rfl, rfl⟩)
      (fun _ => setSigned_extends _ _) (fun a ha => ?_) hsource
    obtain ⟨rfl, hordered⟩ := hrow hsaga a ha
    exact setSigned_ordered _ _ hordered (truthy_ne_none hcomplete)
  | acknowledge hsaga hsigned =>
    refine hI.updateSaga_steady (g := setAcknowledged _) (fun _ => ⟨rfl, rfl, rfl⟩)
      (fun _ => setAcknowledged_extends _) (fun a ha => ?_) hsource
    obtain ⟨rfl, hordered⟩ := hrow hsaga a ha
    exact setAcknowledged_ordered _ hordered hsigned
  | commit hsaga hacknowledged =>
    refine hI.updateSaga_steady (g := fun r => { r with committed := true })
      (fun _ => ⟨rfl, rfl, rfl⟩)
      (fun _ => ⟨fun _ h => h, fun _ h => h, fun _ h => h, fun _ h => h⟩) (fun a ha => ?_) hsource
    obtain ⟨rfl, hordered⟩ := hrow hsaga a ha
    exact ⟨fun _ => rfl, fun _ => truthy_ne_none hacknowledged, hordered.signed_of_acknowledged,
      hordered.complete_of_signed, hordered.complete_listed⟩
  | markAdmitted hsaga hcommitted =>
    refine hI.updateSaga_steady (g := fun r => { r with admitted := true })
      (fun _ => ⟨rfl, rfl, rfl⟩)
      (fun _ => ⟨fun _ h => h, fun _ h => h, fun _ h => h, fun _ h => h⟩) (fun a ha => ?_) hsource
    obtain ⟨rfl, hordered⟩ := hrow hsaga a ha
    exact ⟨fun _ => hcommitted, hordered.acknowledged_of_committed, hordered.signed_of_acknowledged,
      hordered.complete_of_signed, hordered.complete_listed⟩
  | prune => exact hI.prune_steady

theorem SagaInvariant.saga_evolves (hI : SagaInvariant s) (h : SagaMove acceptable s t) :
    Evolves s t := by
  cases h with
  | quiet h => exact (hI.quiet_steady h).toEvolves
  | claim h => exact hI.claimMove_evolves h
  | prove hsaga hserver hblob => exact hI.prove_evolves hsaga hserver hblob

theorem SagaInvariant.activate_steady (hI : SagaInvariant s) : Steady s s.activateRows :=
  hI.steady_of_tables rfl hI.pendingListed

theorem SagaInvariant.evolves_of_moves {R : WriteRepository → WriteRepository → Prop}
    (hR : ∀ s t, SagaInvariant s → R s t → Evolves s t) (hI : SagaInvariant s)
    (h : Relation.ReflTransGen R s t) : Evolves s t := by
  induction h with
  | refl => exact ⟨hI, .refl s⟩
  | tail _ hmove ih =>
    obtain ⟨hJ, hfollows⟩ := hR _ _ ih.invariant hmove
    exact ⟨hJ, ih.follows.trans hfollows⟩

theorem initial_invariant (capacity : ℕ) : SagaInvariant (initial capacity) := by
  refine ⟨by simp [Single, initial], by simp [records, initial], by simp [initial], by simp [initial],
    by simp [initial], by simp [ProofsListed, initial], by simp [initial], fun n r hr => ?_⟩
  cases hr with
  | active _ ha hn => simp [initial] at ha
  | archived h hh hn hactive => simp [initial] at hh

end Moves

end Invariant

end WriteRepository

end NixstrCache.Persistence

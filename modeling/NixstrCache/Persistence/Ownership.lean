import NixstrCache.Persistence.SagaStates

/-!
The owners of blobs over the runs of the repository.

An upload and a writer run own the blobs they bring, and hand them on to a route, to the pending
candidate and from there to a saga.  The owners of an upload or a run belong to the process that
started it.  What an operation of the store does to the owners is stated as a frame: outside the
owners it names and outside the routes, nothing changes.
-/

namespace NixstrCache.Persistence

open Durable KeyedTable Runs

def Owner.isHolder : Owner → Bool
  | .upload _ | .run _ => true
  | _ => false

theorem Owner.isRoute_of_holder {o : Owner} (h : o.isHolder = true) : o.isRoute = false := by
  cases o <;> simp_all [Owner.isHolder, Owner.isRoute]

namespace BlobStore

variable {Hash Content : Type} [LinearOrder Hash]

def BlobOp.named : BlobOp Hash Content → List Owner
  | .promote _ _ owner _ => owner.toList
  | .acquireOwner owner _ => [owner]
  | .transferOwner source target _ => [source, target]
  | .releaseOwner owner => [owner]
  | .releaseOwnerOf owner _ => [owner]
  | .commitRoute _ _ _ uploadOwner => [uploadOwner]
  | _ => []

def Routed (S : Set Owner) (C : Set (ComponentRow Hash)) : Prop :=
  ∀ route, Owner.route route ∈ S → ∃ c ∈ C, c.route = route

/-- Outside `own` and the routes, the owners are those of `s`. -/
def Framed (s : BlobStore Hash Content) (own : Owner → Prop) (x : Hash) (S : Set Owner)
    (C : Set (ComponentRow Hash)) : Prop :=
  (∀ o, o.isRoute = false → ¬own o → (o ∈ S ↔ o ∈ (s.view x).owners)) ∧ Routed S C

section Closure

variable {s : BlobStore Hash Content} {own : Owner → Prop} {o : Owner}

omit [LinearOrder Hash] in
theorem routed_removes (o : Owner) : Removes (fun _ : Hash => Routed) o := by
  intro x S C h route hroute
  exact h route hroute.1

omit [LinearOrder Hash] in
theorem routed_adds (ho : o.isRoute = false) : Adds (fun _ : Hash => Routed) o := by
  rintro x S C h route (rfl | hroute)
  · simp [Owner.isRoute] at ho
  · exact h route hroute

omit [LinearOrder Hash] in
theorem routed_routes : Routes (fun _ : Hash => Routed) := by
  rintro x S C c h route (hroute | hroute)
  · cases hroute
    exact ⟨c, Set.mem_insert _ _, rfl⟩
  · obtain ⟨d, hd, rfl⟩ := h route hroute
    exact ⟨d, Set.mem_insert_of_mem _ hd, rfl⟩

theorem framed_removes (ho : own o) : Removes (s.Framed own) o := by
  rintro x S C ⟨hframe, hrouted⟩
  refine ⟨fun p hp hown => ?_, routed_removes o x S C hrouted⟩
  have hne : p ≠ o := by
    rintro rfl
    exact hown ho
  rw [← hframe p hp hown]
  exact ⟨fun h => h.1, fun h => ⟨h, hne⟩⟩

theorem framed_adds (ho : own o) (hroute : o.isRoute = false) : Adds (s.Framed own) o := by
  rintro x S C ⟨hframe, hrouted⟩
  refine ⟨fun p hp hown => ?_, routed_adds hroute x S C hrouted⟩
  have hne : p ≠ o := by
    rintro rfl
    exact hown ho
  rw [← hframe p hp hown]
  exact ⟨fun h => h.resolve_left hne, fun h => Or.inr h⟩

theorem framed_routes : Routes (s.Framed own) := by
  rintro x S C c ⟨hframe, hrouted⟩
  refine ⟨fun p hp hown => ?_, routed_routes x S C c hrouted⟩
  rw [← hframe p hp hown]
  refine ⟨fun h => h.resolve_left ?_, fun h => Or.inr h⟩
  rintro rfl
  simp [Owner.isRoute] at hp

theorem named_respects {op : BlobOp Hash Content} (hop : ∀ o ∈ op.named, o.isHolder = true) :
    Respects (s.Framed (· ∈ op.named)) op := by
  have hroute : ∀ o ∈ op.named, o.isRoute = false := fun o ho =>
    Owner.isRoute_of_holder (hop o ho)
  cases op with
  | promote content origin owner token =>
    rintro o rfl
    exact framed_adds (List.mem_singleton_self o) (hroute o (List.mem_singleton_self o))
  | acquireOwner owner hash =>
    exact framed_adds (List.mem_singleton_self owner) (hroute _ (List.mem_singleton_self owner))
  | transferOwner source target hashes =>
    have htarget : target ∈ [source, target] := by simp
    exact ⟨framed_removes (List.mem_cons_self), framed_adds htarget (hroute _ htarget)⟩
  | releaseOwner owner => exact framed_removes (List.mem_singleton_self owner)
  | releaseOwnerOf owner hash => exact framed_removes (List.mem_singleton_self owner)
  | commitRoute route size components uploadOwner =>
    exact ⟨framed_removes (List.mem_singleton_self uploadOwner), framed_routes⟩
  | _ => trivial

end Closure

section Frames

variable {length : Content → ℕ} {s t u : BlobStore Hash Content} {own own' : Owner → Prop}

/-- The views are sound and every route that owns a blob has it as a component. -/
def Custodial (length : Content → ℕ) (s : BlobStore Hash Content) : Prop :=
  s.SoundUnder length fun _ => Routed

theorem Custodial.framed (h : s.Custodial length) (own : Owner → Prop) :
    s.SoundUnder length (s.Framed own) :=
  fun x => ⟨(h x).1, fun _ _ _ => Iff.rfl, (h x).2⟩

theorem SoundUnder.custodial (h : t.SoundUnder length (s.Framed own)) : t.Custodial length :=
  fun x => ⟨(h x).1, (h x).2.2⟩

theorem SoundUnder.owner_iff (h : t.SoundUnder length (s.Framed own)) {o : Owner} (x : Hash)
    (hroute : o.isRoute = false) (hown : ¬own o) :
    o ∈ (t.view x).owners ↔ o ∈ (s.view x).owners :=
  (h x).2.1 o hroute hown

theorem SoundUnder.frame_trans (h : t.SoundUnder length (s.Framed own))
    (h' : u.SoundUnder length (t.Framed own')) (hown : ∀ o, own' o → own o) :
    u.SoundUnder length (s.Framed own) := by
  intro x
  refine ⟨(h' x).1, fun o ho hout => ?_, (h' x).2.2⟩
  rw [h'.owner_iff x ho fun hin => hout (hown o hin), h.owner_iff x ho hout]

theorem custodial_empty (length : Content → ℕ) (capacity : ℕ) :
    (empty capacity : BlobStore Hash Content).Custodial length := by
  intro x
  refine ⟨sound_empty length capacity x, fun route hroute => ?_⟩
  simp [view, empty] at hroute

theorem delete_returns (fails : Hash → Option String) (now : ℕ) (h : Hash) :
    Returns (fun s => s.referenced h = false)
      (delete fails now h : StoreProgram Hash Content Unit) := by
  unfold delete
  refine Returns.bind (I := fun _ => True) (R := fun _ s => s.referenced h = false)
    (Returns.commit _) (Triple.commit (fun _ _ => trivial) fun _ hs => hs) fun _ => ?_
  refine Returns.bind (I := fun _ => True) (R := fun a s => s.referenced h = false ∧ a = s)
    Returns.read (Triple.read fun s hs => ⟨hs, rfl⟩) fun a => ?_
  rintro s ⟨hs, rfl⟩
  cases a.removal fails h with
  | removed => simp [hs, Program.bind_commit_run]
  | notFound => simp [hs]
  | failed message => exact ⟨⟨⟩, rfl⟩

theorem deleteIfUnownedWrite_returns {K : Hash → Set Owner → Set (ComponentRow Hash) → Prop}
    (fails : Hash → Option String) (now : ℕ) (h : Hash) :
    Returns (SoundUnder length K)
      (deleteIfUnownedWrite fails now h : StoreProgram Hash Content Unit) := by
  intro s hs
  rw [deleteIfUnownedWrite, Program.bind_read_run]
  cases hleased : s.leased h with
  | true => exact ⟨⟨⟩, by simp⟩
  | false =>
    cases howned : s.owned h with
    | true => exact ⟨⟨⟩, by simp⟩
    | false =>
      have hreferenced : s.referenced h = false := by
        rw [← Bool.not_eq_true, referenced_iff]
        rintro ⟨c, hc⟩
        have hlive : s.owned h = true := (s.owned_iff h).mpr ⟨_, (hs h).1.routed c hc⟩
        rw [howned] at hlive
        cases hlive
      simp only [Bool.false_eq_true, if_false]
      cases s.row? h with
      | none => exact ⟨⟨⟩, rfl⟩
      | some r =>
        simp only
        split
        · exact delete_returns fails now h s hreferenced
        · exact ⟨⟨⟩, rfl⟩

theorem releaseOwner_returns {o : Owner} (ho : o.isRoute = false) (fails : Hash → Option String)
    (now : ℕ) : Returns (Custodial length)
      (releaseOwner fails now o : StoreProgram Hash Content Unit) := by
  refine Returns.bind (I := Custodial length) (R := fun _ => Custodial length) Returns.read
    (Triple.read fun s hs => hs) fun s => ?_
  have hremove : Preserves (Custodial length)
      (Program.commit fun t => t.removeOwnerAll o : StoreProgram Hash Content Unit) :=
    Preserves.commit fun t ht => removeOwnerAll_sound ht ho (routed_removes o)
  refine Returns.bind (Returns.commit _) hremove fun _ => ?_
  exact Returns.forEach (fun h _ => deleteIfUnownedWrite_sound fails now h)
    fun h _ => deleteIfUnownedWrite_returns fails now h

theorem program_framed {digest : Content → Hash} {l : BlobLabel Hash Content}
    (hs : s.Custodial length) (hl : Allowed digest length s l)
    (hop : ∀ o ∈ l.op.named, o.isHolder = true) :
    ∀ t ∈ ((l.program digest length).run s).commits,
      t.SoundUnder length (s.Framed (· ∈ l.op.named)) := by
  obtain ⟨P, hP, htriple⟩ := program_sound digest length (hs.framed _) hl (named_respects hop)
  exact (htriple s hP).1

theorem releaseOwner_released {o : Owner} (hs : s.Custodial length) (ho : o.isRoute = false)
    (fails : Hash → Option String) (now : ℕ) :
    Triple (fun t => t = s) (releaseOwner fails now o : StoreProgram Hash Content Unit)
      (fun t => t.SoundUnder length (s.Framed (· = o)) ∧ ∀ x, o ∉ (t.view x).owners)
      fun _ t => t.SoundUnder length (s.Framed (· = o)) ∧ ∀ x, o ∉ (t.view x).owners := by
  have hsplit : ∀ t : BlobStore Hash Content,
      (t.SoundUnder length fun x S C => s.Framed (· = o) x S C ∧ o ∉ S) →
        t.SoundUnder length (s.Framed (· = o)) ∧ ∀ x, o ∉ (t.view x).owners := fun t ht =>
    ⟨fun x => ⟨(ht x).1, (ht x).2.1⟩, fun x => (ht x).2.2⟩
  refine Triple.mono (I := SoundUnder length fun x S C => s.Framed (· = o) x S C ∧ o ∉ S)
    (Q := fun _ => SoundUnder length fun x S C => s.Framed (· = o) x S C ∧ o ∉ S)
    ?_ (fun t ht => ht) hsplit fun _ => hsplit
  refine Triple.bind (R := fun _ t => t = s) (Triple.read fun t ht => ht) fun a => ?_
  refine Triple.bind (R := fun _ => SoundUnder length fun x S C =>
    s.Framed (· = o) x S C ∧ o ∉ S) ?_ fun _ =>
      Preserves.forEach fun h _ => deleteIfUnownedWrite_sound fails now h
  have hremoved : ∀ t, t = s →
      (t.removeOwnerAll o).SoundUnder length fun x S C => s.Framed (· = o) x S C ∧ o ∉ S := by
    rintro t rfl x
    have hx := removeOwnerAll_sound (hs.framed (· = o)) ho (framed_removes rfl) x
    refine ⟨hx.1, hx.2, ?_⟩
    rw [view_removeOwnerAll]
    exact fun h => h.2 rfl
  exact Triple.commit hremoved hremoved

theorem releaseOwner_custodial {o : Owner} (ho : o.isRoute = false)
    (fails : Hash → Option String) (now : ℕ) : Preserves (Custodial length)
      (releaseOwner fails now o : StoreProgram Hash Content Unit) :=
  releaseOwner_sound fails now ho (routed_removes o)

end Frames

end BlobStore

namespace WriteRepository

section Frames

def owners (s : WriteRepository) (x : String) : Set Owner :=
  (s.blobs.view x).owners

/-- A change that leaves the pending candidate, the sagas and their blobs in place, and of the owners
those outside `own` and the routes. -/
structure Frame (s : WriteRepository) (own : Owner → Prop) (t : WriteRepository) : Prop where
  pendingCandidate : t.pendingCandidate = s.pendingCandidate
  pendingBlobs : t.pendingBlobs = s.pendingBlobs
  sagaBlobs : t.sagaBlobs = s.sagaBlobs
  sagas : t.sagas.rows.map SagaRow.batchId = s.sagas.rows.map SagaRow.batchId
  history : t.history.rows.map HistoryRow.batchId = s.history.rows.map HistoryRow.batchId
  blobs : t.blobs.SoundUnder List.length (s.blobs.Framed own)

variable {s t u : WriteRepository} {own own' : Owner → Prop}

theorem Frame.refl (hs : s.blobs.Custodial List.length) (own : Owner → Prop) : Frame s own s :=
  ⟨rfl, rfl, rfl, rfl, rfl, hs.framed own⟩

theorem Frame.trans (h : Frame s own t) (h' : Frame t own' u) (hown : ∀ o, own' o → own o) :
    Frame s own u where
  pendingCandidate := h'.pendingCandidate.trans h.pendingCandidate
  pendingBlobs := h'.pendingBlobs.trans h.pendingBlobs
  sagaBlobs := h'.sagaBlobs.trans h.sagaBlobs
  sagas := h'.sagas.trans h.sagas
  history := h'.history.trans h.history
  blobs := h.blobs.frame_trans h'.blobs hown

/-- What the tables that a frame speaks of do not notice. -/
structure Unseen (s t : WriteRepository) : Prop where
  pendingCandidate : t.pendingCandidate = s.pendingCandidate
  pendingBlobs : t.pendingBlobs = s.pendingBlobs
  sagaBlobs : t.sagaBlobs = s.sagaBlobs
  sagas : t.sagas.rows.map SagaRow.batchId = s.sagas.rows.map SagaRow.batchId
  history : t.history.rows.map HistoryRow.batchId = s.history.rows.map HistoryRow.batchId
  blobs : t.blobs = s.blobs

structure Silent (s t : WriteRepository) : Prop extends Unseen s t where
  catalog : t.catalog = s.catalog
  admittedGeneration : t.admittedGeneration = s.admittedGeneration

theorem Unseen.frame (h : Unseen s t) (hs : s.blobs.Custodial List.length) (own : Owner → Prop) :
    Frame s own t :=
  ⟨h.pendingCandidate, h.pendingBlobs, h.sagaBlobs, h.sagas, h.history, h.blobs ▸ hs.framed own⟩

theorem Unseen.refl (s : WriteRepository) : Unseen s s :=
  ⟨rfl, rfl, rfl, rfl, rfl, rfl⟩

theorem Unseen.trans (h : Unseen s t) (h' : Unseen t u) : Unseen s u :=
  ⟨h'.pendingCandidate.trans h.pendingCandidate, h'.pendingBlobs.trans h.pendingBlobs,
    h'.sagaBlobs.trans h.sagaBlobs, h'.sagas.trans h.sagas, h'.history.trans h.history,
    h'.blobs.trans h.blobs⟩

theorem Frame.onBlobs {blobs : BlobStore String Bytes}
    (h : blobs.SoundUnder List.length (s.blobs.Framed own)) :
    Frame s own { s with blobs := blobs } :=
  ⟨rfl, rfl, rfl, rfl, rfl, h⟩

theorem onBlobs_triple {α : Type} {m : BlobStore.StoreProgram String Bytes α}
    {P I : BlobStore String Bytes → Prop} {Q : α → BlobStore String Bytes → Prop}
    (h : Triple P m I Q) (r : WriteRepository) :
    Triple (fun s => ∃ b, s = { r with blobs := b } ∧ P b) (onBlobs m)
      (fun s => ∃ b, s = { r with blobs := b } ∧ I b)
      fun a s => ∃ b, s = { r with blobs := b } ∧ Q a b := by
  rintro s ⟨b, rfl, hb⟩
  obtain ⟨hcommits, hresult⟩ := h b hb
  refine ⟨fun t ht => ?_, fun a ha => ⟨_, ?_, hresult a ha⟩⟩
  · obtain ⟨c, hc, rfl⟩ := List.mem_map.mp ht
    exact ⟨c, rfl, hcommits c hc⟩
  · exact List.getLastD_map ..

theorem onBlobs_returns {α : Type} {m : BlobStore.StoreProgram String Bytes α}
    {P : BlobStore String Bytes → Prop} (h : Returns P m) :
    Returns (fun s : WriteRepository => P s.blobs) (onBlobs m) :=
  fun s hs => h s.blobs hs

theorem onBlobs_preserves {α : Type} {m : BlobStore.StoreProgram String Bytes α}
    {P : BlobStore String Bytes → Prop} (h : Preserves P m) :
    Preserves (fun s : WriteRepository => P s.blobs) (onBlobs m) := by
  refine Preserves.of_commits fun s hs t ht => ?_
  obtain ⟨c, hc, rfl⟩ := List.mem_map.mp ht
  exact (h s.blobs hs).1 c hc

theorem forgetProcess_frame (hs : s.blobs.Custodial List.length) (own : Owner → Prop) :
    Frame s own s.forgetProcess :=
  ⟨rfl, rfl, rfl, rfl, rfl, BlobStore.dropLeases_sound (hs.framed own)⟩

end Frames

section Unseen

variable {s t : WriteRepository}

theorem updateSaga_silent (s : WriteRepository) (batchId : ℕ) (f : SagaRow → SagaRow)
    (hf : ∀ r, (f r).batchId = r.batchId) : Silent s (s.updateSaga batchId f hf) := by
  refine ⟨⟨rfl, rfl, rfl, ?_, rfl, rfl⟩, rfl, rfl⟩
  rw [updateSaga, Table.update_rows, List.map_map]
  refine List.map_congr_left fun r _ => ?_
  simp only [Function.comp_apply]
  split
  · exact hf r
  · rfl

theorem completeArchived_silent (s : WriteRepository) (batchId : ℕ) (server : String) :
    Silent s (s.completeArchived batchId server) := by
  refine ⟨⟨rfl, rfl, rfl, rfl, ?_, rfl⟩, rfl, rfl⟩
  rw [completeArchived, Table.update_rows, List.map_map]
  refine List.map_congr_left fun r _ => ?_
  simp only [Function.comp_apply]
  split <;> rfl

theorem adoptServer_unseen (server : String) (batchId : ℕ) (s : WriteRepository) :
    Unseen s (adoptServer server batchId s) := by
  refine ⟨rfl, rfl, rfl, ?_, rfl, rfl⟩
  rw [adoptServer, Table.update_rows, List.map_map]
  refine List.map_congr_left fun r _ => ?_
  simp only [Function.comp_apply]
  split <;> rfl

theorem advanceOverlay_unseen {hashes : List String} {generation : ℕ}
    (h : advanceOverlay hashes s = .ok (generation, t)) : Unseen s t := by
  obtain ⟨_, _, rfl⟩ := advanceOverlay_rest h
  exact ⟨rfl, rfl, rfl, rfl, rfl, rfl⟩

theorem claimBatch_silent {token : ℕ} {batch : Option FrozenBatch}
    (h : claimBatch token s = .ok (batch, t)) : Silent s t := by
  rcases claimBatch_ok h with ⟨-, rfl⟩ | ⟨_, _, _, -, -, -, -, -, -, rfl⟩
  · exact ⟨.refl _, rfl, rfl⟩
  · exact ⟨⟨rfl, rfl, rfl, rfl, rfl, rfl⟩, rfl, rfl⟩

section Programs

variable (digest : Bytes → String) (acceptable : RawPublication → Bool)
  (fails : String → Option String) (now : ℕ)

theorem commits_unseen {α : Type} {m : RepositoryProgram α} (h : Advances Unseen m)
    (s : WriteRepository) : ∀ t ∈ (m.run s).commits, Unseen s t := by
  intro t ht
  have hmoves := h s t ht
  clear ht
  induction hmoves with
  | refl => exact .refl s
  | tail _ hmove ih => exact ih.trans hmove

theorem staging_unseen {op : StagingOp} (hop : ∀ b, op ≠ .blob b) :
    Advances Unseen (stagingProgram digest fails now op) := by
  cases op with
  | recordNarInfo route info =>
    refine fun s => AdvancesFrom.transaction fun _ t h => ?_
    unfold insertReferences at h
    split at h
    · simp at h
    · cases h
      exact ⟨rfl, rfl, rfl, rfl, rfl, rfl⟩
  | insertStagedBlob row =>
    refine fun s => AdvancesFrom.transaction fun _ t h => ?_
    split at h
    · simp at h
    · cases h
      exact ⟨rfl, rfl, rfl, rfl, rfl, rfl⟩
  | discard route =>
    refine fun s => AdvancesFrom.read_bind ?_
    split
    · exact AdvancesFrom.pure _
    · exact AdvancesFrom.commit ⟨rfl, rfl, rfl, rfl, rfl, rfl⟩
  | commitOverlay hashes =>
    refine advances_discarded fun s => AdvancesFrom.read_bind ?_
    split
    · exact AdvancesFrom.pure _
    · exact AdvancesFrom.transaction fun _ t h => advanceOverlay_unseen h
  | acquireGeneration generation =>
    exact fun s => AdvancesFrom.commit ⟨rfl, rfl, rfl, rfl, rfl, rfl⟩
  | blob op => exact absurd rfl (hop op)

theorem batch_silent {op : BatchOp} (hop : ∀ batch build, op ≠ .recordPending batch build) :
    Advances Silent (batchProgram fails now op) := by
  cases op with
  | markPublicationDirty generation baseRoot =>
    refine advances_discarded fun s => AdvancesFrom.transaction fun _ t h => ?_
    cases h
    exact ⟨⟨rfl, rfl, rfl, rfl, rfl, rfl⟩, rfl, rfl⟩
  | claimPublicationBatch token =>
    exact advances_discarded fun s => AdvancesFrom.transaction fun _ t h => claimBatch_silent h
  | recordPending batch build => exact absurd rfl (hop batch build)
  | markBatchFailed id =>
    exact fun s => AdvancesFrom.commit ⟨⟨rfl, rfl, rfl, rfl, rfl, rfl⟩, rfl, rfl⟩

def SagaOp.pruneAt : SagaOp → Option ℕ
  | .markPublicationAdmitted _ => some 3
  | .releaseGeneration _ => some 2
  | _ => none

def SagaOp.still : SagaOp → Bool
  | .claimPublication _ | .beginPublicationRefresh _ => false
  | op => op.pruneAt.isNone

theorem saga_silent {op : SagaOp} (hop : op.still = true) :
    Advances Silent (sagaProgram acceptable fails now op) := by
  have hwork : ∀ s (work : Table EndpointWork.key), Silent s { s with endpointWork := work } :=
    fun s work => ⟨⟨rfl, rfl, rfl, rfl, rfl, rfl⟩, rfl, rfl⟩
  cases op with
  | claimPublication destinations => simp [SagaOp.still] at hop
  | beginPublicationRefresh lead => simp [SagaOp.still] at hop
  | markPublicationAdmitted batchId => simp [SagaOp.still, SagaOp.pruneAt] at hop
  | releaseGeneration generation => simp [SagaOp.still, SagaOp.pruneAt] at hop
  | ensureEndpointWork batchId kind targets => exact fun s => AdvancesFrom.commit (hwork s _)
  | claimDueWork limit =>
    refine advances_discarded fun s => AdvancesFrom.read_bind ?_
    exact AdvancesFrom.commit_bind (hwork s _) (AdvancesFrom.pure _)
  | claimEndpointWork batchId kind target =>
    refine advances_discarded fun s => AdvancesFrom.read_bind ?_
    split
    · exact AdvancesFrom.pure _
    · exact AdvancesFrom.commit_bind (hwork s _) (AdvancesFrom.pure _)
  | restoreClaimedWork => exact fun s => AdvancesFrom.commit (hwork s _)
  | recordEndpointOutcome work outcome =>
    refine fun s => AdvancesFrom.read_bind ?_
    split_ifs
    · exact AdvancesFrom.commit (hwork s _)
    · exact AdvancesFrom.throw _
  | recordBlobProof batchId server hash =>
    refine fun s => AdvancesFrom.read_bind ?_
    split
    · exact AdvancesFrom.throw _
    · split_ifs
      · exact AdvancesFrom.throw _
      · exact AdvancesFrom.commit ⟨⟨rfl, rfl, rfl, rfl, rfl, rfl⟩, rfl, rfl⟩
      · exact AdvancesFrom.throw _
  | recordCompleteServer batchId server =>
    refine fun s => AdvancesFrom.read_bind ?_
    split_ifs
    · exact AdvancesFrom.throw _
    · exact AdvancesFrom.commit (updateSaga_silent s _ _ _)
    · exact AdvancesFrom.commit (completeArchived_silent s _ _)
  | recordSigned batchId template event =>
    refine fun s => AdvancesFrom.read_bind ?_
    split
    · exact AdvancesFrom.throw _
    · split_ifs
      · exact AdvancesFrom.throw _
      · exact AdvancesFrom.throw _
      · exact AdvancesFrom.commit (updateSaga_silent s _ _ _)
      · exact AdvancesFrom.throw _
  | recordRelayAcknowledgement batchId relay =>
    refine fun s => AdvancesFrom.read_bind ?_
    split_ifs
    · exact AdvancesFrom.commit (updateSaga_silent s _ _ _)
    · exact AdvancesFrom.throw _
  | commitPublication batchId =>
    refine fun s => AdvancesFrom.read_bind ?_
    split_ifs
    · exact AdvancesFrom.commit (updateSaga_silent s _ _ _)
    · exact AdvancesFrom.throw _

end Programs

end Unseen

end WriteRepository

end NixstrCache.Persistence

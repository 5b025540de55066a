import NixstrCache.Persistence.Ownership

/-!
The components of a route.

A route gets its components in one transaction, and only while it has none.  Whatever the store and the
repository do afterwards, evictions, publications, stops and new openings included, the components stay what
they are.
-/

namespace NixstrCache.Persistence

open Durable KeyedTable

namespace BlobStore

section Stores

variable {Hash Content : Type} [LinearOrder Hash] {s t u : BlobStore Hash Content}
variable {components : Table (ComponentRow.key : ComponentRow Hash → String × ℕ)}

/-- What an upload of a route is compared by. -/
def identities (components : List (RouteComponent Hash)) : List (Hash × ℕ) :=
  components.map fun item => (item.hash, item.size)

def KeepsComponents (s t : BlobStore Hash Content) : Prop :=
  ∀ route, s.routeComponents route ≠ [] → t.routeComponents route = s.routeComponents route

omit [LinearOrder Hash] in
theorem KeepsComponents.refl (s : BlobStore Hash Content) : KeepsComponents s s :=
  fun _ _ => rfl

omit [LinearOrder Hash] in
theorem KeepsComponents.trans (h : KeepsComponents s t) (h' : KeepsComponents t u) :
    KeepsComponents s u := by
  intro route hroute
  have hkept := h route hroute
  exact (h' route (hkept ▸ hroute)).trans hkept

omit [LinearOrder Hash] in
theorem keepsComponents_of_moves (h : Relation.ReflTransGen KeepsComponents s t) : KeepsComponents s t := by
  induction h with
  | refl => exact .refl s
  | tail _ hmove ih => exact ih.trans hmove

def HasComponents (components : Table (ComponentRow.key : ComponentRow Hash → String × ℕ))
    (s : BlobStore Hash Content) : Prop :=
  s.db.components = components

omit [LinearOrder Hash] in
theorem HasComponents.keeps (h : HasComponents s.db.components t) : KeepsComponents s t := by
  intro route _
  rw [routeComponents, h]
  rfl

omit [LinearOrder Hash] in
theorem advances_of_table {α : Type} {m : StoreProgram Hash Content α}
    (h : ∀ components, Preserves (HasComponents components) m) : Advances KeepsComponents m :=
  fun s t ht => .single ((h s.db.components s rfl).1 t ht).keeps

variable (fails : Hash → Option String) (now : ℕ)

theorem delete_table (h : Hash) :
    Preserves (HasComponents components) (delete fails now h : StoreProgram Hash Content Unit) := by
  refine .bind (.commit fun t ht => ht) fun _ => .bind .read fun t => ?_
  split
  · refine .bind (.commit fun t ht => ht) fun _ => ?_
    split_ifs
    · exact .commit fun t ht => ht
    · exact .bind (.commit fun t ht => ht) fun _ => .commit fun t ht => ht
  · split_ifs
    · exact .throw _
    · exact .commit fun t ht => ht
  · exact .commit fun t ht => ht

theorem deleteIfUnownedWrite_table (h : Hash) : Preserves (HasComponents components)
    (deleteIfUnownedWrite fails now h : StoreProgram Hash Content Unit) := by
  refine .bind .read fun t => ?_
  split_ifs
  · exact .pure _
  · exact .pure _
  · split
    · split_ifs
      · exact delete_table fails now h
      · exact .pure _
    · exact .pure _

theorem releaseOwner_table (owner : Owner) : Preserves (HasComponents components)
    (releaseOwner fails now owner : StoreProgram Hash Content Unit) := by
  refine .bind .read fun t => .bind (.commit fun t ht => ht) fun _ => ?_
  exact .forEach fun h _ => deleteIfUnownedWrite_table fails now h

theorem transferred_table (s : BlobStore Hash Content) (source target : Owner)
    (hashes : Option (List Hash)) : HasComponents s.db.components (s.transferred source target hashes) := by
  cases hashes with
  | none => rfl
  | some hashes =>
    induction hashes generalizing s with
    | nil => rfl
    | cons h rest ih =>
      refine (ih _).trans ?_
      dsimp only
      split_ifs <;> rfl

theorem transferOwner_table (source target : Owner) (hashes : Option (List Hash)) :
    Preserves (HasComponents components)
      (transferOwner fails now source target hashes : StoreProgram Hash Content Unit) := by
  refine .bind (.commit fun t ht => ?_) fun _ => .bind .read fun t => ?_
  · exact (transferred_table t source target hashes).trans ht
  · exact .forEach fun item _ => deleteIfUnownedWrite_table fails now item.hash

theorem evict_table (required : ℕ) (hashes : List Hash) : Preserves (HasComponents components)
    (evict fails now required hashes : StoreProgram Hash Content Unit) := by
  induction hashes with
  | nil => exact .pure _
  | cons h rest ih =>
    refine .bind .read fun s => ?_
    split_ifs
    · exact ih
    · refine .bind (delete_table fails now h) fun _ => .bind .read fun t => ?_
      split_ifs
      · exact .pure _
      · exact ih

theorem reserve_table (token : String) (bytes : ℕ) : Preserves (HasComponents components)
    (reserve fails token bytes now : StoreProgram Hash Content Unit) := by
  refine .bind .read fun s => ?_
  split_ifs
  · exact .throw _
  refine Triple.atomically fun s hs => ?_
  have hinner : Preserves (HasComponents components)
      (makeSpace fails now bytes >>= fun _ => insertReservation token bytes now :
        StoreProgram Hash Content Unit) := by
    refine .bind (.bind .read fun s => ?_) fun _ => .transaction fun s a t hs ht => ?_
    · split_ifs
      · exact .pure _
      · exact evict_table fails now bytes _
    · split_ifs at ht
      split at ht
      · cases ht
      · cases ht
        exact hs
  exact ⟨fun t _ => hs, fun a ha => ⟨hinner.final hs, hinner.final hs⟩⟩

theorem promote_table (digest : Content → Hash) (length : Content → ℕ) (content : Content)
    (origin : BlobOrigin) (owner : Option Owner) (token : String) : Preserves (HasComponents components)
      (promote digest length content origin owner token now) := by
  refine .bind (.commit fun t ht => ht) fun _ => .bind (.transaction fun s a t hs ht => ?_) fun _ =>
    .bind .read fun _ => .pure _
  split at ht
  · cases ht
  · next u hu =>
    have hrecord : HasComponents components u := by
      unfold recordReady at hu
      split at hu
      · cases hu
        exact hs
      · next existing _ =>
        by_cases hsize : existing.size = length content
        · rw [if_neg (not_not_intro hsize)] at hu
          cases hu
          exact hs
        · rw [if_pos hsize] at hu
          cases hu
    cases ht
    cases owner with
    | none => exact hrecord
    | some owner => exact hrecord

theorem lookup_table (h : Hash) : Preserves (HasComponents components)
    (lookup h now : StoreProgram Hash Content (Option ℕ)) := by
  refine .bind .read fun t => ?_
  split
  · exact .pure _
  · split_ifs
    · exact .bind (.commit fun t ht => ht) fun _ => .bind (.commit fun t ht => ht) fun _ => .pure _
    · exact .pure _

theorem reconcile_table (digest : Content → Hash) (length : Content → ℕ)
    (retries : Hash → Option String) : Preserves (HasComponents components)
      (reconcile digest length fails retries now : StoreProgram Hash Content Unit) := by
  have hquarantine : ∀ h, Preserves (HasComponents components)
      (quarantine h : StoreProgram Hash Content Unit) := by
    intro h
    refine .bind (.commit fun t ht => ht) fun _ => .bind .read fun t => ?_
    split_ifs
    · exact .throw _
    · exact .commit fun t ht => ht
  have hrow : ∀ row, Preserves (HasComponents components)
      (reconcileRow length fails now row : StoreProgram Hash Content Unit) := by
    intro row
    refine .bind .read fun s => ?_
    split
    · split_ifs
      · exact .throw _
      · exact .commit fun t ht => ht
    · split_ifs
      · exact hquarantine _
      · exact delete_table fails now _
      · exact .pure _
  have hfile : ∀ file, Preserves (HasComponents components)
      (reconcileFile digest length now file : StoreProgram Hash Content Unit) := by
    intro file
    refine .bind .read fun s => ?_
    split_ifs
    · exact .pure _
    · exact .commit fun t ht => ht
    · refine .transaction fun s a t hs ht => ?_
      split at ht
      · cases ht
      · cases ht
        exact hs
  refine .bind (.commit fun t ht => ht) fun _ => .bind .read fun s => ?_
  refine .bind (.forEach fun row _ => hrow row) fun _ => .bind .read fun t => ?_
  refine .bind (.forEach fun row _ => delete_table retries now _) fun _ => .bind .read fun u => ?_
  exact .forEach fun file _ => hfile file

end Stores

section Routes

variable {Hash Content : Type} [LinearOrder Hash] {s t : BlobStore Hash Content} {route other : String}
variable {items : List (RouteComponent Hash)} {owner : Owner}

def componentRow (route : String) (item : RouteComponent Hash) : ComponentRow Hash :=
  ⟨route, item.index, item.hash, item.size⟩

theorem insertComponents_rows (h : insertComponents route owner items s = .ok t) :
    t.db.components.rows = s.db.components.rows ++ items.map (componentRow route) := by
  induction items generalizing s with
  | nil =>
    cases h
    exact (List.append_nil _).symm
  | cons item rest ih =>
    rw [insertComponents] at h
    split_ifs at h
    split at h
    · cases h
    · next components hinsert =>
      refine (ih h).trans ?_
      change components.rows ++ _ = _
      rw [(Table.insert?_eq_some.mp hinsert).2, List.append_assoc]
      rfl

omit [LinearOrder Hash] in
theorem routeComponents_other (h : t.db.components.rows = s.db.components.rows ++ items.map (componentRow route))
    (hother : other ≠ route) : t.routeComponents other = s.routeComponents other := by
  have hnone : (items.map (componentRow route)).filter (fun r => r.route = other) = [] := by
    simp [List.filter_eq_nil_iff, componentRow, hother.symm]
  rw [routeComponents, routeComponents, h, List.filter_append, hnone, List.append_nil]

omit [LinearOrder Hash] in
theorem routeComponents_added (h : t.db.components.rows = s.db.components.rows ++ items.map (componentRow route))
    (hfree : s.routeComponents route = []) (hsorted : items.Pairwise fun a b => a.index ≤ b.index) :
    t.routeComponents route = items := by
  have hnone : s.db.components.rows.filter (fun r => r.route = route) = [] := by
    have hlength := congrArg List.length hfree
    rw [routeComponents, List.length_map, List.length_insertionSort] at hlength
    exact List.length_eq_zero_iff.mp hlength
  have hall : (items.map (componentRow route)).filter (fun r => r.route = route) =
      items.map (componentRow route) := by
    simp [List.filter_eq_self, componentRow]
  have hrows : (items.map (componentRow route)).Pairwise fun a b => a.index ≤ b.index :=
    List.pairwise_map.mpr hsorted
  rw [routeComponents, h, List.filter_append, hnone, hall, List.nil_append, hrows.insertionSort_eq,
    List.map_map]
  exact List.map_id _

theorem insertRoute_rows {size : ℕ} {result : Unit} (h : insertRoute route size items owner s = .ok (result, t)) :
    t.db.components.rows = s.db.components.rows ++ items.map (componentRow route) := by
  rw [insertRoute] at h
  split at h
  · cases h
  · next u hu =>
    split at h
    · cases h
    · cases h
      have hrows := insertComponents_rows hu
      exact hrows

variable (fails : Hash → Option String) (now : ℕ)

theorem commitRoute_keeps (route : String) (size : ℕ) (items : List (RouteComponent Hash)) (owner : Owner) :
    Advances KeepsComponents
      (commitRoute fails now route size items owner : StoreProgram Hash Content Unit) := by
  refine fun s => .read_bind ?_
  dsimp only
  split_ifs with hexisting
  · exact .throw _
  · exact advances_of_table (fun _ => releaseOwner_table fails now owner) s
  · refine .transaction fun _ t h other hother => ?_
    refine routeComponents_other (insertRoute_rows h) ?_
    rintro rfl
    exact hother (not_not.mp hexisting)

theorem commitRoute_identities {size : ℕ} (hsorted : items.Pairwise fun a b => a.index ≤ b.index)
    (h : ((commitRoute fails now route size items owner : StoreProgram Hash Content Unit).run s).result = .ok ()) :
    identities ((((commitRoute fails now route size items owner : StoreProgram Hash Content Unit).run s).final
      s).routeComponents route) = identities items := by
  rw [commitRoute, Program.bind_read_run] at h ⊢
  dsimp only at h ⊢
  split_ifs at h ⊢ with hexisting hdiffer
  · cases h
  · have hkept := (releaseOwner_table fails now owner).final (s := s) rfl
    rw [hkept.keeps route hexisting]
    exact not_not.mp hdiffer
  · cases hinsert : insertRoute route size items owner s with
    | error e =>
      rw [Program.transaction_run_error hinsert] at h
      cases h
    | ok inserted =>
      rw [Program.transaction_run_ok hinsert]
      exact congrArg identities (routeComponents_added (insertRoute_rows hinsert) (not_not.mp hexisting) hsorted)

theorem program_keeps (digest : Content → Hash) (length : Content → ℕ) (l : BlobLabel Hash Content) :
    Advances KeepsComponents (l.program digest length) := by
  obtain ⟨op, now, fails, stop⟩ := l
  cases op with
  | reserve token bytes => exact advances_of_table fun _ => reserve_table fails now token bytes
  | releaseReservation token => exact advances_of_table fun _ => .commit fun t ht => ht
  | promote content origin owner token =>
    exact advances_of_table fun _ => .bind (promote_table now digest length content origin owner token) fun _ =>
      .pure _
  | lookup h => exact advances_of_table fun _ => .bind (lookup_table now h) fun _ => .pure _
  | releaseLease h =>
    exact advances_of_table fun _ => .bind (.commit fun t ht => ht) fun _ => deleteIfUnownedWrite_table fails now h
  | acquireOwner owner h =>
    refine advances_of_table fun _ => .transaction fun s a t hs ht => ?_
    split_ifs at ht
    cases ht
    exact hs
  | transferOwner source target hashes =>
    exact advances_of_table fun _ => transferOwner_table fails now source target hashes
  | releaseOwner owner => exact advances_of_table fun _ => releaseOwner_table fails now owner
  | releaseOwnerOf owner h =>
    exact advances_of_table fun _ => .bind (.commit fun t ht => ht) fun _ => deleteIfUnownedWrite_table fails now h
  | commitRoute route size items owner => exact commitRoute_keeps fails now route size items owner
  | reconcile retries => exact advances_of_table fun _ => reconcile_table fails now digest length retries

end Routes

end BlobStore

namespace WriteRepository

variable {s t : WriteRepository}

def KeepsComponents (s t : WriteRepository) : Prop :=
  s.blobs.KeepsComponents t.blobs

theorem keepsComponents_of_moves (h : Relation.ReflTransGen KeepsComponents s t) : KeepsComponents s t := by
  induction h with
  | refl => exact BlobStore.KeepsComponents.refl s.blobs
  | tail _ hmove ih => exact BlobStore.KeepsComponents.trans ih hmove

theorem Unseen.keepsComponents (h : Unseen s t) : KeepsComponents s t := by
  rw [KeepsComponents, h.blobs]
  exact .refl _

theorem keepsComponents_of_table (h : t.blobs.db.components = s.blobs.db.components) : KeepsComponents s t :=
  BlobStore.HasComponents.keeps h

theorem onBlobs_keeps {α : Type} {m : BlobStore.StoreProgram String Bytes α}
    (h : Advances BlobStore.KeepsComponents m) : Advances KeepsComponents (onBlobs m) := by
  intro s t ht
  obtain ⟨blobs, hblobs, rfl⟩ := List.mem_map.mp ht
  exact .single (BlobStore.keepsComponents_of_moves (h s.blobs blobs hblobs))

section Programs

variable (digest : Bytes → String) (acceptable : RawPublication → Bool)
  (fails : String → Option String) (now : ℕ)

theorem pruneAdmitted_keeps : Advances KeepsComponents (pruneAdmitted fails now) := by
  refine fun s => .read_bind ?_
  split_ifs
  · exact .pure _
  · refine .commit_bind (keepsComponents_of_table rfl) ?_
    exact Advances.forEach (fun batchId => onBlobs_keeps
      (BlobStore.advances_of_table fun _ => BlobStore.releaseOwner_table fails now _)) _ _

theorem claimCandidate_table {candidate : PendingCandidate} {destinations : List String} {result : Unit}
    (h : claimCandidate candidate destinations now s = .ok (result, t)) :
    t.blobs.db.components = s.blobs.db.components := by
  have hinsert : ∀ u v, insertSaga candidate destinations u = .ok v →
      v.blobs.db.components = u.blobs.db.components := by
    intro u v huv
    obtain ⟨_, _, -, -, rfl⟩ := insertSaga_ok huv
    rfl
  unfold claimCandidate at h
  split at h
  · cases hu : insertSaga candidate destinations s with
    | error e => simp [hu, Except.map] at h
    | ok u =>
      obtain rfl : u = t := by simpa [hu, Except.map] using h
      exact hinsert s u hu
  · next existing hexisting =>
    dsimp only at h
    set archived := if (existing.admitted || existing.signedEvent.isNone) = true ∧
        existing.candidate.generation < candidate.generation then
      s.archiveSaga existing.batchId now else s with harchived
    have hsame : archived.blobs = s.blobs := by
      rw [harchived]
      split <;> rfl
    split at h
    · cases hu : insertSaga candidate destinations archived with
      | error e => simp [hu, Except.map] at h
      | ok u =>
        obtain rfl : u = t := by simpa [hu, Except.map] using h
        rw [hinsert archived u hu, hsame]
    · obtain rfl : archived = t := by simpa using h
      rw [hsame]

theorem ClaimMove.keepsComponents (h : ClaimMove s t) : KeepsComponents s t := by
  cases h with
  | adopt => exact keepsComponents_of_table rfl
  | claim _ _ h => exact keepsComponents_of_table (claimCandidate_table _ h)

theorem RefreshMove.keepsComponents (h : RefreshMove s t) : KeepsComponents s t := by
  obtain ⟨-, h⟩ := h
  unfold refreshSaga at h
  dsimp only at h
  split at h
  · cases h
    exact keepsComponents_of_table rfl
  · cases h

theorem storePending_table {batch : FrozenBatch} {candidate : PendingCandidate}
    {inventory : List InventoryEntry} {runId : Option String} {result : Unit}
    (h : storePending batch candidate inventory runId s = .ok (result, t)) :
    t.blobs.db.components = s.blobs.db.components := by
  unfold storePending at h
  cases hu : inventory.foldlM (fun t blob => insertPendingBlob batch.id runId blob t)
      { s with pendingBlobs := .empty } with
  | error e => simp [hu, bind, Except.bind] at h
  | ok u =>
    cases hv : claimRunBlobs batch.id candidate.blobCount runId u with
    | error e => simp [hu, hv, bind, Except.bind] at h
    | ok v =>
      simp only [hu, hv, bind, Except.bind, Except.ok.injEq, Prod.mk.injEq, true_and] at h
      subst h
      obtain ⟨pendingBlobs, rfl, -⟩ := insertPendingBlobs_ok hu
      unfold claimRunBlobs at hv
      split at hv
      · cases hv
        rfl
      · dsimp only at hv
        split at hv
        · cases hv
        · cases hv
          rfl

theorem staging_keeps (op : StagingOp) : Advances KeepsComponents (stagingProgram digest fails now op) := by
  by_cases hblob : ∃ b, op = .blob b
  · obtain ⟨b, rfl⟩ := hblob
    exact onBlobs_keeps (BlobStore.program_keeps digest List.length _)
  · exact Advances.mono (fun _ _ h => h.keepsComponents)
      (staging_unseen digest fails now fun b hb => hblob ⟨b, hb⟩)

theorem commitOverlay_keeps (hashes : List String) (s : WriteRepository) :
    KeepsComponents s (((commitOverlay hashes).run s).final s) := by
  have hfinal := (staging_keeps (fun _ => "") (fun _ => none) 0 (.commitOverlay hashes) s).final
  rw [stagingProgram, Outcome.final, discarded_commits] at hfinal
  exact keepsComponents_of_moves hfinal

theorem batch_keeps (op : BatchOp) : Advances KeepsComponents (batchProgram fails now op) := by
  by_cases hrecord : ∃ batch build, op = .recordPending batch build
  · obtain ⟨batch, build, rfl⟩ := hrecord
    refine fun s => .read_bind ?_
    refine .bind (.transaction fun _ t h => keepsComponents_of_table (storePending_table h)) fun _ _ => ?_
    split
    · exact .pure _
    · split_ifs
      · exact .pure _
      · exact onBlobs_keeps (BlobStore.advances_of_table fun _ => BlobStore.releaseOwner_table fails now _) _
  · exact Advances.mono (fun _ _ h => h.toUnseen.keepsComponents)
      (batch_silent fails now fun batch build h => hrecord ⟨batch, build, h⟩)

theorem saga_keeps (op : SagaOp) : Advances KeepsComponents (sagaProgram acceptable fails now op) := by
  cases op with
  | claimPublication destinations =>
    exact advances_discarded (Advances.mono (fun _ _ h => h.keepsComponents)
      (claimPublication_advances now destinations))
  | beginPublicationRefresh lead =>
    exact advances_discarded (Advances.mono (fun _ _ h => h.keepsComponents)
      (beginPublicationRefresh_advances now lead))
  | markPublicationAdmitted batchId =>
    refine fun s => .read_bind ?_
    split
    · exact .throw _
    · split_ifs
      · exact .throw _
      · exact .commit_bind (keepsComponents_of_table rfl)
          (.commit_bind (keepsComponents_of_table rfl) (pruneAdmitted_keeps fails now _))
  | releaseGeneration generation =>
    exact fun s => .commit_bind (keepsComponents_of_table rfl) (pruneAdmitted_keeps fails now _)
  | _ => exact Advances.mono (fun _ _ h => h.toUnseen.keepsComponents) (saga_silent acceptable fails now rfl)

theorem reopen_keeps (retries : String → Option String) :
    Advances KeepsComponents (reopen digest fails retries now) := by
  refine Advances.bind (fun s => .commit (keepsComponents_of_table rfl)) fun _ => ?_
  refine Advances.bind (onBlobs_keeps (BlobStore.advances_of_table fun _ =>
    BlobStore.reconcile_table fails now digest List.length retries)) fun _ s => ?_
  exact .commit (keepsComponents_of_table rfl)

theorem repositoryStep_keeps (s : WriteRepository) (l : RepositoryLabel) :
    KeepsComponents s (repositoryStep digest acceptable s l) := by
  have hadvances : Advances KeepsComponents (l.program digest acceptable) := by
    unfold RepositoryLabel.program
    split
    · exact staging_keeps digest l.fails l.now _
    · exact batch_keeps l.fails l.now _
    · exact saga_keeps acceptable l.fails l.now _
    · exact reopen_keeps digest l.fails l.now _
  unfold repositoryStep
  split
  · exact keepsComponents_of_moves (hadvances s).final
  · exact BlobStore.KeepsComponents.trans (keepsComponents_of_moves ((hadvances s).crash _))
      (keepsComponents_of_table rfl)

end Programs

end WriteRepository

end NixstrCache.Persistence

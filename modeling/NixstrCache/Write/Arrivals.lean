import Mathlib.Data.List.Induction
import Mathlib.Order.Bounds.Defs
import NixstrCache.Write.Eligibility

/-!
Arrivals of uploads, with one recompute after each.

The uploads are validated narinfos and NARs, each at its own route, and the lower cache does not
change.  What the overlay should hold is the least set that the rule of eligibility saturates.  A
recompute passes over the narinfos that one route affects, and these are all that the upload can
make eligible as long as every narinfo that names the route is among them.
-/

namespace NixstrCache.Write

open Durable KeyedTable Runs Persistence Nix
open Persistence.WriteRepository (StagedNarInfo StagingNarInfo RepositoryProgram insertStagedBlob
  recordNarInfo commitOverlay Current Recorded OverlayCommit)

/-- A narinfo that has passed its validation, or a NAR. -/
inductive StagedUpload
  | narInfo (row : StagedBlobRow) (info : StagingNarInfo)
    (hhash : isStorePathHash info.storePathHash = true)
    (hroute : row.route = narInfoRoute info.storePathHash)
  | nar (row : StagedBlobRow) (hroute : isNarRoute row.route = true)

namespace StagedUpload

def row : StagedUpload → StagedBlobRow
  | .narInfo row .. => row
  | .nar row _ => row

def route (u : StagedUpload) : String :=
  u.row.route

def info : StagedUpload → Option StagingNarInfo
  | .narInfo _ info .. => some info
  | .nar .. => none

def stage : StagedUpload → RepositoryProgram Unit
  | .narInfo row info .. => do
    insertStagedBlob row
    recordNarInfo row.route info
  | .nar row _ => insertStagedBlob row

end StagedUpload

/-- `EligibilityModel.changed`. -/
def changed (options : EligibilityOptions) (lower : String → Bool) (s : WriteRepository)
    (route : String) : WriteRepository :=
  ((commitOverlay (Recompute.admits options lower s route)).run s).final s

def staged (s : WriteRepository) (u : StagedUpload) : WriteRepository :=
  (u.stage.run s).final s

/-- An upload and the recompute after it. -/
def arrive (options : EligibilityOptions) (lower : String → Bool) (s : WriteRepository)
    (u : StagedUpload) : WriteRepository :=
  changed options lower (staged s u) u.route

def storePaths (s : WriteRepository) : Set String :=
  {hash | hash ∈ s.overlayStorePathsOf s.currentGeneration}

/-- A set that holds every store path whose narinfo and NAR are uploaded and whose references are
the path itself, in the set, or in the lower cache. -/
def Saturated (lower : String → Bool) (uploads : List StagedUpload) (S : Set String) : Prop :=
  ∀ u ∈ uploads, ∀ info, u.info = some info → (∃ v ∈ uploads, v.route = info.url) →
    (∀ reference ∈ info.references,
      reference = info.storePathHash ∨ reference ∈ S ∨ lower reference = true) →
    info.storePathHash ∈ S

section Staging

variable {s t : WriteRepository} {uploads : List StagedUpload} {u : StagedUpload}

def infoRow (route : String) (info : StagingNarInfo) : StagedNarInfoRow :=
  ⟨info.storePathHash, route, info.url, info.rawBytes⟩

structure Uploaded (uploads : List StagedUpload) (s : WriteRepository) : Prop where
  rows : ∀ route, (s.lookup route).isSome ↔ ∃ u ∈ uploads, u.route = route
  narInfos : ∀ n, n ∈ s.stagedNarInfos.rows ↔
    ∃ u ∈ uploads, ∃ info, u.info = some info ∧ n = infoRow u.route info
  references : ∀ r : StagedReferenceRow, r ∈ s.stagedReferences.rows ↔
    ∃ u ∈ uploads, ∃ info, u.info = some info ∧ r.storePathHash = info.storePathHash ∧
      r.referenceHash ∈ info.references
  current : Current s

theorem route_of_info {info : StagingNarInfo} (h : u.info = some info) :
    u.route = narInfoRoute info.storePathHash ∧ isStorePathHash info.storePathHash = true := by
  cases u with
  | narInfo row info' hhash hroute =>
    cases h
    exact ⟨hroute, hhash⟩
  | nar row hroute => simp [StagedUpload.info] at h

theorem Uploaded.insert {row : StagedBlobRow} (h : Uploaded uploads s)
    (hfresh : ∀ v ∈ uploads, v.route ≠ row.route) : ∃ stagedBlobs,
      (insertStagedBlob row).run s = ⟨[{ s with stagedBlobs := stagedBlobs }], .ok ()⟩ ∧
      ∀ route, (stagedBlobs.find? route).isSome ↔ (∃ v ∈ uploads, v.route = route) ∨
        row.route = route := by
  have hsome : ∃ stagedBlobs, s.stagedBlobs.insert? row = some stagedBlobs := by
    cases hinsert : s.stagedBlobs.insert? row with
    | some stagedBlobs => exact ⟨stagedBlobs, rfl⟩
    | none =>
      obtain ⟨q, hq, hkey⟩ := Table.insert?_eq_none.mp hinsert
      have hlookup : (s.lookup row.route).isSome := by
        rw [← hkey, WriteRepository.lookup, Table.find?_key hq]
        rfl
      obtain ⟨v, hv, hroute⟩ := (h.rows row.route).mp hlookup
      exact absurd hroute (hfresh v hv)
  obtain ⟨stagedBlobs, hinsert⟩ := hsome
  refine ⟨stagedBlobs, ?_, ?_⟩
  · apply Program.transaction_run_ok
    simp only [hinsert]
  · intro route
    rw [Table.find?_insert? hinsert, ← h.rows, WriteRepository.lookup]
    by_cases hroute : route = row.route
    · simp [hroute]
    · simp [Ne.symm hroute]

theorem mem_snoc {P : StagedUpload → Prop} :
    (∃ v ∈ uploads ++ [u], P v) ↔ (∃ v ∈ uploads, P v) ∨ P u := by
  simp only [List.mem_append, List.mem_singleton, or_and_right, exists_or, exists_eq_left]

theorem staged_nar {row : StagedBlobRow} {hroute : isNarRoute row.route = true}
    (h : Uploaded uploads s) (hfresh : ∀ v ∈ uploads, v.route ≠ row.route) :
    Uploaded (uploads ++ [.nar row hroute]) (staged s (.nar row hroute)) ∧
      storePaths (staged s (.nar row hroute)) = storePaths s := by
  obtain ⟨stagedBlobs, hrun, hrows⟩ := h.insert hfresh
  have hstaged : staged s (.nar row hroute) = { s with stagedBlobs := stagedBlobs } := by
    rw [staged, StagedUpload.stage, hrun]
    rfl
  rw [hstaged]
  refine ⟨⟨?_, ?_, ?_, h.current.entries, h.current.paths⟩, rfl⟩
  · intro route
    rw [mem_snoc]
    exact hrows route
  · intro n
    rw [mem_snoc]
    simpa [StagedUpload.info] using h.narInfos n
  · intro r
    rw [mem_snoc]
    simpa [StagedUpload.info] using h.references r

theorem staged_narInfo {row : StagedBlobRow} {info : StagingNarInfo}
    {hhash : isStorePathHash info.storePathHash = true}
    {hroute : row.route = narInfoRoute info.storePathHash}
    (h : Uploaded uploads s) (hfresh : ∀ v ∈ uploads, v.route ≠ row.route) :
    Uploaded (uploads ++ [.narInfo row info hhash hroute]) (staged s (.narInfo row info hhash hroute)) ∧
      storePaths (staged s (.narInfo row info hhash hroute)) = storePaths s := by
  obtain ⟨stagedBlobs, hrun, hrows⟩ := h.insert hfresh
  obtain ⟨t, hrecord, hrecorded⟩ := WriteRepository.recordNarInfo_run row.route info
    { s with stagedBlobs := stagedBlobs }
  have hstaged : staged s (.narInfo row info hhash hroute) = t := by
    rw [staged, StagedUpload.stage, Program.bind_final (a := ()) (by rw [hrun])]
    rw [hrun]
    simp only [Outcome.final, List.getLastD_cons, List.getLastD_nil]
    rw [hrecord]
    rfl
  obtain ⟨stagedNarInfos, stagedReferences, hrest⟩ := hrecorded.rest
  have hother : ∀ v ∈ uploads, ∀ info', v.info = some info' →
      info'.storePathHash ≠ info.storePathHash := by
    intro v hv info' hinfo hsame
    apply hfresh v hv
    rw [(route_of_info hinfo).1, hsame, hroute]
  rw [hstaged]
  refine ⟨⟨?_, ?_, ?_, ?_⟩, by rw [hrest]; rfl⟩
  · intro route
    rw [mem_snoc, hrest]
    exact hrows route
  · intro n
    rw [mem_snoc, Table.mem_iff_find?, hrecorded.narInfos]
    have hold : (s.stagedNarInfos.find? n.storePathHash = some n ∧ n.route ≠ row.route) ↔
        ∃ v ∈ uploads, ∃ info', v.info = some info' ∧ n = infoRow v.route info' := by
      rw [← h.narInfos, Table.mem_iff_find?]
      apply and_iff_left_of_imp
      intro hn
      obtain ⟨v, hv, info', -, rfl⟩ := (h.narInfos n).mp (Table.find?_eq_some.mp hn).1
      exact hfresh v hv
    split_ifs with hsame
    · constructor
      · intro hn
        right
        exact ⟨info, rfl, (Option.some.inj hn).symm⟩
      · rintro (⟨v, hv, info', hinfo, rfl⟩ | ⟨info', hinfo, rfl⟩)
        · exact absurd hsame.symm (hother v hv info' hinfo)
        · cases hinfo
          rfl
    · rw [Option.filter_eq_some_iff, decide_eq_true_eq, hold]
      constructor
      · exact Or.inl
      · rintro (hn | ⟨info', hinfo, rfl⟩)
        · exact hn
        · cases hinfo
          exact absurd rfl hsame
  · intro r
    rw [mem_snoc, hrecorded.references]
    change (r ∈ s.stagedReferences.rows ∧ _) ∨ _ ↔ _
    have hold : (r ∈ s.stagedReferences.rows ∧ r.storePathHash ≠ info.storePathHash) ↔
        r ∈ s.stagedReferences.rows := by
      apply and_iff_left_of_imp
      intro hr
      obtain ⟨v, hv, info', hinfo, hid, -⟩ := (h.references r).mp hr
      rw [hid]
      exact hother v hv info' hinfo
    rw [hold, h.references]
    simp [StagedUpload.info]
  · rw [hrest]
    exact ⟨h.current.entries, h.current.paths⟩

theorem staged_staged (h : Uploaded uploads s) (hfresh : ∀ v ∈ uploads, v.route ≠ u.route) :
    Uploaded (uploads ++ [u]) (staged s u) ∧ storePaths (staged s u) = storePaths s := by
  cases u with
  | narInfo row info hhash hroute => exact staged_narInfo h hfresh
  | nar row hroute => exact staged_nar h hfresh

end Staging

section Recomputes

variable {options : EligibilityOptions} {lower : String → Bool} {s : WriteRepository}
  {uploads : List StagedUpload} {u : StagedUpload} {route : String} {r : Recompute}

theorem mem_candidates (h : Uploaded uploads s) (hstart : Recompute.start options s route = .ok r)
    (c : StagedNarInfo) : c ∈ r.candidates ↔ ∃ v ∈ uploads, ∃ info, v.info = some info ∧
      info.storePathHash ∈ s.reached route ∧ s.candidateRow (infoRow v.route info) = c := by
  rw [WriteRepository.mem_affectedCandidates (Recompute.start_ok hstart).1]
  constructor
  · rintro ⟨n, hn, hreached, hc⟩
    obtain ⟨v, hv, info, hinfo, rfl⟩ := (h.narInfos n).mp hn
    exact ⟨v, hv, info, hinfo, hreached, hc⟩
  · rintro ⟨v, hv, info, hinfo, hreached, hc⟩
    exact ⟨_, (h.narInfos _).mpr ⟨v, hv, info, hinfo, rfl⟩, hreached, hc⟩

theorem mem_referencesOf_info (h : Uploaded uploads s) {v : StagedUpload} (hv : v ∈ uploads)
    {info : StagingNarInfo} (hinfo : v.info = some info)
    (hroutes : (uploads.map StagedUpload.route).Nodup) (reference : String) :
    reference ∈ s.referencesOf info.storePathHash ↔ reference ∈ info.references := by
  rw [WriteRepository.mem_referencesOf, h.references]
  constructor
  · rintro ⟨w, hw, info', hinfo', hid, hreference⟩
    have hroute : w.route = v.route := by
      rw [(route_of_info hinfo').1, (route_of_info hinfo).1]
      exact congrArg narInfoRoute hid.symm
    obtain rfl := List.inj_on_of_nodup_map hroutes hw hv hroute
    rw [hinfo] at hinfo'
    cases hinfo'
    exact hreference
  · intro hreference
    exact ⟨v, hv, info, hinfo, rfl, hreference⟩

theorem changed_adds (h : Uploaded uploads s) {t : Recompute}
    (hstart : Recompute.start options s route = .ok r)
    (hadmits : Recompute.admits options lower s route = t.admitted)
    (hrunning : Recompute.Running lower s r t) :
    Uploaded uploads (changed options lower s route) ∧
      ∀ hash, hash ∈ storePaths (changed options lower s route) ↔
        hash ∈ storePaths s ∨ hash ∈ t.admitted := by
  unfold changed
  rw [hadmits, commitOverlay, Program.bind_read_run]
  split
  · next hnone =>
    simp only [Program.pure_run, hnone]
    exact ⟨h, by simp [Outcome.final]⟩
  · have hfound : ∀ hash ∈ t.admitted, ∃ n, s.stagedNarInfos.find? hash = some n ∧
        (s.lookup n.route).isSome ∧ (s.lookup n.narRoute).isSome := by
      intro hash hhash
      obtain ⟨-, c, rfl, hgranted⟩ := hrunning.sound.admitted hash hhash
      have hc := hgranted.candidate
      rw [hrunning.candidates] at hc
      obtain ⟨v, hv, info, hinfo, -, rfl⟩ := (mem_candidates h hstart c).mp hc
      refine ⟨infoRow v.route info, ?_, ?_, hgranted.found⟩
      · exact Table.mem_iff_find?.mp ((h.narInfos _).mpr ⟨v, hv, info, hinfo, rfl⟩)
      · exact (h.rows _).mpr ⟨v, hv, rfl⟩
    obtain ⟨u, hadvance⟩ := WriteRepository.advanceOverlay_succeeds h.current hfound
    have hcommit := WriteRepository.advanceOverlay_ok h.current hadvance
    rw [Program.transaction_run_ok hadvance]
    change Uploaded uploads u ∧ ∀ hash, hash ∈ storePaths u ↔ _
    refine ⟨⟨?_, ?_, ?_, hcommit.2.current⟩, ?_⟩
    · simpa only [WriteRepository.lookup, hcommit.2.stagedBlobs] using h.rows
    · simpa only [hcommit.2.stagedNarInfos] using h.narInfos
    · simpa only [hcommit.2.stagedReferences] using h.references
    · intro hash
      simp only [storePaths, Set.mem_ofPred_eq, WriteRepository.mem_overlayStorePathsOf,
        hcommit.2.generation, hcommit.2.paths]

theorem narInfoRoute_reached {hash : String} (hhash : isStorePathHash hash = true) :
    hash ∈ s.reached (narInfoRoute hash) := by
  apply WriteRepository.seed_reached
  have hnar : (narInfoRoute hash).startsWith "nar/" = false := isNarRoute_narInfoRoute hhash
  have hlength : hash.toList.length = 32 := by
    simp only [isStorePathHash, decide_eq_true_eq] at hhash
    rw [String.length_toList]
    exact hhash.1
  have htake : String.ofList ((narInfoRoute hash).toList.take 32) = hash := by
    rw [narInfoRoute, String.toList_append, List.take_left' hlength, String.ofList_toList]
  have hne : hash ≠ "" := by
    rintro rfl
    simp at hlength
  simp only [WriteRepository.seedOf, hnar, Bool.false_eq_true, if_false, htake, truthy, if_neg hne]

/-- Every narinfo that names the route of the upload is reached by the recompute after it. -/
def NamersReached (s : WriteRepository) (u : StagedUpload) : Prop :=
  ∀ n ∈ (staged s u).stagedNarInfos.rows, n.narRoute = u.route →
    n.storePathHash ∈ (staged s u).reached u.route

instance (s : WriteRepository) (u : StagedUpload) : Decidable (NamersReached s u) := by
  unfold NamersReached
  infer_instance

/-- The recompute after the upload stays below its ceilings. -/
def BelowCeilings (options : EligibilityOptions) (s : WriteRepository) (u : StagedUpload) : Prop :=
  (Recompute.start options (staged s u) u.route).isOk = true

instance (options : EligibilityOptions) (s : WriteRepository) (u : StagedUpload) :
    Decidable (BelowCeilings options s u) :=
  inferInstanceAs (Decidable (_ = true))

structure Arrived (lower : String → Bool) (uploads : List StagedUpload) (s : WriteRepository) :
    Prop where
  staged : Uploaded uploads s
  saturated : Saturated lower uploads (storePaths s)
  least : ∀ E, Saturated lower uploads E → storePaths s ⊆ E

theorem Saturated.of_snoc {E : Set String} (h : Saturated lower (uploads ++ [u]) E) :
    Saturated lower uploads E := by
  intro v hv info hinfo ⟨w, hw, hurl⟩ hreferences
  exact h v (List.mem_append_left _ hv) info hinfo ⟨w, List.mem_append_left _ hw, hurl⟩ hreferences

theorem changed_least (h : Uploaded uploads s) (hroutes : (uploads.map StagedUpload.route).Nodup)
    {t : Recompute} (hstart : Recompute.start options s route = .ok r)
    (hrunning : Recompute.Running lower s r t) {E : Set String} (hE : Saturated lower uploads E)
    (hold : storePaths s ⊆ E) : ∀ hash ∈ t.admitted, hash ∈ E := by
  apply hrunning.least E
  · intro c hc hfound hreferences
    obtain ⟨v, hv, info, hinfo, -, rfl⟩ := (mem_candidates h hstart c).mp hc
    apply hE v hv info hinfo ((h.rows _).mp hfound)
    intro reference hreference
    apply hreferences
    exact (mem_referencesOf_info h hv hinfo hroutes reference).mpr hreference
  · intro hash hhash
    rw [(Recompute.start_ok hstart).2.1] at hhash
    exact hold hhash

theorem changed_saturates (h : Uploaded uploads s) (hroutes : (uploads.map StagedUpload.route).Nodup)
    {t : Recompute} (hstart : Recompute.start options s route = .ok r)
    (hrunning : Recompute.Running lower s r t)
    (hdecided : ∀ c ∈ r.candidates, t.knows c.storePathHash = true ∨ Recompute.Blocked lower s t c)
    {v : StagedUpload} (hv : v ∈ uploads) {info : StagingNarInfo} (hinfo : v.info = some info)
    (hreached : info.storePathHash ∈ s.reached route) (hnar : ∃ w ∈ uploads, w.route = info.url)
    (hreferences : ∀ reference ∈ info.references, reference = info.storePathHash ∨
      (reference ∈ storePaths s ∨ reference ∈ t.admitted) ∨ lower reference = true) :
    info.storePathHash ∈ storePaths s ∨ info.storePathHash ∈ t.admitted := by
  have hknown : ∀ hash, t.knows hash = true ↔ hash ∈ storePaths s ∨ hash ∈ t.admitted := by
    intro hash
    rw [Recompute.knows_eq, hrunning.committed, (Recompute.start_ok hstart).2.1]
    rfl
  have hc := (mem_candidates h hstart _).mpr ⟨v, hv, info, hinfo, hreached, rfl⟩
  rcases hdecided _ hc with hknows | hmissing | ⟨reference, hreference, hself, hunknown, hout⟩
  · exact (hknown _).mp hknows
  · have hfound := (h.rows info.url).mpr hnar
    simp [WriteRepository.candidateRow, infoRow] at hmissing
    simp [hmissing] at hfound
  · have hmem := (mem_referencesOf_info h hv hinfo hroutes reference).mp hreference
    rcases hreferences reference hmem with hsame | hin | hlower
    · exact absurd hsame hself
    · rw [(hknown reference).mpr hin] at hunknown
      exact absurd hunknown (by decide)
    · rw [hlower] at hout
      exact absurd hout (by decide)

theorem arrive_arrived (h : Arrived lower uploads s)
    (hroutes : ((uploads ++ [u]).map StagedUpload.route).Nodup)
    (hceilings : BelowCeilings options s u) (hnamers : NamersReached s u) :
    Arrived lower (uploads ++ [u]) (arrive options lower s u) := by
  have hfresh : ∀ v ∈ uploads, v.route ≠ u.route := by
    intro v hv
    rw [List.map_append, List.nodup_append] at hroutes
    exact hroutes.2.2 _ (List.mem_map_of_mem hv) _ (by simp)
  obtain ⟨hstaged, hpaths⟩ := staged_staged h.staged hfresh
  obtain ⟨r, hstart⟩ : ∃ r, Recompute.start options (staged s u) u.route = .ok r := by
    unfold BelowCeilings at hceilings
    cases hstart : Recompute.start options (staged s u) u.route with
    | error e => simp [hstart, Except.isOk, Except.toBool] at hceilings
    | ok r => exact ⟨r, rfl⟩
  obtain ⟨t, hadmits, hrunning, hdecided⟩ := Recompute.admits_spec lower hstart
  obtain ⟨hafter, hadds⟩ := changed_adds hstaged hstart hadmits hrunning
  rw [hpaths] at hadds
  refine ⟨hafter, ?_, ?_⟩
  · intro v hv info hinfo hnar hreferences
    rw [arrive, hadds]
    simp only [arrive, hadds] at hreferences
    by_cases hreached : info.storePathHash ∈ (staged s u).reached u.route
    · rw [← hpaths] at hreferences ⊢
      exact changed_saturates hstaged hroutes hstart hrunning hdecided hv hinfo hreached hnar
        hreferences
    · left
      have hv' : v ∈ uploads := by
        rcases List.mem_append.mp hv with hold | hlast
        · exact hold
        · obtain rfl := List.mem_singleton.mp hlast
          obtain ⟨hroute, hhash⟩ := route_of_info hinfo
          rw [hroute] at hreached
          exact absurd (narInfoRoute_reached hhash) hreached
      apply h.saturated v hv' info hinfo
      · obtain ⟨w, hw, hurl⟩ := hnar
        rcases List.mem_append.mp hw with hold | hlast
        · exact ⟨w, hold, hurl⟩
        · obtain rfl := List.mem_singleton.mp hlast
          have hrow := (hstaged.narInfos _).mpr ⟨v, hv, info, hinfo, rfl⟩
          exact absurd (hnamers _ hrow hurl.symm) hreached
      · intro reference hreference
        rcases hreferences reference hreference with hself | (hold | hnew) | hlower
        · exact Or.inl hself
        · exact Or.inr (Or.inl hold)
        · obtain ⟨-, c, rfl, hgranted⟩ := hrunning.sound.admitted reference hnew
          have hc := hgranted.candidate
          rw [hrunning.candidates, mem_candidates hstaged hstart] at hc
          obtain ⟨w, -, info', -, hreached', rfl⟩ := hc
          have hrow := (hstaged.references ⟨info.storePathHash, info'.storePathHash⟩).mpr
            ⟨v, hv, info, hinfo, rfl, hreference⟩
          exact absurd (WriteRepository.reached_closed hrow hreached') hreached
        · exact Or.inr (Or.inr hlower)
  · intro E hE hash hhash
    rw [arrive, hadds] at hhash
    have hold := h.least E hE.of_snoc
    rcases hhash with hhash | hhash
    · exact hold hhash
    · exact changed_least hstaged hroutes hstart hrunning hE (hpaths ▸ hold) hash hhash

theorem initial_arrived (capacity : ℕ) : Arrived lower [] (.initial capacity) := by
  constructor
  · constructor
    · simp [WriteRepository.lookup, WriteRepository.initial, Table.find?_empty]
    · simp [WriteRepository.initial]
    · simp [WriteRepository.initial]
    · constructor <;> simp [WriteRepository.initial]
  · simp [Saturated]
  · intro E _ hash hhash
    simp [storePaths, WriteRepository.overlayStorePathsOf, WriteRepository.initial] at hhash

/-- Below the ceilings, and as long as every recompute reaches the narinfos that name the route of
its upload, uploads in any order leave the least set that they saturate. -/
theorem arrivals_confluent (options : EligibilityOptions) (lower : String → Bool) (capacity : ℕ)
    (uploads : List StagedUpload) (hroutes : (uploads.map StagedUpload.route).Nodup)
    (hceilings : Always (arrive options lower) (BelowCeilings options) (.initial capacity) uploads)
    (hnamers : Always (arrive options lower) NamersReached (.initial capacity) uploads) :
    IsLeast {S | Saturated lower uploads S}
      (storePaths (run (arrive options lower) (.initial capacity) uploads)) := by
  have harrived : Arrived lower uploads (run (arrive options lower) (.initial capacity) uploads) := by
    induction uploads using List.reverseRecOn with
    | nil => exact initial_arrived capacity
    | append_singleton uploads u ih =>
      rw [always_append] at hceilings hnamers
      rw [run_snoc]
      apply arrive_arrived _ hroutes hceilings.2.1 hnamers.2.1
      apply ih _ hceilings.1 hnamers.1
      rw [List.map_append] at hroutes
      exact hroutes.of_append_left
  exact ⟨harrived.saturated, harrived.least⟩

end Recomputes

section Samples

open StagingArea (sampleHash)

def sampleNarInfo (c : Char) (url : String) (references : List Char) : StagedUpload :=
  if h : isStorePathHash (sampleHash c) = true then
    .narInfo ⟨narInfoRoute (sampleHash c), "digest", 1, "path"⟩
      ⟨sampleHash c, url, references.map sampleHash, 1⟩ h rfl
  else .nar ⟨"nar/", "digest", 1, "path"⟩ (by decide +kernel)

def sampleNar : StagedUpload :=
  .nar ⟨"nar/n", "digest", 1, "path"⟩ (by decide +kernel)

def sampleCeilings : EligibilityOptions := ⟨10, 10⟩

theorem arrivals_confluent_sample :
    IsLeast {S | Saturated (fun _ => false)
        [sampleNarInfo 'b' "nar/n" ['a'], sampleNar, sampleNarInfo 'a' "nar/n" ['a']] S}
      (storePaths (run (arrive sampleCeilings fun _ => false) (.initial 100)
        [sampleNarInfo 'b' "nar/n" ['a'], sampleNar, sampleNarInfo 'a' "nar/n" ['a']])) :=
  arrivals_confluent sampleCeilings (fun _ => false) 100 _ (by decide +kernel) (by decide +kernel)
    (by decide +kernel)

/-- The NAR that two narinfos name arrives last: only the first of them is looked at. -/
theorem second_namer_missed :
    ¬IsLeast {S | Saturated (fun _ => false)
        [sampleNarInfo 'a' "nar/n" [], sampleNarInfo 'b' "nar/n" [], sampleNar] S}
      (storePaths (run (arrive sampleCeilings fun _ => false) (.initial 100)
        [sampleNarInfo 'a' "nar/n" [], sampleNarInfo 'b' "nar/n" [], sampleNar])) := by
  intro h
  have hmember : sampleHash 'b' ∈ storePaths (run (arrive sampleCeilings fun _ => false)
      (.initial 100) [sampleNarInfo 'a' "nar/n" [], sampleNarInfo 'b' "nar/n" [], sampleNar]) := by
    apply h.1 (sampleNarInfo 'b' "nar/n" []) (by simp) ⟨sampleHash 'b', "nar/n", [], 1⟩ _
      ⟨sampleNar, by simp, rfl⟩
    · simp
    · rfl
  have hmissed : sampleHash 'b' ∉ WriteRepository.overlayStorePathsOf
      (run (arrive sampleCeilings fun _ => false) (.initial 100)
        [sampleNarInfo 'a' "nar/n" [], sampleNarInfo 'b' "nar/n" [], sampleNar])
      (run (arrive sampleCeilings fun _ => false) (.initial 100)
        [sampleNarInfo 'a' "nar/n" [], sampleNarInfo 'b' "nar/n" [], sampleNar]).currentGeneration := by
    decide +kernel
  exact hmissed hmember

end Samples

end NixstrCache.Write

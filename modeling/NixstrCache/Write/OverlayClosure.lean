import NixstrCache.Write.Eligibility

/-!
The eligibility model at work while uploads go on.

Recomputes run one after the other, and between two checks of one any upload may take a step.  The
model keeps for every commit what it introduced and what the lower cache had reported for it, which
the source forgets.  A generation is closed when each of its narinfos is that of one of its store
paths, with its NAR, and each reference is in the generation or was reported.
-/

namespace NixstrCache.Write

open Durable KeyedTable Runs Persistence Nix
open Persistence.WriteRepository (StagedNarInfo StagingNarInfo commitOverlay recordNarInfo discard
  Current Recorded OverlayCommit Names KeepsCatalog Prunes background)

/-- A commit of the overlay: the store paths it introduced, and the references that the lower cache
reported present in its recompute. -/
structure ClosureCommit where
  generation : ℕ
  introduced : List String
  reported : List String
deriving DecidableEq, Repr

structure EligibilityModel where
  staging : StagingArea
  recompute : Option Recompute
  /-- What the lower cache has reported present in the running recompute. -/
  reported : List String
  commits : List ClosureCommit

namespace EligibilityModel

inductive Action where
  | staging (e : StagingArea.Event)
  | changed (route : String)
  | check (answer : Bool)
  | fail

section Model

variable (env : StagingEnv) (options : EligibilityOptions)

/-- The end of a recompute: a commit that fails changes nothing. -/
def finish (m : EligibilityModel) (admitted : List String) : EligibilityModel :=
  let o := (commitOverlay admitted).run m.staging.repository
  match o.result with
  | .error _ => { m with recompute := none }
  | .ok generation =>
    { staging := { m.staging with repository := o.final m.staging.repository }
      recompute := none
      reported := m.reported
      commits :=
        if admitted = [] then m.commits else m.commits ++ [⟨generation, admitted, m.reported⟩] }

def ends : StagingArea.Event → Bool
  | .background l => StagingArea.stops l
  | _ => false

def step (m : EligibilityModel) : Action → EligibilityModel
  | .staging (.commitOverlay _) => m
  | .staging e =>
    { m with
      staging := m.staging.step env e
      recompute := if ends e then none else m.recompute }
  | .changed route =>
    match m.recompute with
    | some _ => m
    | none =>
      match Recompute.start options m.staging.repository route with
      | .error _ => m
      | .ok r => { m with recompute := some r, reported := [] }
  | .check answer =>
    match m.recompute with
    | none => m
    | some r =>
      match r.tick (fun _ => answer) m.staging.repository with
      | .inl t =>
        { m with
          recompute := some t
          reported := m.reported ++ if answer then r.question.toList else [] }
      | .inr admitted => m.finish admitted
  | .fail => { m with recompute := none }

def initial (capacity : ℕ) : EligibilityModel where
  staging := .initial capacity
  recompute := none
  reported := []
  commits := []

end Model

section Uploads

variable {env : StagingEnv} {s t : StagingArea}

def Descends (s t : StagingArea) : Prop :=
  ∀ u ∈ t.uploads.rows, ∃ w ∈ s.uploads.rows, w.hash = u.hash

theorem descends_setPhase (s : StagingArea) (id : ℕ) (phase : UploadPhase) :
    Descends s (s.setPhase id phase) := by
  intro u hu
  obtain ⟨w, hw, rfl⟩ := StagingArea.mem_setPhase.mp hu
  exact ⟨w, hw, by split <;> rfl⟩

theorem descends_finish (s : StagingArea) (id status : ℕ) : Descends s (s.finish id status) := by
  intro u hu
  exact ⟨u, (Table.mem_filter.mp hu).1, rfl⟩

theorem Descends.refl (s : StagingArea) : Descends s s := by
  intro u hu
  exact ⟨u, hu, rfl⟩

/-- What an event other than a commit of the overlay does to the catalog. -/
inductive Stepped (env : StagingEnv) (s : StagingArea) (e : StagingArea.Event) :
    WriteRepository → Prop
  | keep {repository} (h : KeepsCatalog s.repository repository) : Stepped env s e repository
  | insert {u stagedBlobs} (hu : s.uploads.find? u.id = some u) (he : e = .insert u.id)
    (hphase : u.phase = .linked)
    (hinsert : s.repository.stagedBlobs.insert? (StagingArea.rowOf env u) = some stagedBlobs) :
    Stepped env s e { s.repository with stagedBlobs := stagedBlobs }
  | nar {row stagedBlobs} (hroute : isNarRoute row.route = true)
    (hinsert : s.repository.stagedBlobs.insert? row = some stagedBlobs) :
    Stepped env s e { s.repository with stagedBlobs := stagedBlobs }
  | discard {route} : Stepped env s e (((discard route).run s.repository).final s.repository)
  | record {u text info removes} (hu : s.uploads.find? u.id = some u)
    (he : e = .validate u.id true removes) (hphase : u.phase = .validating text)
    (hparse : env.parseNarInfo text = some info) (hhash : info.storePathHash = u.hash) :
    Stepped env s e (((recordNarInfo u.route info).run s.repository).final s.repository)

theorem Stepped.refl (env : StagingEnv) (s : StagingArea) (e : StagingArea.Event) :
    Stepped env s e s.repository :=
  .keep (.of_catalog rfl)

/-- What an event does to the catalog and to the hashes of the uploads. -/
structure Effect (env : StagingEnv) (s : StagingArea) (e : StagingArea.Event) (t : StagingArea) :
    Prop where
  repository : Stepped env s e t.repository
  hashes : (∀ u ∈ s.uploads.rows, isStorePathHash u.hash = true) →
    ∀ u ∈ t.uploads.rows, isStorePathHash u.hash = true

theorem Effect.of_descends {e : StagingArea.Event} (hrepository : Stepped env s e t.repository)
    (h : Descends s t) : Effect env s e t where
  repository := hrepository
  hashes hall u hu := by
    obtain ⟨w, hw, hhash⟩ := h u hu
    rw [← hhash]
    exact hall w hw

theorem setPhase_effect {e : StagingArea.Event} (hrepository : Stepped env s e t.repository)
    (huploads : t.uploads = s.uploads) (id : ℕ) (phase : UploadPhase) :
    Effect env s e (t.setPhase id phase) := by
  apply Effect.of_descends (t := t.setPhase id phase) hrepository
  intro u hu
  rw [← huploads]
  exact descends_setPhase t id phase u hu

theorem finish_effect {e : StagingArea.Event} (hrepository : Stepped env s e t.repository)
    (huploads : t.uploads = s.uploads) (id status : ℕ) : Effect env s e (t.finish id status) := by
  apply Effect.of_descends (t := t.finish id status) hrepository
  intro u hu
  rw [← huploads]
  exact descends_finish t id status u hu

theorem refl_effect (env : StagingEnv) (s : StagingArea) (e : StagingArea.Event) :
    Effect env s e s :=
  .of_descends (.refl env s e) (.refl s)

theorem discard_effect (e : StagingArea.Event) (u : NarInfoUpload) (removes : Bool) (status : ℕ) :
    Effect env s e ((s.discard u.route removes).finish u.id status) := by
  have hdiscard : Stepped env s e (s.discard u.route removes).repository ∧
      (s.discard u.route removes).uploads = s.uploads := by
    unfold StagingArea.discard
    split
    · exact ⟨.refl env s e, rfl⟩
    · dsimp only
      split
      · exact ⟨.discard, rfl⟩
      · exact ⟨.discard, rfl⟩
  exact finish_effect hdiscard.1 hdiscard.2 _ _

theorem validate_effect {u : NarInfoUpload} (hu : s.uploads.find? u.id = some u) {text : Bytes}
    (hphase : u.phase = .validating text) (records removes : Bool) :
    Effect env s (.validate u.id records removes) (s.validate env u text records removes) := by
  unfold StagingArea.validate
  split
  · exact discard_effect _ u removes 503
  · next info hparse =>
    split
    · exact discard_effect _ u removes 400
    · next hhash =>
      split
      · next hrecords =>
        rw [hrecords]
        apply setPhase_effect
        · exact .record hu rfl hphase hparse (not_not.mp hhash)
        · rfl
      · exact discard_effect _ u removes 503

theorem advance_effect {u : NarInfoUpload} (hu : s.uploads.find? u.id = some u)
    {e : StagingArea.Event} (he : e.upload = some u.id) : Effect env s e (s.advance env u e) := by
  cases e with
  | lookup id =>
    simp only [StagingArea.advance]
    split
    · unfold StagingArea.lookupRoute
      split
      · split
        · exact setPhase_effect (.refl ..) rfl _ _
        · exact finish_effect (.refl ..) rfl _ _
      · exact setPhase_effect (.refl ..) rfl _ _
    · exact refl_effect ..
  | link id =>
    simp only [StagingArea.advance]
    split
    · apply setPhase_effect
      · exact .refl env s _
      · rfl
    · exact refl_effect ..
  | insert id =>
    obtain rfl := Option.some.inj he
    simp only [StagingArea.advance]
    split
    · next hphase =>
      unfold StagingArea.insertRow
      split
      · exact finish_effect (.refl ..) rfl _ _
      · split
        · exact finish_effect (.refl ..) rfl _ _
        · next stagedBlobs hinsert =>
          apply setPhase_effect
          · exact .insert hu rfl hphase hinsert
          · rfl
    · exact refl_effect ..
  | read id =>
    simp only [StagingArea.advance]
    split
    · unfold StagingArea.readText
      split
      · exact finish_effect (.refl ..) rfl _ _
      · exact setPhase_effect (.refl ..) rfl _ _
    · exact refl_effect ..
  | validate id records removes =>
    obtain rfl := Option.some.inj he
    simp only [StagingArea.advance]
    split
    · next text hphase => exact validate_effect hu hphase records removes
    · exact refl_effect ..
  | respond id ok =>
    simp only [StagingArea.advance]
    split
    · exact finish_effect (.refl ..) rfl _ _
    · exact refl_effect ..
  | abort id =>
    simp only [StagingArea.advance]
    split
    · exact finish_effect (.refl ..) rfl _ _
    · exact refl_effect ..
  | _ => exact refl_effect ..

theorem step_effect (env : StagingEnv) (s : StagingArea) (e : StagingArea.Event) (he : ∀ hashes, e ≠ .commitOverlay hashes) :
    Effect env s e (s.step env e) := by
  cases e with
  | put id hash body =>
    simp only [StagingArea.step, StagingArea.put]
    split
    · exact .of_descends (.refl ..) (.refl s)
    · next hhash =>
      split
      · exact .of_descends (.refl ..) (.refl s)
      · split
        · exact refl_effect ..
        · next uploads hinsert =>
          refine ⟨.refl .., ?_⟩
          intro hall u hu
          change u ∈ uploads.rows at hu
          rw [(Table.insert?_eq_some.mp hinsert).2, List.mem_append, List.mem_singleton] at hu
          rcases hu with hu | rfl
          · exact hall u hu
          · simpa using hhash
  | nar row =>
    simp only [StagingArea.step]
    split
    · next hroute =>
      split
      · exact refl_effect ..
      · next stagedBlobs hinsert => exact .of_descends (.nar hroute hinsert) (.refl s)
    · exact refl_effect ..
  | commitOverlay hashes => exact absurd rfl (he hashes)
  | background l =>
    simp only [StagingArea.step]
    split
    · exact refl_effect ..
    · next hbackground =>
      have hkeeps := WriteRepository.background_keepsCatalog env.digest env.acceptable s.repository l
        (by simpa using hbackground)
      refine ⟨.keep hkeeps, ?_⟩
      intro hall u hu
      by_cases hstops : StagingArea.stops l = true
      · simp [hstops] at hu
      · exact hall u (by simpa [hstops] using hu)
  | _ =>
    simp only [StagingArea.step]
    split
    · exact refl_effect ..
    · next u hu =>
      obtain ⟨id, hid, hfind⟩ := Option.bind_eq_some_iff.mp hu
      obtain rfl := (Table.find?_eq_some.mp hfind).2
      exact advance_effect hfind hid

end Uploads

section Records

variable {env : StagingEnv} {s : StagingArea} {repository : WriteRepository} {hash : String}
  {text : Bytes} {info : StagingNarInfo} {e : StagingArea.Event}

theorem narInfoRoute_inj {a b : String} (h : narInfoRoute a = narInfoRoute b) : a = b := by
  have hlist := congrArg String.toList h
  simp only [narInfoRoute, String.toList_append, List.append_cancel_right_eq] at hlist
  exact String.toList_inj.mp hlist

def isNarInfoRoute (route : String) : Bool :=
  isStorePathHash (String.ofList (route.toList.take 32)) ∧
    route = narInfoRoute (String.ofList (route.toList.take 32))

theorem isNarInfoRoute_narInfoRoute (h : isStorePathHash hash = true) :
    isNarInfoRoute (narInfoRoute hash) = true := by
  have hlength : hash.toList.length = 32 := by
    simp only [isStorePathHash, decide_eq_true_eq] at h
    rw [String.length_toList]
    exact h.1
  have htake : String.ofList ((narInfoRoute hash).toList.take 32) = hash := by
    rw [narInfoRoute, String.toList_append, List.take_left' hlength, String.ofList_toList]
  simp [isNarInfoRoute, htake, h]

/-- The narinfo of a hash is recorded from the text, and its route holds that text or nothing. -/
structure Recording (env : StagingEnv) (s : WriteRepository) (hash : String) (text : Bytes)
    (info : StagingNarInfo) : Prop where
  valid : isStorePathHash hash = true
  parse : env.parseNarInfo text = some info
  named : info.storePathHash = hash
  url : isNarInfoRoute info.url = false
  row : s.stagedNarInfos.find? hash = some ⟨hash, narInfoRoute hash, info.url, info.rawBytes⟩
  references : ∀ reference,
    (⟨hash, reference⟩ : StagedReferenceRow) ∈ s.stagedReferences.rows ↔ reference ∈ info.references
  staged : ∀ row, s.lookup (narInfoRoute hash) = some row → row.digest = env.digest text

/-- A row is inserted at the route of a narinfo only while none is recorded there, and a narinfo is
recorded, under a URL that is no route of a narinfo, only while its text is what the route holds. -/
def KeepsRecords (env : StagingEnv) (s : StagingArea) : StagingArea.Event → Prop
  | .insert id => ∀ u ∈ s.uploads.find? id, u.phase = .linked →
    s.repository.stagedNarInfos.find? u.hash = none
  | .validate id records _ => ∀ u ∈ s.uploads.find? id, ∀ text ∈ u.phase.text,
    ∀ info ∈ env.parseNarInfo text, info.storePathHash = u.hash → records = true →
      (s.repository.lookup u.route).map StagedBlobRow.digest = some (env.digest text) ∧
        isNarInfoRoute info.url = false
  | _ => True

theorem Recording.of_rows {t : WriteRepository} (h : Recording env repository hash text info)
    (hinfos : t.stagedNarInfos = repository.stagedNarInfos)
    (hreferences : t.stagedReferences = repository.stagedReferences)
    (hrows : ∀ row, t.lookup (narInfoRoute hash) = some row →
      repository.lookup (narInfoRoute hash) = some row) : Recording env t hash text info where
  valid := h.valid
  parse := h.parse
  named := h.named
  url := h.url
  row := hinfos ▸ h.row
  references := hreferences ▸ h.references
  staged row hrow := h.staged row (hrows row hrow)

theorem discard_rows (route : String) (s : WriteRepository) : ∃ stagedBlobs,
    ((discard route).run s).final s = { s with stagedBlobs := stagedBlobs } ∧
      ∀ k row, stagedBlobs.find? k = some row → s.stagedBlobs.find? k = some row := by
  rw [WriteRepository.discard, Program.bind_read_run]
  split
  · exact ⟨s.stagedBlobs, rfl, fun _ _ hrow => hrow⟩
  · refine ⟨_, rfl, ?_⟩
    intro k row hrow
    rw [Table.find?_filter, Option.filter_eq_some_iff] at hrow
    exact hrow.1

theorem recording_recorded {u : NarInfoUpload} {t : WriteRepository} (hvalid : isStorePathHash u.hash = true)
    (hparse : env.parseNarInfo text = some info) (hhash : info.storePathHash = u.hash)
    (hurl : isNarInfoRoute info.url = false)
    (hrow : (repository.lookup u.route).map StagedBlobRow.digest = some (env.digest text))
    (hrecorded : Recorded u.route info repository t) : Recording env t u.hash text info := by
  obtain ⟨stagedNarInfos, stagedReferences, hrest⟩ := hrecorded.rest
  refine ⟨hvalid, hparse, hhash, hurl, ?_, ?_, ?_⟩
  · rw [hrecorded.narInfos, if_pos hhash, hhash]
    rfl
  · intro reference
    rw [hrecorded.references]
    simp [hhash]
  · intro row hlookup
    have hsame : repository.lookup u.route = some row := by
      rw [hrest] at hlookup
      exact hlookup
    rw [hsame] at hrow
    exact Option.some.inj hrow

theorem Recording.stepped (hinjective : Function.Injective env.digest)
    (h : Recording env s.repository hash text info) (hstep : Stepped env s e repository)
    (hkeeps : KeepsRecords env s e) : Recording env repository hash text info := by
  cases hstep with
  | keep hkeep =>
    apply h.of_rows hkeep.stagedNarInfos hkeep.stagedReferences
    intro row hrow
    rw [WriteRepository.lookup, hkeep.stagedBlobs] at hrow
    exact hrow
  | @insert u stagedBlobs hu he hphase hinsert =>
    subst he
    have hnone := hkeeps u hu hphase
    refine h.of_rows rfl rfl ?_
    intro row hrow
    rw [WriteRepository.lookup, Table.find?_insert? hinsert] at hrow
    split_ifs at hrow with hroute
    · rw [narInfoRoute_inj hroute, h.row] at hnone
      simp at hnone
    · exact hrow
  | @nar row stagedBlobs hroute hinsert =>
    refine h.of_rows rfl rfl ?_
    intro row' hrow
    rw [WriteRepository.lookup, Table.find?_insert? hinsert] at hrow
    split_ifs at hrow with hsame
    · rw [hsame, isNarRoute_narInfoRoute h.valid] at hroute
      simp at hroute
    · exact hrow
  | @discard route =>
    obtain ⟨stagedBlobs, hfinal, hrows⟩ := discard_rows route s.repository
    rw [hfinal]
    exact h.of_rows rfl rfl (hrows _)
  | @record u text' info' removes hu he hphase hparse hhash =>
    subst he
    obtain ⟨t, hrun, hrecorded⟩ := WriteRepository.recordNarInfo_run u.route info' s.repository
    obtain ⟨hrow, hurl⟩ := hkeeps u hu text' (by rw [hphase]; rfl) info' hparse hhash rfl
    rw [hrun]
    change Recording env t hash text info
    by_cases hsame : u.hash = hash
    · subst hsame
      have htext : text' = text := by
        obtain ⟨row, hlookup, hdigest⟩ := Option.map_eq_some_iff.mp hrow
        apply hinjective
        rw [← hdigest]
        exact h.staged row hlookup
      subst htext
      obtain rfl : info' = info := Option.some.inj (hparse.symm.trans h.parse)
      exact recording_recorded h.valid hparse hhash hurl hrow hrecorded
    · have hother : info'.storePathHash ≠ hash := by
        rw [hhash]
        exact hsame
      obtain ⟨stagedNarInfos, stagedReferences, hrest⟩ := hrecorded.rest
      refine ⟨h.valid, h.parse, h.named, h.url, ?_, ?_, ?_⟩
      · rw [hrecorded.narInfos, if_neg hother, h.row, Option.filter_some, if_pos]
        simp only [ne_eq, decide_eq_true_eq]
        intro hroute
        exact hsame (narInfoRoute_inj hroute).symm
      · intro reference
        rw [hrecorded.references, ← h.references]
        simp [Ne.symm hother]
      · intro row hlookup
        rw [hrest] at hlookup
        exact h.staged row hlookup

end Records

section Generations

variable {env : StagingEnv} {m n : EligibilityModel} {generation : ℕ} {hash reference : String}

def HoldsNarInfo (env : StagingEnv) (s : WriteRepository) (generation : ℕ) (hash : String)
    (info : StagingNarInfo) : Prop :=
  ∃ entry text, s.overlayEntries.find? (generation, narInfoRoute hash) = some entry ∧
    entry.digest = env.digest text ∧ env.parseNarInfo text = some info

/-- The lower cache reported the reference for the commit that introduced the store path. -/
def Reported (commits : List ClosureCommit) (generation : ℕ) (hash reference : String) : Prop :=
  ∃ c ∈ commits, c.generation ≤ generation ∧ hash ∈ c.introduced ∧ reference ∈ c.reported

def Resolves (m : EligibilityModel) (generation : ℕ) (hash reference : String) : Prop :=
  reference = hash ∨
    m.staging.repository.overlayStorePaths.has (generation, reference) = true ∨
    Reported m.commits generation hash reference

/-- Every store path of the generation has its narinfo and the NAR it names, and every reference of
every narinfo of the generation resolves. -/
structure ClosedGeneration (env : StagingEnv) (m : EligibilityModel) (generation : ℕ) : Prop where
  storePaths : ∀ hash, m.staging.repository.overlayStorePaths.has (generation, hash) = true →
    ∃ info, HoldsNarInfo env m.staging.repository generation hash info ∧ info.storePathHash = hash ∧
      (m.staging.repository.overlayEntries.find? (generation, info.url)).isSome
  references : ∀ hash info, isStorePathHash hash = true →
    HoldsNarInfo env m.staging.repository generation hash info →
    ∀ reference ∈ info.references, Resolves m generation info.storePathHash reference

/-- What the invariant says of the narinfo of a store path. -/
structure KeptPath (env : StagingEnv) (m : EligibilityModel) (generation : ℕ) (hash : String) :
    Prop where
  valid : isStorePathHash hash = true
  narInfo : ∃ entry text info,
    m.staging.repository.overlayEntries.find? (generation, narInfoRoute hash) = some entry ∧
      entry.digest = env.digest text ∧ env.parseNarInfo text = some info ∧
      info.storePathHash = hash ∧
      (m.staging.repository.overlayEntries.find? (generation, info.url)).isSome ∧
      ∀ reference ∈ info.references, Resolves m generation hash reference

structure KeptGeneration (env : StagingEnv) (m : EligibilityModel) (generation : ℕ) : Prop where
  paths : ∀ hash, m.staging.repository.overlayStorePaths.has (generation, hash) = true →
    KeptPath env m generation hash
  narInfos : ∀ hash, isStorePathHash hash = true →
    (m.staging.repository.overlayEntries.find? (generation, narInfoRoute hash)).isSome →
    m.staging.repository.overlayStorePaths.has (generation, hash) = true

theorem KeptGeneration.closed (hinjective : Function.Injective env.digest)
    (h : KeptGeneration env m generation) : ClosedGeneration env m generation := by
  constructor
  · intro hash hhash
    obtain ⟨entry, text, info, hentry, hdigest, hparse, hnamed, hnar, -⟩ := (h.paths hash hhash).narInfo
    exact ⟨info, ⟨entry, text, hentry, hdigest, hparse⟩, hnamed, hnar⟩
  · intro hash info hvalid ⟨entry, text, hentry, hdigest, hparse⟩ reference hreference
    have hhash := h.narInfos hash hvalid (by rw [hentry]; rfl)
    obtain ⟨entry', text', info', hentry', hdigest', hparse', hnamed, -, hreferences⟩ :=
      (h.paths hash hhash).narInfo
    obtain rfl : entry = entry' := Option.some.inj (hentry.symm.trans hentry')
    obtain rfl : text = text' := hinjective (hdigest.symm.trans hdigest')
    obtain rfl : info = info' := Option.some.inj (hparse.symm.trans hparse')
    rw [hnamed]
    exact hreferences reference hreference

theorem Reported.mono {commits commits' : List ClosureCommit} {generation' : ℕ}
    (h : Reported commits generation hash reference) (hcommits : ∀ c ∈ commits, c ∈ commits')
    (hle : generation ≤ generation') : Reported commits' generation' hash reference := by
  obtain ⟨c, hc, hgeneration, hhash, hreference⟩ := h
  exact ⟨c, hcommits c hc, hgeneration.trans hle, hhash, hreference⟩

theorem KeptGeneration.congr (h : KeptGeneration env m generation)
    (hentries : ∀ route, n.staging.repository.overlayEntries.find? (generation, route) =
      m.staging.repository.overlayEntries.find? (generation, route))
    (hpaths : ∀ hash, n.staging.repository.overlayStorePaths.has (generation, hash) = true ↔
      m.staging.repository.overlayStorePaths.has (generation, hash) = true)
    (hcommits : ∀ c ∈ m.commits, c ∈ n.commits) : KeptGeneration env n generation := by
  constructor
  · intro hash hhash
    obtain ⟨hvalid, entry, text, info, hentry, hdigest, hparse, hnamed, hnar, hreferences⟩ :=
      h.paths hash ((hpaths hash).mp hhash)
    refine ⟨hvalid, entry, text, info, (hentries _).trans hentry, hdigest, hparse, hnamed, ?_, ?_⟩
    · rw [hentries]
      exact hnar
    · intro reference hreference
      rcases hreferences reference hreference with hself | hin | hreported
      · exact Or.inl hself
      · exact Or.inr (Or.inl ((hpaths reference).mpr hin))
      · exact Or.inr (Or.inr (hreported.mono hcommits le_rfl))
  · intro hash hvalid hentry
    rw [hentries] at hentry
    exact (hpaths hash).mpr (h.narInfos hash hvalid hentry)

theorem keptGeneration_of_none
    (hentries : ∀ route, m.staging.repository.overlayEntries.find? (generation, route) = none)
    (hpaths : ∀ hash, m.staging.repository.overlayStorePaths.has (generation, hash) = false) :
    KeptGeneration env m generation := by
  constructor
  · intro hash hhash
    rw [hpaths] at hhash
    exact absurd hhash (by decide)
  · intro hash _ hentry
    rw [hentries] at hentry
    exact absurd hentry (by decide)

theorem KeptGeneration.pruned (h : KeptGeneration env m generation) {keep : ℕ → Bool}
    (hentries : n.staging.repository.overlayEntries =
      m.staging.repository.overlayEntries.filter fun r => keep r.generation)
    (hpaths : n.staging.repository.overlayStorePaths =
      m.staging.repository.overlayStorePaths.filter fun r => keep r.generation)
    (hcommits : n.commits = m.commits) : KeptGeneration env n generation := by
  cases hkeep : keep generation with
  | true =>
    apply h.congr
    · intro route
      rw [hentries, Table.find?_filter]
      cases hfind : m.staging.repository.overlayEntries.find? (generation, route) with
      | none => rfl
      | some entry =>
        have hgeneration : entry.generation = generation :=
          congrArg Prod.fst (Table.find?_eq_some.mp hfind).2
        simp [hgeneration, hkeep]
    · intro hash
      simp only [hpaths, Table.has_iff, Table.mem_filter]
      constructor
      · rintro ⟨r, ⟨hr, -⟩, hkey⟩
        exact ⟨r, hr, hkey⟩
      · rintro ⟨r, hr, hkey⟩
        have hgeneration : r.generation = generation := congrArg Prod.fst hkey
        exact ⟨r, ⟨hr, by rw [hgeneration, hkeep]⟩, hkey⟩
    · intro c hc
      rw [hcommits]
      exact hc
  | false =>
    apply keptGeneration_of_none
    · intro route
      rw [hentries, Table.find?_eq_none]
      intro r hr hkey
      have hgeneration : r.generation = generation := congrArg Prod.fst hkey
      have hkept := (Table.mem_filter.mp hr).2
      rw [hgeneration, hkeep] at hkept
      exact absurd hkept (by decide)
    · intro hash
      rw [hpaths, Table.has_eq_false]
      intro r hr hkey
      have hgeneration : r.generation = generation := congrArg Prod.fst hkey
      have hkept := (Table.mem_filter.mp hr).2
      rw [hgeneration, hkeep] at hkept
      exact absurd hkept (by decide)

end Generations

section Invariant

variable {env : StagingEnv} {options : EligibilityOptions} {m : EligibilityModel}
  {e : StagingArea.Event} {repository : WriteRepository}

/-- A recompute under way agrees with the overlay and with what is recorded. -/
structure Underway (env : StagingEnv) (m : EligibilityModel) (r : Recompute) : Prop where
  committed : ∀ hash, hash ∈ r.committed ↔ m.staging.repository.overlayStorePaths.has
    (m.staging.repository.currentGeneration, hash) = true
  sound : Recompute.Sound (fun x => decide (x ∈ m.reported)) (fun _ => True) r
  candidates : ∀ c ∈ r.candidates, ∃ text info,
    Recording env m.staging.repository c.storePathHash text info ∧
      ∀ reference ∈ info.references, reference ∈ c.references

structure Consistent (env : StagingEnv) (m : EligibilityModel) : Prop where
  hashes : ∀ u ∈ m.staging.uploads.rows, isStorePathHash u.hash = true
  recorded : ∀ n ∈ m.staging.repository.stagedNarInfos.rows, ∃ text info,
    Recording env m.staging.repository n.storePathHash text info
  current : Current m.staging.repository
  underway : ∀ r, m.recompute = some r → Underway env m r
  generations : ∀ generation, KeptGeneration env m generation

theorem Stepped.generations {s : StagingArea} (h : Stepped env s e repository) :
    Prunes s.repository repository := by
  cases h with
  | keep hkeep => exact hkeep.prunes
  | insert hu he hphase hinsert => exact .of_same rfl rfl rfl
  | nar hroute hinsert => exact .of_same rfl rfl rfl
  | @discard route =>
    obtain ⟨stagedBlobs, hfinal, -⟩ := discard_rows route s.repository
    rw [hfinal]
    exact .of_same rfl rfl rfl
  | @record u text info removes hu he hphase hparse hhash =>
    obtain ⟨t, hrun, hrecorded⟩ := WriteRepository.recordNarInfo_run u.route info s.repository
    obtain ⟨stagedNarInfos, stagedReferences, hrest⟩ := hrecorded.rest
    rw [hrun]
    change Prunes s.repository t
    rw [hrest]
    exact .of_same rfl rfl rfl

theorem Stepped.recorded {s : StagingArea} (hinjective : Function.Injective env.digest)
    (hhashes : ∀ u ∈ s.uploads.rows, isStorePathHash u.hash = true)
    (hrecorded : ∀ n ∈ s.repository.stagedNarInfos.rows, ∃ text info,
      Recording env s.repository n.storePathHash text info)
    (hstep : Stepped env s e repository) (hkeeps : KeepsRecords env s e) :
    ∀ n ∈ repository.stagedNarInfos.rows, ∃ text info,
      Recording env repository n.storePathHash text info := by
  have hold : ∀ n ∈ s.repository.stagedNarInfos.rows, ∃ text info,
      Recording env repository n.storePathHash text info := by
    intro n hn
    obtain ⟨text, info, hrecording⟩ := hrecorded n hn
    exact ⟨text, info, hrecording.stepped hinjective hstep hkeeps⟩
  cases hstep with
  | keep hkeep =>
    rw [hkeep.stagedNarInfos]
    exact hold
  | insert hu he hphase hinsert => exact hold
  | nar hroute hinsert => exact hold
  | @discard route =>
    obtain ⟨stagedBlobs, hfinal, -⟩ := discard_rows route s.repository
    rw [hfinal] at hold ⊢
    exact hold
  | @record u text info removes hu he hphase hparse hhash =>
    subst he
    obtain ⟨t, hrun, hrecord⟩ := WriteRepository.recordNarInfo_run u.route info s.repository
    obtain ⟨hrow, hurl⟩ := hkeeps u hu text (by rw [hphase]; rfl) info hparse hhash rfl
    rw [hrun] at hold ⊢
    change ∀ n ∈ t.stagedNarInfos.rows, ∃ text info, Recording env t n.storePathHash text info
    intro n hn
    by_cases hsame : info.storePathHash = n.storePathHash
    · have hvalid := hhashes u (Table.find?_eq_some.mp hu).1
      rw [← hsame, hhash]
      exact ⟨text, info, recording_recorded hvalid hparse hhash hurl hrow hrecord⟩
    · rw [Table.mem_iff_find?, hrecord.narInfos, if_neg hsame, Option.filter_eq_some_iff,
        ← Table.mem_iff_find?] at hn
      exact hold n hn.1

theorem staging_consistent (hinjective : Function.Injective env.digest) (h : Consistent env m)
    (he : ∀ hashes, e ≠ .commitOverlay hashes) (hkeeps : KeepsRecords env m.staging e) :
    Consistent env { m with
      staging := m.staging.step env e
      recompute := if ends e then none else m.recompute } := by
  have heffect := step_effect env m.staging e he
  have hprunes := heffect.repository.generations
  refine ⟨heffect.hashes h.hashes,
    heffect.repository.recorded hinjective h.hashes h.recorded hkeeps,
    hprunes.current h.current, ?_, ?_⟩
  · intro r hr
    have hr : m.recompute = some r := by
      by_cases hends : ends e = true
      · simp [hends] at hr
      · simpa [hends] using hr
    obtain ⟨hcommitted, hsound, hcandidates⟩ := h.underway r hr
    refine ⟨?_, hsound, ?_⟩
    · intro hash
      rw [hcommitted]
      exact (hprunes.currentPaths hash).symm
    · intro c hc
      obtain ⟨text, info, hrecording, hreferences⟩ := hcandidates c hc
      exact ⟨text, info, hrecording.stepped hinjective heffect.repository hkeeps, hreferences⟩
  · intro generation
    obtain ⟨-, keep, -, hentries, hpaths⟩ := hprunes
    exact (h.generations generation).pruned hentries hpaths rfl

theorem Consistent.recomputing (h : Consistent env m) {n : EligibilityModel}
    (hstaging : n.staging = m.staging) (hcommits : n.commits = m.commits)
    (hunderway : ∀ r, n.recompute = some r → Underway env n r) : Consistent env n where
  hashes := hstaging ▸ h.hashes
  recorded := hstaging ▸ h.recorded
  current := hstaging ▸ h.current
  underway := hunderway
  generations generation := by
    apply (h.generations generation).congr
    · intro route
      rw [hstaging]
    · intro hash
      rw [hstaging]
    · intro c hc
      rw [hcommits]
      exact hc

theorem start_underway (h : Consistent env m) {route : String} {r : Recompute}
    (hstart : Recompute.start options m.staging.repository route = .ok r) :
    Underway env { m with recompute := some r, reported := [] } r := by
  obtain ⟨hcandidates, hcommitted, -⟩ := Recompute.start_ok hstart
  refine ⟨?_, (Recompute.start_running (fun _ => false) hstart).sound.of_found, ?_⟩
  · intro hash
    rw [hcommitted, WriteRepository.mem_overlayStorePathsOf]
  · intro c hc
    obtain ⟨n, hn, -, rfl⟩ := (WriteRepository.mem_affectedCandidates hcandidates c).mp hc
    obtain ⟨text, info, hrecording⟩ := h.recorded n hn
    refine ⟨text, info, hrecording, ?_⟩
    intro reference hreference
    exact WriteRepository.mem_referencesOf.mpr ((hrecording.references reference).mpr hreference)

theorem check_underway (h : Consistent env m) {r t : Recompute} (hr : m.recompute = some r)
    {answer : Bool}
    (htick : r.tick (fun _ => answer) m.staging.repository = .inl t) :
    Underway env { m with
      recompute := some t
      reported := m.reported ++ if answer then r.question.toList else [] } t := by
  obtain ⟨hcommitted, hsound, hcandidates⟩ := h.underway r hr
  have hticked := Recompute.tick_inl htick
  obtain ⟨hsame, hsameCommitted⟩ := hticked.reading
  refine ⟨?_, ?_, ?_⟩
  · rw [hsameCommitted]
    exact hcommitted
  · refine Recompute.tick_sound (fun _ _ => trivial) ?_ (hsound.mono ?_) hticked
    · intro reference hquestion hanswer
      simp [hquestion, hanswer]
    · intro x hx
      simp only [decide_eq_true_eq] at hx ⊢
      exact List.mem_append_left _ hx
  · rw [hsame]
    exact hcandidates

section Commit

variable {r : Recompute}

theorem Underway.admitted (h : Underway env m r)
    (hcommit : OverlayCommit r.admitted m.staging.repository repository) {hash : String}
    (hhash : hash ∈ r.admitted) : ∃ text info,
      Recording env m.staging.repository hash text info ∧
        ∀ reference ∈ info.references, reference = hash ∨
          repository.overlayStorePaths.has
            (m.staging.repository.currentGeneration + 1, reference) = true ∨
            reference ∈ m.reported := by
  obtain ⟨-, c, rfl, hgranted⟩ := h.sound.admitted hash hhash
  obtain ⟨text, info, hrecording, hreferences⟩ := h.candidates c hgranted.candidate
  refine ⟨text, info, hrecording, ?_⟩
  intro reference hreference
  rcases hgranted.closed reference (hreferences reference hreference) with hself | hknows | hlower
  · exact Or.inl hself
  · right
    left
    rw [hcommit.paths, ← h.committed]
    exact Recompute.knows_eq.mp hknows
  · exact Or.inr (Or.inr (by simpa using hlower))

theorem Underway.names (h : Underway env m r) {hash : String} (hvalid : isStorePathHash hash = true)
    (hname : Names m.staging.repository r.admitted (narInfoRoute hash)) : hash ∈ r.admitted := by
  obtain ⟨other, hother, n, hn, hroute⟩ := hname
  obtain ⟨-, c, rfl, hgranted⟩ := h.sound.admitted other hother
  obtain ⟨text, info, hrecording, -⟩ := h.candidates c hgranted.candidate
  rw [hrecording.row] at hn
  cases hn
  rcases hroute with hroute | hroute
  · rw [narInfoRoute_inj hroute]
    exact hother
  · have hurl := hrecording.url
    rw [show info.url = narInfoRoute hash from hroute.symm, isNarInfoRoute_narInfoRoute hvalid] at hurl
    exact absurd hurl (by decide)

def committed (m : EligibilityModel) (r : Recompute) (repository : WriteRepository) :
    EligibilityModel where
  staging := { m.staging with repository := repository }
  recompute := none
  reported := m.reported
  commits := m.commits ++ [⟨m.staging.repository.currentGeneration + 1, r.admitted, m.reported⟩]

theorem commit_introduced (hunderway : Underway env m r)
    (hcommit : OverlayCommit r.admitted m.staging.repository repository) {hash : String}
    (hhash : hash ∈ r.admitted) : KeptPath env (committed m r repository)
      (m.staging.repository.currentGeneration + 1) hash := by
  obtain ⟨text, info, hrecording, hreferences⟩ := hunderway.admitted hcommit hhash
  obtain ⟨row, hrow, hentry⟩ := hcommit.named (narInfoRoute hash)
    ⟨hash, hhash, _, hrecording.row, Or.inl rfl⟩
  obtain ⟨narRow, -, hnarEntry⟩ := hcommit.named info.url ⟨hash, hhash, _, hrecording.row, Or.inr rfl⟩
  refine ⟨hrecording.valid, _, text, info, hentry, hrecording.staged row hrow, hrecording.parse,
    hrecording.named, ?_, ?_⟩
  · change (repository.overlayEntries.find? _).isSome
    rw [hnarEntry]
    rfl
  · intro reference hreference
    rcases hreferences reference hreference with hself | hin | hreported
    · exact Or.inl hself
    · exact Or.inr (Or.inl hin)
    · right
      right
      exact ⟨_, List.mem_append_right _ (List.mem_singleton_self _), le_rfl, hhash, hreported⟩

theorem commit_copied (hunderway : Underway env m r)
    (hcommit : OverlayCommit r.admitted m.staging.repository repository) {hash : String}
    (hnew : hash ∉ r.admitted)
    (hold : KeptPath env m m.staging.repository.currentGeneration hash) :
    KeptPath env (committed m r repository) (m.staging.repository.currentGeneration + 1) hash := by
  obtain ⟨hvalid, entry, text, info, hentry, hdigest, hparse, hnamed, hnar, hreferences⟩ := hold
  refine ⟨hvalid, { entry with generation := m.staging.repository.currentGeneration + 1 }, text, info,
    ?_, hdigest, hparse, hnamed, ?_, ?_⟩
  · change repository.overlayEntries.find? _ = _
    rw [hcommit.copied _ fun hname => hnew (hunderway.names hvalid hname), hentry]
    rfl
  · change (repository.overlayEntries.find? _).isSome
    by_cases hname : Names m.staging.repository r.admitted info.url
    · obtain ⟨row, -, hrow⟩ := hcommit.named _ hname
      rw [hrow]
      rfl
    · rw [hcommit.copied _ hname, Option.isSome_map]
      exact hnar
  · intro reference hreference
    rcases hreferences reference hreference with hself | hin | hreported
    · exact Or.inl hself
    · exact Or.inr (Or.inl ((hcommit.paths reference).mpr (Or.inl hin)))
    · right
      right
      exact hreported.mono (fun c hc => List.mem_append_left _ hc) (Nat.le_succ _)

theorem commit_generation (h : KeptGeneration env m m.staging.repository.currentGeneration)
    (hunderway : Underway env m r)
    (hcommit : OverlayCommit r.admitted m.staging.repository repository) :
    KeptGeneration env (committed m r repository)
      (m.staging.repository.currentGeneration + 1) := by
  constructor
  · intro hash hhash
    by_cases hnew : hash ∈ r.admitted
    · exact commit_introduced hunderway hcommit hnew
    · apply commit_copied hunderway hcommit hnew
      apply h.paths
      exact ((hcommit.paths hash).mp hhash).resolve_right hnew
  · intro hash hvalid hentry
    change (repository.overlayEntries.find? _).isSome at hentry
    apply (hcommit.paths hash).mpr
    by_cases hname : Names m.staging.repository r.admitted (narInfoRoute hash)
    · exact Or.inr (hunderway.names hvalid hname)
    · left
      rw [hcommit.copied _ hname, Option.isSome_map] at hentry
      exact h.narInfos hash hvalid hentry

theorem committed_consistent (h : Consistent env m) (hunderway : Underway env m r)
    (hcommit : OverlayCommit r.admitted m.staging.repository repository) :
    Consistent env (committed m r repository) := by
  refine ⟨h.hashes, ?_, hcommit.current, by simp [committed], ?_⟩
  · intro n hn
    rw [show n ∈ (committed m r repository).staging.repository.stagedNarInfos.rows ↔
      n ∈ repository.stagedNarInfos.rows from Iff.rfl, hcommit.stagedNarInfos] at hn
    obtain ⟨text, info, hrecording⟩ := h.recorded n hn
    refine ⟨text, info, hrecording.of_rows hcommit.stagedNarInfos hcommit.stagedReferences ?_⟩
    intro row hrow
    rw [WriteRepository.lookup, show (committed m r repository).staging.repository = repository from rfl,
      hcommit.stagedBlobs] at hrow
    exact hrow
  · intro generation
    rcases Nat.lt_trichotomy generation (m.staging.repository.currentGeneration + 1) with
      hlt | heq | hgt
    · apply (h.generations generation).congr
      · intro route
        exact hcommit.older generation route (Nat.le_of_lt_succ hlt)
      · intro hash
        exact hcommit.olderPaths generation hash (Nat.le_of_lt_succ hlt)
      · intro c hc
        exact List.mem_append_left _ hc
    · rw [heq]
      exact commit_generation (h.generations _) hunderway hcommit
    · rw [← hcommit.generation] at hgt
      apply keptGeneration_of_none
      · intro route
        exact hcommit.current.entry_fresh hgt route
      · intro hash
        exact Bool.eq_false_iff.mpr (hcommit.current.path_fresh hgt hash)

theorem finish_consistent (h : Consistent env m) (hunderway : Underway env m r) :
    Consistent env (m.finish r.admitted) := by
  have hnone : Consistent env { m with recompute := none } :=
    h.recomputing rfl rfl (by simp)
  unfold finish commitOverlay
  rw [Program.bind_read_run]
  by_cases hempty : r.admitted = []
  · simp only [hempty, if_true]
    exact hnone
  · rw [if_neg hempty]
    cases hadvance : WriteRepository.advanceOverlay r.admitted m.staging.repository with
    | error e =>
      rw [Program.transaction_run_error hadvance]
      exact hnone
    | ok result =>
      obtain ⟨generation, repository⟩ := result
      obtain ⟨rfl, hcommit⟩ := WriteRepository.advanceOverlay_ok h.current hadvance
      rw [Program.transaction_run_ok hadvance]
      simp only [if_neg hempty]
      exact committed_consistent h hunderway hcommit

end Commit

/-- The condition of an action: a step of the staging area keeps the records. -/
def Keeps (env : StagingEnv) (m : EligibilityModel) : Action → Prop
  | .staging e => KeepsRecords env m.staging e
  | _ => True

theorem step_consistent (hinjective : Function.Injective env.digest) (h : Consistent env m)
    (a : Action) (hkeeps : Keeps env m a) : Consistent env (step env options m a) := by
  cases a with
  | staging e =>
    cases e with
    | commitOverlay hashes => exact h
    | _ => exact staging_consistent hinjective h (by simp) hkeeps
  | changed route =>
    simp only [step]
    split
    · exact h
    · split
      · exact h
      · next r hstart =>
        refine h.recomputing rfl rfl ?_
        intro t ht
        cases ht
        exact start_underway h hstart
  | check answer =>
    simp only [step]
    split
    · exact h
    · next r hr =>
      split
      · next t htick =>
        refine h.recomputing rfl rfl ?_
        intro u hu
        cases hu
        exact check_underway h hr htick
      · next admitted htick =>
        obtain ⟨-, -, rfl⟩ := Recompute.tick_inr htick
        exact finish_consistent h (h.underway r hr)
  | fail => exact h.recomputing rfl rfl (by simp [step])

theorem initial_consistent (capacity : ℕ) : Consistent env (initial capacity) := by
  refine ⟨?_, ?_, ?_, by simp [initial], ?_⟩
  · simp [initial, StagingArea.initial]
  · simp [initial, StagingArea.initial, WriteRepository.initial]
  · constructor <;> simp [initial, StagingArea.initial, WriteRepository.initial]
  · intro generation
    apply keptGeneration_of_none
    · intro route
      exact Table.find?_empty _
    · intro hash
      rfl

/-- As long as rows and recorded narinfos agree, every generation of the overlay is closed, whatever
the order of uploads, recomputes, commits, prunings and restarts. -/
theorem overlay_closed (hinjective : Function.Injective env.digest) (capacity : ℕ)
    (actions : List Action) (h : Always (step env options) (Keeps env) (initial capacity) actions)
    (generation : ℕ) :
    ClosedGeneration env (run (step env options) (initial capacity) actions) generation := by
  have hconsistent : Consistent env (run (step env options) (initial capacity) actions) := by
    apply run_invariant (I := Consistent env) (C := Keeps env)
    · intro m a hm hkeeps
      exact step_consistent hinjective hm a hkeeps
    · exact initial_consistent capacity
    · exact h
  exact (hconsistent.generations generation).closed hinjective

end Invariant

section Samples

open StagingArea (sampleDigest sampleDigest_injective sampleHash)

instance (env : StagingEnv) (m : EligibilityModel) : (a : Action) → Decidable (Keeps env m a)
  | .staging (.insert id) =>
    inferInstanceAs (Decidable (∀ u ∈ m.staging.uploads.find? id, u.phase = .linked →
      m.staging.repository.stagedNarInfos.find? u.hash = none))
  | .staging (.validate id records _) =>
    inferInstanceAs (Decidable (∀ u ∈ m.staging.uploads.find? id, ∀ text ∈ u.phase.text,
      ∀ info ∈ env.parseNarInfo text, info.storePathHash = u.hash → records = true →
        (m.staging.repository.lookup u.route).map StagedBlobRow.digest = some (env.digest text) ∧
          isNarInfoRoute info.url = false))
  | .staging (.put ..) | .staging (.lookup _) | .staging (.link _) | .staging (.read _)
  | .staging (.respond ..) | .staging (.abort _) | .staging (.nar _) | .staging (.commitOverlay _)
  | .staging (.background _) | .changed _ | .check _ | .fail => isTrue trivial

/-- Two narinfos of one hash, the second with a reference, and two narinfos the first of which names
the route of the second as its NAR. -/
def sampleEnv : StagingEnv where
  root := ""
  digest := sampleDigest
  parseNarInfo text :=
    if text = [1] then some ⟨sampleHash 'a', "nar/n", [], 1⟩
    else if text = [2] then some ⟨sampleHash 'a', "nar/n", [sampleHash 'c'], 1⟩
    else if text = [3] then some ⟨sampleHash 'b', narInfoRoute (sampleHash 'd'), [], 1⟩
    else if text = [4] then some ⟨sampleHash 'd', "nar/n", [sampleHash 'c'], 1⟩
    else none
  acceptable _ := true
  decodedMetadataBytes := 10
  perBodyBytes := 10
  aggregateBytes := 100

def upload (id : ℕ) (c : Char) (body : Bytes) : List Action :=
  [.staging (.put id (sampleHash c) body), .staging (.lookup id), .staging (.link id),
    .staging (.insert id)]

def validate (id : ℕ) : List Action :=
  [.staging (.read id), .staging (.validate id true true)]

def recomputing (route : String) (answer : Bool) : List Action :=
  .changed route :: List.replicate 6 (.check answer)

def sampleRun : List Action :=
  upload 1 'a' [2] ++ validate 1 ++ [Action.staging (.nar ⟨"nar/n", "digest", 1, "path"⟩)] ++
    recomputing "nar/n" true

theorem overlay_closed_sample :
    ClosedGeneration sampleEnv (run (step sampleEnv ⟨10, 10⟩) (initial 100) sampleRun) 1 := by
  have hkeeps : Always (step sampleEnv ⟨10, 10⟩) (Keeps sampleEnv) (initial 100) sampleRun := by decide +kernel
  exact overlay_closed sampleDigest_injective 100 sampleRun hkeeps 1

/-- An invalid upload is repeated before it is discarded, and its repetition discards the valid one
that has been recorded since. -/
def staleDiscard : List Action :=
  upload 1 'a' [0] ++ [Action.staging (.read 1)] ++
    [Action.staging (.put 2 (sampleHash 'a') [0]), .staging (.lookup 2), .staging (.read 2)] ++
    [Action.staging (.validate 1 true true)] ++ upload 3 'a' [1] ++ validate 3 ++
    [Action.staging (.nar ⟨"nar/n", "digest", 1, "path"⟩), .staging (.validate 2 true true)] ++
    upload 4 'a' [2] ++ recomputing "nar/n" false

def narInfoAsNar : List Action :=
  upload 1 'd' [4] ++ validate 1 ++ upload 2 'b' [3] ++ validate 2 ++
    recomputing (narInfoRoute (sampleHash 'b')) false

/-- Both runs commit a narinfo whose reference is nowhere. -/
theorem dangling_reference_committed :
    ¬ClosedGeneration sampleEnv (run (step sampleEnv ⟨10, 10⟩) (initial 100) staleDiscard) 1 ∧
      ¬ClosedGeneration sampleEnv (run (step sampleEnv ⟨10, 10⟩) (initial 100) narInfoAsNar) 1 := by
  constructor
  · intro h
    have hresolves := h.references (sampleHash 'a') ⟨sampleHash 'a', "nar/n", [sampleHash 'c'], 1⟩
      (by decide +kernel)
      ⟨⟨1, narInfoRoute (sampleHash 'a'), sampleDigest [2], 1,
        StagingArea.blobPath sampleEnv (sampleDigest [2])⟩, [2], by decide +kernel, rfl, rfl⟩
      (sampleHash 'c') (by simp)
    have hreports : (run (step sampleEnv ⟨10, 10⟩) (initial 100) staleDiscard).commits =
        [⟨1, [sampleHash 'a'], []⟩] := by decide +kernel
    rcases hresolves with hself | hin | ⟨c, hc, -, -, hreported⟩
    · exact absurd hself (by decide +kernel)
    · exact absurd hin (by decide +kernel)
    · rw [hreports, List.mem_singleton] at hc
      subst hc
      exact absurd hreported (by simp)
  · intro h
    have hresolves := h.references (sampleHash 'd') ⟨sampleHash 'd', "nar/n", [sampleHash 'c'], 1⟩
      (by decide +kernel)
      ⟨⟨1, narInfoRoute (sampleHash 'd'), sampleDigest [4], 1,
        StagingArea.blobPath sampleEnv (sampleDigest [4])⟩, [4], by decide +kernel, rfl, rfl⟩
      (sampleHash 'c') (by simp)
    have hreports : (run (step sampleEnv ⟨10, 10⟩) (initial 100) narInfoAsNar).commits =
        [⟨1, [sampleHash 'b'], []⟩] := by decide +kernel
    rcases hresolves with hself | hin | ⟨c, hc, -, -, hreported⟩
    · exact absurd hself (by decide +kernel)
    · exact absurd hin (by decide +kernel)
    · rw [hreports, List.mem_singleton] at hc
      subst hc
      exact absurd hreported (by simp)

end Samples

end EligibilityModel

end NixstrCache.Write

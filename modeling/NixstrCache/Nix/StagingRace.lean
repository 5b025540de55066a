import NixstrCache.Nix.Staging

/-!
Uploads of one route at the same time.

An upload looks its route up before it links its file and inserts its row, so that two uploads of a route may
both find it free.  The row decides between them: whatever comes past the insertion has the content of the
row.  Only a rejected upload of the same route takes the row away, its own or that of another one.
-/

namespace NixstrCache.Nix

open Durable KeyedTable Runs Persistence
open Persistence.WriteRepository (repositoryStep)

def UploadPhase.settled : UploadPhase → Bool
  | .staged _ | .validating _ | .recorded => true
  | .received | .linking | .linked => false

namespace StagingArea

variable {env : StagingEnv} {s t : StagingArea} {route : String}

def Won (s : StagingArea) (route digest : String) : Prop :=
  ∃ row ∈ s.repository.stagedBlobs.rows, row.route = route ∧ row.digest = digest

/-- No upload of the route is rejected. -/
def Spares (env : StagingEnv) (route : String) (s : StagingArea) : Event → Prop
  | .validate id records _ => ∀ u ∈ s.uploads.find? id, ∀ text ∈ u.phase.text, u.route = route →
      rejects env u text records = false
  | _ => True

instance decidableSpares (s : StagingArea) : (e : Event) → Decidable (Spares env route s e)
  | .validate id records _ => inferInstanceAs (Decidable (∀ u ∈ s.uploads.find? id,
      ∀ text ∈ u.phase.text, u.route = route → rejects env u text records = false))
  | .put .. | .lookup _ | .link _ | .insert _ | .read _ | .respond .. | .abort _ | .nar _
  | .commitOverlay _ | .background _ => isTrue trivial

/-- A step keeps the row of the route, and an upload settles on what the row has. -/
structure Settles (env : StagingEnv) (route : String) (s t : StagingArea) : Prop where
  rows : ∀ digest, s.Won route digest → t.Won route digest
  uploads : ∀ u ∈ t.uploads.rows, u.route = route → u.phase.settled = true →
    t.Won route (env.digest u.body) ∨
      ∃ w ∈ s.uploads.rows, w.route = route ∧ w.body = u.body ∧ w.phase.settled = true

theorem Won.congr {digest : String} (h : s.Won route digest)
    (hrows : t.repository.stagedBlobs = s.repository.stagedBlobs) : t.Won route digest := by
  rw [Won, hrows]
  exact h

theorem settles_of_uploads (hrows : ∀ digest, s.Won route digest → t.Won route digest)
    (huploads : ∀ u ∈ t.uploads.rows, u ∈ s.uploads.rows ∨ u.phase.settled = false) :
    Settles env route s t := by
  refine ⟨hrows, fun u hu hroute hsettled => ?_⟩
  rcases huploads u hu with hold | hnot
  · exact Or.inr ⟨u, hold, hroute, rfl, hsettled⟩
  · rw [hnot] at hsettled
    cases hsettled

theorem settles_refl (s : StagingArea) : Settles env route s s :=
  settles_of_uploads (fun _ h => h) fun _ hu => Or.inl hu

theorem settles_phase {u : NarInfoUpload} {phase : UploadPhase} (hu : u ∈ s.uploads.rows)
    (hrows : ∀ digest, s.Won route digest → t.Won route digest)
    (huploads : t.uploads = (s.setPhase u.id phase).uploads)
    (hphase : u.route = route → phase.settled = true → u.phase.settled = true ∨
      t.Won route (env.digest u.body)) : Settles env route s t := by
  refine ⟨hrows, fun v hv hroute hsettled => ?_⟩
  rw [huploads] at hv
  obtain ⟨w, hw, rfl⟩ := mem_setPhase.mp hv
  split_ifs at hroute hsettled ⊢ with hid
  · obtain rfl := Table.eq_of_key hw hu hid
    rcases hphase hroute hsettled with hold | hwon
    · exact Or.inr ⟨w, hw, hroute, rfl, hold⟩
    · exact Or.inl hwon
  · exact Or.inr ⟨w, hw, hroute, rfl, hsettled⟩

theorem settles_finish (hrows : ∀ digest, s.Won route digest → t.Won route digest)
    (huploads : t.uploads = s.uploads) (id status : ℕ) : Settles env route s (t.finish id status) := by
  refine settles_of_uploads (fun digest h => hrows digest h) fun u hu => Or.inl ?_
  rw [← huploads]
  exact (Table.mem_filter.mp hu).1

theorem lookupRoute_settles {u : NarInfoUpload} (hu : u ∈ s.uploads.rows) :
    Settles env route s (s.lookupRoute env u) := by
  unfold lookupRoute
  split
  · next existing hfound =>
    split
    · next hsame =>
      refine settles_phase hu (fun _ h => h) rfl fun hroute _ => Or.inr ?_
      obtain ⟨hmem, hkey⟩ := Table.find?_eq_some.mp hfound
      exact ⟨existing, hmem, hkey.trans hroute, hsame.1⟩
    · exact settles_finish (fun _ h => h) rfl _ _
  · exact settles_phase hu (fun _ h => h) rfl fun _ hsettled => by cases hsettled

theorem insertRow_settles {u : NarInfoUpload} (hu : u ∈ s.uploads.rows) :
    Settles env route s (s.insertRow env u) := by
  unfold insertRow
  split_ifs
  · exact settles_finish (fun _ h => h) rfl _ _
  · split
    · exact settles_finish (fun _ h => h) rfl _ _
    · next stagedBlobs hinsert =>
      have hrows := (Table.insert?_eq_some.mp hinsert).2
      refine settles_phase hu (fun digest hwon => ?_) rfl fun hroute _ => Or.inr ?_
      · obtain ⟨row, hrow, hkey⟩ := hwon
        refine ⟨row, ?_, hkey⟩
        change row ∈ stagedBlobs.rows
        rw [hrows]
        exact List.mem_append_left _ hrow
      · refine ⟨rowOf env u, ?_, hroute, rfl⟩
        change rowOf env u ∈ stagedBlobs.rows
        rw [hrows]
        exact List.mem_append_right _ (List.mem_singleton.mpr rfl)

theorem discard_won {other digest : String} (removes : Bool) (hother : other ≠ route)
    (h : s.Won route digest) : (s.discard other removes).Won route digest := by
  obtain ⟨blobFiles, hdiscard, -⟩ := discard_eq s other removes
  obtain ⟨row, hrow, hroute, hdigest⟩ := h
  rw [hdiscard]
  refine ⟨row, Table.mem_filter.mpr ⟨hrow, ?_⟩, hroute, hdigest⟩
  simpa [hroute] using hother.symm

theorem discard_uploads (s : StagingArea) (other : String) (removes : Bool) :
    (s.discard other removes).uploads = s.uploads := by
  obtain ⟨blobFiles, hdiscard, -⟩ := discard_eq s other removes
  rw [hdiscard]

theorem validate_settles {u : NarInfoUpload} (hu : u ∈ s.uploads.rows) {text : Bytes}
    (hphase : u.phase = .validating text) {records : Bool} (removes : Bool)
    (hspares : u.route = route → rejects env u text records = false) :
    Settles env route s (s.validate env u text records removes) := by
  have hrejected : ∀ status, rejects env u text records = true →
      Settles env route s ((s.discard u.route removes).finish u.id status) := by
    intro status hrejects
    have hother : u.route ≠ route := by
      intro hroute
      rw [hspares hroute] at hrejects
      cases hrejects
    exact settles_finish (fun _ => discard_won removes hother) (discard_uploads ..) _ _
  unfold validate
  split
  · next hparse => exact hrejected 503 (by simp [rejects, hparse])
  · next info hparse =>
    split_ifs with hmatch hrecords
    · exact hrejected 400 (by simp [rejects, hparse, hmatch])
    · obtain ⟨after, hrun, hrecorded⟩ := WriteRepository.recordNarInfo_run u.route info s.repository
      obtain ⟨stagedNarInfos, stagedReferences, rfl⟩ := hrecorded.rest
      refine settles_phase hu (fun digest hwon => hwon.congr ?_) rfl fun _ _ => Or.inl (by rw [hphase]; rfl)
      simp only [setPhase, hrun]
      rfl
    · exact hrejected 503 (by simp [rejects, hparse, hrecords])

theorem advance_settles {u : NarInfoUpload} (hu : u ∈ s.uploads.rows) (e : Event)
    (hspares : ∀ id records removes, e = .validate id records removes → ∀ text ∈ u.phase.text,
      u.route = route → rejects env u text records = false) :
    Settles env route s (s.advance env u e) := by
  cases e with
  | lookup id =>
    simp only [advance]
    split
    · exact lookupRoute_settles hu
    · exact settles_refl s
  | link id =>
    simp only [advance]
    split
    · exact settles_phase hu (fun _ h => h) rfl fun _ hsettled => by cases hsettled
    · exact settles_refl s
  | insert id =>
    simp only [advance]
    split
    · exact insertRow_settles hu
    · exact settles_refl s
  | read id =>
    simp only [advance]
    split
    · next path hphase =>
      unfold readText
      split
      · exact settles_finish (fun _ h => h) rfl _ _
      · exact settles_phase hu (fun _ h => h) rfl fun _ _ => Or.inl (by rw [hphase]; rfl)
    · exact settles_refl s
  | validate id records removes =>
    simp only [advance]
    split
    · next text hphase =>
      exact validate_settles hu hphase removes
        (hspares id records removes rfl text (by rw [hphase]; rfl))
    · exact settles_refl s
  | respond id ok =>
    simp only [advance]
    split
    · exact settles_finish (fun _ h => h) rfl _ _
    · exact settles_refl s
  | abort id =>
    simp only [advance]
    split
    · exact settles_finish (fun _ h => h) rfl _ _
    · exact settles_refl s
  | _ => exact settles_refl s

theorem put_settles (s : StagingArea) (id : ℕ) (hash : String) (body : Bytes) :
    Settles env route s (s.put env id hash body) := by
  unfold put
  split_ifs
  · exact settles_of_uploads (fun _ h => h) fun _ hu => Or.inl hu
  · exact settles_of_uploads (fun _ h => h) fun _ hu => Or.inl hu
  · split
    · exact settles_refl s
    · next uploads huploads =>
      refine settles_of_uploads (fun _ h => h) fun u hu => ?_
      rw [(Table.insert?_eq_some.mp huploads).2, List.mem_append, List.mem_singleton] at hu
      rcases hu with hu | rfl
      · exact Or.inl hu
      · exact Or.inr rfl

theorem step_settles (e : Event) (hspares : Spares env route s e) : Settles env route s (s.step env e) := by
  have hupload : ∀ id e, e.upload = some id → (∀ records removes, e = .validate id records removes →
      Spares env route s (.validate id records removes)) →
      Settles env route s (match e.upload.bind fun id => s.uploads.find? id with
        | none => s
        | some u => s.advance env u e) := by
    intro id e hid hvalidate
    rw [hid, Option.bind_some]
    split
    · exact settles_refl s
    · next u hu =>
      refine advance_settles (Table.find?_eq_some.mp hu).1 e fun id' records removes he => ?_
      obtain rfl : id = id' := by
        rw [he] at hid
        exact (Option.some.inj hid).symm
      exact hvalidate records removes he u hu
  cases e with
  | put id hash body => exact put_settles s id hash body
  | nar row =>
    simp only [step]
    split
    · split
      · exact settles_refl s
      · next stagedBlobs hinsert =>
        refine settles_of_uploads (fun digest hwon => ?_) fun _ hu => Or.inl hu
        obtain ⟨r, hr, hkey⟩ := hwon
        refine ⟨r, ?_, hkey⟩
        change r ∈ stagedBlobs.rows
        rw [(Table.insert?_eq_some.mp hinsert).2]
        exact List.mem_append_left _ hr
    · exact settles_refl s
  | commitOverlay hashes =>
    exact settles_of_uploads
      (fun _ h => h.congr (WriteRepository.commitOverlay_stagedBlobs hashes s.repository))
      fun _ hu => Or.inl hu
  | background l =>
    simp only [step]
    split
    · exact settles_refl s
    · next hbackground =>
      have hkeeps := WriteRepository.background_keepsCatalog env.digest env.acceptable s.repository l
        (by simpa using hbackground)
      refine settles_of_uploads (fun _ h => h.congr hkeeps.stagedBlobs) fun u hu => Or.inl ?_
      by_cases hstops : stops l = true
      · simp [hstops] at hu
      · simpa [hstops] using hu
  | validate id records removes =>
    refine hupload id (.validate id records removes) rfl fun records' removes' he => ?_
    cases he
    exact hspares
  | lookup id => exact hupload id (.lookup id) rfl (by simp)
  | link id => exact hupload id (.link id) rfl (by simp)
  | insert id => exact hupload id (.insert id) rfl (by simp)
  | read id => exact hupload id (.read id) rfl (by simp)
  | respond id ok => exact hupload id (.respond id ok) rfl (by simp)
  | abort id => exact hupload id (.abort id) rfl (by simp)

/-- Every upload of the route that has settled has the content of its row. -/
def Agreed (env : StagingEnv) (route : String) (s : StagingArea) : Prop :=
  ∀ u ∈ s.uploads.rows, u.route = route → u.phase.settled = true → s.Won route (env.digest u.body)

theorem Agreed.step (h : Agreed env route s) (e : Event) (hspares : Spares env route s e) :
    Agreed env route (s.step env e) := by
  have hstep := step_settles e hspares
  intro u hu hroute hsettled
  rcases hstep.uploads u hu hroute hsettled with hwon | ⟨w, hw, hwRoute, hbody, hwSettled⟩
  · exact hwon
  · exact hbody ▸ hstep.rows _ (h w hw hwRoute hwSettled)

theorem Won.same {digest digest' : String} (h : s.Won route digest) (h' : s.Won route digest') :
    digest = digest' := by
  obtain ⟨row, hrow, hroute, rfl⟩ := h
  obtain ⟨row', hrow', hroute', rfl⟩ := h'
  rw [Table.eq_of_key hrow hrow' (hroute.trans hroute'.symm)]

/-- In every order of the steps of all uploads, of overlay commits, publications and restarts: as long as no
upload of a route is rejected, all uploads of it that come past the insertion have one content, at whatever
times they do, and the route has this content from then on. -/
theorem one_content_wins (hinjective : Function.Injective env.digest) (capacity : ℕ) (route : String)
    (before after : List Event)
    (h : Always (step env) (Spares env route) (initial capacity) (before ++ after)) :
    let s := run (step env) (initial capacity) before
    let t := run (step env) s after
    ∀ u ∈ s.uploads.rows, u.route = route → u.phase.settled = true →
      t.Won route (env.digest u.body) ∧
        ∀ v ∈ t.uploads.rows, v.route = route → v.phase.settled = true → v.body = u.body := by
  intro s t u hu hroute hsettled
  obtain ⟨hbefore, hafter⟩ := (always_append _ _ _ _).mp h
  have hstep : ∀ s e, Agreed env route s → Spares env route s e → Agreed env route (s.step env e) :=
    fun s e hs hspares => hs.step e hspares
  have hs : Agreed env route s :=
    run_invariant hstep (fun u hu => by simp [initial] at hu) hbefore
  have ht : Agreed env route t := run_invariant hstep hs hafter
  have hwon : t.Won route (env.digest u.body) := by
    refine run_invariant (I := fun s => s.Won route (env.digest u.body)) ?_ (hs u hu hroute hsettled) hafter
    exact fun s e hs hspares => (step_settles e hspares).rows _ hs
  exact ⟨hwon, fun v hv hvRoute hvSettled => hinjective ((ht v hv hvRoute hvSettled).same hwon)⟩

theorem one_content_wins_sample :
    let s := run (step sampleEnv) (initial 100)
      [.put 1 (sampleHash 'b') [1], .put 2 (sampleHash 'b') [1], .lookup 1, .link 1, .insert 1]
    let t := run (step sampleEnv) s
      [.lookup 2, .read 1, .read 2, .validate 2 true true, .validate 1 true true, .respond 1 true]
    ∃ u ∈ s.uploads.rows, ∃ v ∈ t.uploads.rows, u.id = 1 ∧ v.id = 2 ∧ v.body = u.body ∧
      t.Won (narInfoRoute (sampleHash 'b')) (sampleEnv.digest u.body) := by
  intro s t
  let u : NarInfoUpload := ⟨1, sampleHash 'b', [1], .staged (blobPath sampleEnv (sampleDigest [1]))⟩
  let v : NarInfoUpload := ⟨2, sampleHash 'b', [1], .recorded⟩
  have hu : u ∈ s.uploads.rows := by decide +kernel
  have hv : v ∈ t.uploads.rows := by decide +kernel
  obtain ⟨hwon, hsame⟩ := one_content_wins sampleDigest_injective 100 (narInfoRoute (sampleHash 'b'))
    [.put 1 (sampleHash 'b') [1], .put 2 (sampleHash 'b') [1], .lookup 1, .link 1, .insert 1]
    [.lookup 2, .read 1, .read 2, .validate 2 true true, .validate 1 true true, .respond 1 true]
    (by decide +kernel) u hu rfl rfl
  exact ⟨u, hu, v, hv, rfl, rfl, hsame v hv rfl rfl, hwon⟩

/-- A rejected upload of the route takes the row of an accepted one with it: two uploads of one bad content
have settled, the first rejection frees the route for a good one, and the second takes the good one away. -/
example :
    let s := run (step sampleEnv) (initial 100)
      [.put 1 (sampleHash 'b') [0], .lookup 1, .link 1, .insert 1, .put 2 (sampleHash 'b') [0], .lookup 2,
        .read 1, .read 2, .validate 1 true true, .put 3 (sampleHash 'b') [1], .lookup 3, .link 3, .insert 3,
        .read 3, .validate 3 true true, .respond 3 true, .validate 2 true true]
    ⟨3, 200⟩ ∈ s.responses ∧ ∀ row ∈ s.repository.stagedBlobs.rows,
      row.route ≠ narInfoRoute (sampleHash 'b') := by
  decide +kernel

end StagingArea

end NixstrCache.Nix

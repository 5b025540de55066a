import Mathlib.Algebra.BigOperators.Group.List.Basic
import Mathlib.Algebra.Order.BigOperators.Group.Finset
import NixstrCache.Nix.NarStaging

/-!
The bytes that are staged against the aggregate limit.

A content is charged once, with the largest size under its digest.  The insertion of a narinfo is
checked against the limit; the insertion of a NAR is not.
-/

namespace NixstrCache.Nix

open Durable KeyedTable Runs Persistence
open Persistence.WriteRepository (background)

section Charge

variable {rows : List StagedBlobRow} {row : StagedBlobRow} {d : String}

def charge (rows : List StagedBlobRow) (digest : String) : ℕ :=
  ((rows.filter fun r => r.digest = digest).map StagedBlobRow.size).foldl max 0

def charged (rows : List StagedBlobRow) : ℕ :=
  ((rows.map StagedBlobRow.digest).dedup.map (charge rows)).sum

theorem StagingArea.used_eq (s : StagingArea) : s.used = charged s.repository.stagedBlobs.rows :=
  rfl

theorem charge_eq_zero (h : d ∉ rows.map StagedBlobRow.digest) : charge rows d = 0 := by
  have hnone : (rows.filter fun r => r.digest = d) = [] := by
    refine List.filter_eq_nil_iff.mpr fun r hr => ?_
    simpa using fun hdigest => h (List.mem_map.mpr ⟨r, hr, hdigest⟩)
  rw [charge, hnone]
  rfl

theorem charged_eq_sum {digests : Finset String} (h : (rows.map StagedBlobRow.digest).toFinset ⊆ digests) :
    charged rows = ∑ d ∈ digests, charge rows d := by
  have hdedup : (rows.map StagedBlobRow.digest).dedup.toFinset =
      (rows.map StagedBlobRow.digest).toFinset := by
    ext d
    rw [List.mem_toFinset, List.mem_toFinset, List.mem_dedup]
  rw [charged, ← Finset.sum_subset h fun d _ hd => charge_eq_zero fun hmem => hd (List.mem_toFinset.mpr hmem),
    ← hdedup, List.sum_toFinset _ (List.nodup_dedup _)]

theorem foldl_max_le_iff {sizes : List ℕ} {start bound : ℕ} :
    sizes.foldl max start ≤ bound ↔ start ≤ bound ∧ ∀ n ∈ sizes, n ≤ bound := by
  induction sizes generalizing start with
  | nil => simp
  | cons n sizes ih => rw [List.foldl_cons, ih, max_le_iff, List.forall_mem_cons, and_assoc]

theorem foldl_max_mono {a b : List ℕ} (h : a.Sublist b) : a.foldl max 0 ≤ b.foldl max 0 := by
  obtain ⟨-, hb⟩ := foldl_max_le_iff.mp (le_refl (b.foldl max 0))
  exact foldl_max_le_iff.mpr ⟨Nat.zero_le _, fun n hn => hb n (h.subset hn)⟩

theorem charge_sublist {rows' : List StagedBlobRow} (h : rows'.Sublist rows) (d : String) :
    charge rows' d ≤ charge rows d :=
  foldl_max_mono ((h.filter _).map _)

theorem charged_sublist {rows' : List StagedBlobRow} (h : rows'.Sublist rows) :
    charged rows' ≤ charged rows := by
  have hsubset : (rows'.map StagedBlobRow.digest).toFinset ⊆ (rows.map StagedBlobRow.digest).toFinset :=
    fun d hd => List.mem_toFinset.mpr ((h.map _).subset (List.mem_toFinset.mp hd))
  rw [charged_eq_sum hsubset, charged_eq_sum (Finset.Subset.refl _)]
  exact Finset.sum_le_sum fun d _ => charge_sublist h d

theorem charge_append (rows : List StagedBlobRow) (row : StagedBlobRow) (d : String) :
    charge (rows ++ [row]) d =
      if row.digest = d then max (charge rows d) row.size else charge rows d := by
  rw [charge, List.filter_append, List.map_append, List.foldl_append]
  by_cases hd : row.digest = d
  · simp [hd, charge]
  · simp [hd, charge]

theorem charged_append (rows : List StagedBlobRow) (row : StagedBlobRow) :
    charged (rows ++ [row]) = charged rows + (row.size - charge rows row.digest) := by
  set digests := ((rows ++ [row]).map StagedBlobRow.digest).toFinset with hdigests
  have hsubset : (rows.map StagedBlobRow.digest).toFinset ⊆ digests := by
    intro d hd
    rw [hdigests, List.map_append, List.toFinset_append]
    exact Finset.mem_union_left _ hd
  have hmem : row.digest ∈ digests := by simp [hdigests]
  rw [charged_eq_sum (Finset.Subset.refl _), charged_eq_sum hsubset, ← hdigests,
    ← Finset.add_sum_erase _ _ hmem, ← Finset.add_sum_erase _ (charge rows) hmem, charge_append, if_pos rfl]
  have hrest : ∑ d ∈ digests.erase row.digest, charge (rows ++ [row]) d =
      ∑ d ∈ digests.erase row.digest, charge rows d := by
    refine Finset.sum_congr rfl fun d hd => ?_
    rw [charge_append, if_neg (Finset.ne_of_mem_erase hd).symm]
  omega

end Charge

namespace StagingArea

variable {env : StagingEnv} {s t : StagingArea} {u : NarInfoUpload}

/-- The rows have become fewer, or what is charged is within the limit. -/
def Fits (env : StagingEnv) (s t : StagingArea) : Prop :=
  t.repository.stagedBlobs.rows.Sublist s.repository.stagedBlobs.rows ∨ t.used ≤ env.aggregateBytes

theorem Fits.of_eq (h : t.repository.stagedBlobs = s.repository.stagedBlobs) : Fits env s t :=
  Or.inl (h ▸ List.Sublist.refl _)

theorem Fits.used_le (h : Fits env s t) (hs : s.used ≤ env.aggregateBytes) :
    t.used ≤ env.aggregateBytes := by
  rcases h with hsublist | hused
  · exact (charged_sublist hsublist).trans hs
  · exact hused

theorem discard_fits (env : StagingEnv) (s : StagingArea) (route : String) (removes : Bool) :
    Fits env s (s.discard route removes) := by
  obtain ⟨files, hdiscard, -⟩ := discard_eq s route removes
  rw [hdiscard]
  exact Or.inl List.filter_sublist

theorem insertRow_fits (s : StagingArea) (u : NarInfoUpload) : Fits env s (s.insertRow env u) := by
  unfold insertRow
  split_ifs with hlimit
  · exact .of_eq rfl
  · split
    · exact .of_eq rfl
    · next stagedBlobs hinsert =>
      have hrows : stagedBlobs.rows = s.repository.stagedBlobs.rows ++ [rowOf env u] :=
        (Table.insert?_eq_some.mp hinsert).2
      have hcharged := charged_append s.repository.stagedBlobs.rows (rowOf env u)
      rw [← hrows] at hcharged
      refine Or.inr (hcharged.le.trans ?_)
      have hbody : (rowOf env u).size = u.body.length := rfl
      rw [used_eq] at hlimit
      omega

theorem validate_fits (s : StagingArea) (u : NarInfoUpload) (text : Bytes) (records removes : Bool) :
    Fits env s (s.validate env u text records removes) := by
  unfold validate
  split
  · exact discard_fits env s u.route removes
  · next info _ =>
    split_ifs
    · exact discard_fits env s u.route removes
    · obtain ⟨repository, hrun, hrecorded⟩ :=
        WriteRepository.recordNarInfo_run u.route info s.repository
      obtain ⟨stagedNarInfos, stagedReferences, rfl⟩ := hrecorded.rest
      refine .of_eq ?_
      rw [hrun]
      rfl
    · exact discard_fits env s u.route removes

theorem advance_fits (s : StagingArea) (u : NarInfoUpload) (e : Event) :
    Fits env s (s.advance env u e) := by
  unfold advance
  split
  · split_ifs
    · unfold lookupRoute
      split
      · split_ifs <;> exact .of_eq rfl
      · exact .of_eq rfl
    · exact .of_eq rfl
  · split_ifs <;> exact .of_eq rfl
  · split_ifs
    · exact insertRow_fits s u
    · exact .of_eq rfl
  · split
    · unfold readText
      split <;> exact .of_eq rfl
    · exact .of_eq rfl
  · split
    · exact validate_fits s u _ _ _
    · exact .of_eq rfl
  · split_ifs <;> exact .of_eq rfl
  · split_ifs <;> exact .of_eq rfl
  · exact .of_eq rfl

theorem step_fits (s : StagingArea) {e : Event} (hnar : ∀ row, e ≠ .nar row) :
    Fits env s (s.step env e) := by
  cases e with
  | put id hash body =>
    simp only [step, put]
    split_ifs
    · exact .of_eq rfl
    · exact .of_eq rfl
    · split <;> exact .of_eq rfl
  | nar row => exact absurd rfl (hnar row)
  | commitOverlay hashes => exact .of_eq (WriteRepository.commitOverlay_stagedBlobs hashes s.repository)
  | background l =>
    simp only [step]
    split_ifs with hbackground
    · exact .of_eq rfl
    · exact .of_eq (WriteRepository.background_keepsCatalog env.digest env.acceptable s.repository l
        (by simpa using hbackground)).stagedBlobs
    · exact .of_eq (WriteRepository.background_keepsCatalog env.digest env.acceptable s.repository l
        (by simpa using hbackground)).stagedBlobs
  | _ =>
    simp only [step]
    split
    · exact .of_eq rfl
    · exact advance_fits s _ _

end StagingArea

namespace NarStaging

variable {env : NarEnv} {l : NarLabel} {s : NarStaging} {u : NarUpload}

/-- An event brings the upload of a NAR to the insertion of its row. -/
structure Inserts (env : NarEnv) (s : NarStaging) (l : NarLabel) (u : NarUpload) : Prop where
  event : l.event = .resume u.id
  found : s.nars.find? u.id = some u
  ended : u.phase = .resuming none
  absent : s.area.repository.lookup u.route = none
  committed : ((BlobStore.commitRoute l.fails l.now u.route u.received.length u.components
    (.upload u.owner)).run s.blobs).result = .ok ()
  components : u.components ≠ []

/-- A NAR whose row is inserted fits the limit, as far as its content is not charged already. -/
def NarFits (env : NarEnv) (s : NarStaging) (l : NarLabel) : Prop :=
  ∀ u, Inserts env s l u → s.area.used +
    (u.received.length - charge s.area.repository.stagedBlobs.rows (env.digest u.received)) ≤
      env.aggregateBytes

theorem settle_staged (env : NarEnv) (s : NarStaging) (hevent : l.event = .resume u.id)
    (hfound : s.nars.find? u.id = some u) (hended : u.phase = .resuming none) :
    ¬Inserts env s l u ∧
        (s.settle env l u).area.repository.stagedBlobs = s.area.repository.stagedBlobs ∨
      Inserts env s l u ∧ (s.settle env l u).area.used = s.area.used +
        (u.received.length - charge s.area.repository.stagedBlobs.rows (env.digest u.received)) := by
  unfold settle
  split
  · next existing hlookup =>
    refine Or.inl ⟨fun h => ?_, ?_⟩
    · have habsent := h.absent
      rw [hlookup] at habsent
      cases habsent
    · split_ifs
      · dsimp only
        split
        · exact (((BlobsOnly.refl s).setBlobs _).setUpload _).stagedBlobs
        · exact (((BlobsOnly.refl s).setBlobs _).reject _).stagedBlobs
      · exact ((BlobsOnly.refl s).reject _).stagedBlobs
  · next hlookup =>
    dsimp only
    split
    · next e hfailed =>
      refine Or.inl ⟨fun h => ?_, (((BlobsOnly.refl s).setBlobs _).reject _).stagedBlobs⟩
      have hcommitted := h.committed
      rw [hfailed] at hcommitted
      cases hcommitted
    · next hcommitted =>
      split
      · next hcomponents => 
        exact Or.inl ⟨fun h => h.components hcomponents, (((BlobsOnly.refl s).setBlobs _).reject _).stagedBlobs⟩
      · next first rest hcomponents =>
        refine Or.inr ⟨⟨hevent, hfound, hended, hlookup, hcommitted, by simp [hcomponents]⟩, ?_⟩
        split
        · next hnone =>
          obtain ⟨r, hr, hkey⟩ := Table.insert?_eq_none.mp hnone
          exact absurd hkey (Table.find?_eq_none.mp hlookup r hr)
        · next stagedBlobs hinsert =>
          change charged stagedBlobs.rows = _
          rw [(Table.insert?_eq_some.mp hinsert).2]
          exact charged_append _ _

theorem advance_staged (s : NarStaging) (h : ¬(l.event = .resume u.id ∧ u.phase = .resuming none))
    (hsubject : subject l.event = some u.id) :
    (s.advance env l u).area.repository.stagedBlobs = s.area.repository.stagedBlobs := by
  unfold advance
  split
  · exact (consume_blobsOnly s _).stagedBlobs
  · split_ifs
    · rfl
    · exact (flush_blobsOnly s _).stagedBlobs
  · exact (promoted_blobsOnly s _ _).stagedBlobs
  · exact (consume_blobsOnly s _).stagedBlobs
  · next hevent hphase =>
    rw [hevent] at hsubject
    obtain rfl := Option.some.inj hsubject
    exact absurd ⟨hevent, hphase⟩ h
  · rfl
  · rfl
  · rfl
  · rfl

theorem stage_fits (s : NarStaging) (e : StagingArea.Event) :
    s.area.Fits env.toStagingEnv (s.stage env e).area := by
  unfold stage
  split
  · exact .of_eq rfl
  · split_ifs
    · exact StagingArea.step_fits s.area (by simp)
    · exact .of_eq rfl
  · dsimp only
    split_ifs
    · exact StagingArea.step_fits s.area (by simp)
    · exact StagingArea.step_fits s.area (by simp)
  · next hnar _ _ => exact StagingArea.step_fits s.area hnar

theorem discardRoute_fits (s : NarStaging) (route : String) (removes : Bool) :
    s.area.Fits env.toStagingEnv (s.discardRoute env route removes).area := by
  have hdiscard := StagingArea.discard_fits env.toStagingEnv s.area route removes
  unfold discardRoute
  split
  · exact .of_eq rfl
  · dsimp only
    split_ifs
    · exact hdiscard
    · exact hdiscard

theorem step_subject (env : NarEnv) (s : NarStaging) {id : ℕ} (hid : subject l.event = some id) :
    (s.nars.find? id = none → s.step env l = s) ∧
      ∀ u, s.nars.find? id = some u → s.step env l = s.advance env l u := by
  unfold step
  cases hevent : l.event <;> rw [hevent] at hid <;> cases hid
  all_goals
    refine ⟨fun hnone => ?_, fun u hsome => ?_⟩
    · simp only [subject, Option.bind_some, hnone]
    · simp only [subject, Option.bind_some, hsome]

theorem step_used (env : NarEnv) (s : NarStaging) (l : NarLabel) :
    (∀ u, ¬Inserts env s l u) ∧ s.area.Fits env.toStagingEnv (s.step env l).area ∨
      ∃ u, Inserts env s l u ∧ (s.step env l).area.used = s.area.used +
        (u.received.length - charge s.area.repository.stagedBlobs.rows (env.digest u.received)) := by
  by_cases hsubject : ∃ id, subject l.event = some id
  · obtain ⟨id, hid⟩ := hsubject
    obtain ⟨hidle, hadvances⟩ := step_subject env s hid
    cases hfound : s.nars.find? id with
    | none =>
      rw [hidle hfound]
      refine Or.inl ⟨fun u hu => ?_, .of_eq rfl⟩
      have hother := hid
      rw [hu.event] at hother
      obtain rfl := Option.some.inj hother
      have hfound' := hu.found
      rw [hfound] at hfound'
      cases hfound'
    | some u =>
      rw [hadvances u hfound]
      obtain ⟨-, rfl⟩ := Table.find?_eq_some.mp hfound
      by_cases hend : l.event = .resume u.id ∧ u.phase = .resuming none
      · have hadvance : s.advance env l u = s.settle env l u := by
          unfold advance
          rw [hend.1, hend.2]
        rw [hadvance]
        rcases settle_staged env s hend.1 hfound hend.2 with ⟨hnot, hsame⟩ | ⟨hinserts, hused⟩
        · refine Or.inl ⟨fun v hv => ?_, .of_eq hsame⟩
          have hother := hid
          rw [hv.event] at hother
          have hsome := hv.found
          rw [Option.some.inj hother, hfound] at hsome
          obtain rfl := Option.some.inj hsome
          exact hnot hv
        · exact Or.inr ⟨u, hinserts, hused⟩
      · refine Or.inl ⟨fun v hv => ?_, .of_eq (advance_staged s hend hid)⟩
        have hother := hid
        rw [hv.event] at hother
        have hsome := hv.found
        rw [Option.some.inj hother, hfound] at hsome
        obtain rfl := Option.some.inj hsome
        exact hend ⟨hv.event, hv.ended⟩
  · refine Or.inl ⟨fun u hu => hsubject ⟨u.id, by rw [hu.event]; rfl⟩, ?_⟩
    unfold step
    split
    · exact stage_fits s _
    · unfold reserveBody
      split_ifs <;> exact .of_eq rfl
    · split_ifs <;> exact .of_eq rfl
    · unfold put
      split_ifs
      · exact .of_eq rfl
      · exact .of_eq rfl
      · split <;> exact .of_eq rfl
    · exact discardRoute_fits s _ _
    · have hnone : subject l.event = none :=
        Option.eq_none_iff_forall_ne_some.mpr fun id hid => hsubject ⟨id, hid⟩
      rw [hnone]
      exact .of_eq rfl

/-- In every run the staged bytes stay within the limit exactly as long as every NAR fits what is left
when its row is inserted. -/
theorem staging_within_quota (env : NarEnv) (capacity : ℕ) (labels : List NarLabel) :
    (∀ n, (run (step env) (initial capacity) (labels.take n)).area.used ≤ env.aggregateBytes) ↔
      Always (step env) (NarFits env) (initial capacity) labels := by
  refine invariant_iff_always (I := fun s : NarStaging => s.area.used ≤ env.aggregateBytes) (fun s l hs => ?_)
    (Nat.zero_le _)
  rcases step_used env s l with ⟨hnone, hfits⟩ | ⟨u, hinserts, hused⟩
  · exact ⟨fun _ u hu => absurd hu (hnone u), fun _ => hfits.used_le hs⟩
  · rw [hused]
    refine ⟨fun hle v hv => ?_, fun h => h u hinserts⟩
    have hsame : v = u := by
      have hevents := hv.event.symm.trans hinserts.event
      have hfound := hv.found
      rw [NarEvent.resume.inj hevents, hinserts.found] at hfound
      exact (Option.some.inj hfound).symm
    exact hsame ▸ hle

def smallEnv : NarEnv where
  toStagingEnv := { StagingArea.sampleEnv with aggregateBytes := 5 }
  storeRoot := ""

def narLabel (event : NarEvent) : NarLabel :=
  ⟨event, 0, "token", fun _ => none⟩

def twoNars : List NarLabel :=
  [.put 1 "nar/a" "a", .chunk 1 [1, 2, 3], .done 1, .promote 1, .resume 1, .respond 1 true,
    .put 2 "nar/b" "b", .chunk 2 [4, 5, 6], .done 2, .promote 2, .resume 2, .respond 2 true].map narLabel

/-- Both uploads are accepted, and six bytes are staged. -/
theorem quota_exceeded :
    let s := run (step smallEnv) (initial 100) twoNars
    s.area.responses = [⟨1, 200⟩, ⟨2, 200⟩] ∧ smallEnv.aggregateBytes < s.area.used := by
  decide +kernel

end NarStaging

end NixstrCache.Nix

import Mathlib.Algebra.Order.Ring.Int
import Mathlib.Data.List.Count
import Mathlib.Data.List.Induction
import NixstrCache.Lib.Runs

/-!
The references of a verified blob.

The owner holds one reference and every stream another one.  The callbacks of a stream may come in any
order and any number of times, between each other and the calls of the owner.  What is behind the blob, a
lease or a file, goes with the last reference.
-/

namespace NixstrCache.Blossom

open Runs

section Model

inductive Removal where
  | lease
  | file
deriving DecidableEq, Repr

/-- A stream of a blob: whether it holds its file open, and whether it has given up its reference. -/
structure OpenStream where
  file : Bool
  released : Bool
deriving DecidableEq, Repr

structure VerifiedBlob where
  /-- Whether the blob has been made with a lease. -/
  leased : Bool
  /-- Whether giving up the lease throws. -/
  throws : Bool
  ownerReleased : Bool
  references : ℤ
  /-- `#removal` has been set. -/
  removal : Bool
  removals : List Removal
  streams : List OpenStream
deriving DecidableEq, Repr

namespace VerifiedBlob

def kind (blob : VerifiedBlob) : Removal :=
  if blob.leased then .lease else .file

def release (blob : VerifiedBlob) : VerifiedBlob :=
  let blob := { blob with references := blob.references - 1 }
  if blob.references = 0 ∧ blob.removal = false then
    { blob with removal := !(blob.leased && blob.throws), removals := blob.removals ++ [blob.kind] }
  else blob

def openStream (blob : VerifiedBlob) : Except String VerifiedBlob :=
  if blob.ownerReleased then .error "verified blob has been disposed"
  else .ok { blob with references := blob.references + 1, streams := blob.streams ++ [⟨false, false⟩] }

def dispose (blob : VerifiedBlob) : VerifiedBlob :=
  if blob.ownerReleased then blob else release { blob with ownerReleased := true }

def started (blob : VerifiedBlob) (i : ℕ) : VerifiedBlob :=
  match blob.streams[i]? with
  | none => blob
  | some stream => { blob with streams := blob.streams.set i { stream with file := true } }

/-- `finish` of a stream. -/
def finish (blob : VerifiedBlob) (i : ℕ) : VerifiedBlob :=
  match blob.streams[i]? with
  | none => blob
  | some stream =>
    if stream.released then blob
    else release { blob with streams := blob.streams.set i ⟨false, true⟩ }

end VerifiedBlob

/-- The calls of the owner and the callbacks of the streams, by the number of the stream. -/
inductive BlobEvent where
  | opened
  | dispose
  | started (i : ℕ)
  | startFailed (i : ℕ)
  | chunk (i : ℕ)
  | ended (i : ℕ)
  | readFailed (i : ℕ)
  | cancelled (i : ℕ)
deriving DecidableEq, Repr

def BlobEvent.terminal : BlobEvent → Option ℕ
  | .startFailed i => some i
  | .ended i => some i
  | .readFailed i => some i
  | .cancelled i => some i
  | _ => none

def blobStep (blob : VerifiedBlob) : BlobEvent → VerifiedBlob
  | .opened =>
    match blob.openStream with
    | .error _ => blob
    | .ok next => next
  | .dispose => blob.dispose
  | .started i => blob.started i
  | .startFailed i => blob.finish i
  | .chunk _ => blob
  | .ended i => blob.finish i
  | .readFailed i => blob.finish i
  | .cancelled i => blob.finish i

end Model

section Counting

variable {blob : VerifiedBlob} {events : List BlobEvent} {event : BlobEvent} {i : ℕ}

def VerifiedBlob.live (blob : VerifiedBlob) : ℕ :=
  blob.streams.countP fun stream => !stream.released

/-- The references are the owner's and those of the streams, and the last one has been answered. -/
structure Counted (blob : VerifiedBlob) : Prop where
  references : blob.references = (if blob.ownerReleased then 0 else 1) + blob.live
  removals : blob.removals = if blob.references = 0 then [blob.kind] else []
  removal : blob.references ≠ 0 → blob.removal = false

theorem Counted.release (h : Counted blob) {next : VerifiedBlob} (hleased : next.leased = blob.leased)
    (hreferences : next.references = blob.references) (hremoval : next.removal = blob.removal)
    (hremovals : next.removals = blob.removals) (hheld : 0 < blob.references)
    (hcount : blob.references - 1 = (if next.ownerReleased then 0 else 1) + next.live) :
    Counted next.release := by
  have hnone : blob.removals = [] := by
    rw [h.removals, if_neg hheld.ne']
  have hkind : next.kind = blob.kind := by
    rw [VerifiedBlob.kind, VerifiedBlob.kind, hleased]
  by_cases hlast : blob.references - 1 = 0
  · have hreleased : next.release = { next with
        references := next.references - 1
        removal := !(next.leased && next.throws)
        removals := next.removals ++ [next.kind] } := by
      refine if_pos ⟨?_, ?_⟩
      · dsimp only
        rw [hreferences, hlast]
      · exact hremoval.trans (h.removal hheld.ne')
    rw [hreleased]
    refine ⟨?_, ?_, fun hne => absurd ?_ hne⟩
    · dsimp only
      rw [hreferences]
      exact hcount
    · dsimp only
      rw [hreferences, if_pos hlast, hremovals, hnone]
      rfl
    · dsimp only
      rw [hreferences, hlast]
  · have hreleased : next.release = { next with references := next.references - 1 } := by
      refine if_neg fun hand => hlast ?_
      rw [← hreferences]
      exact hand.1
    rw [hreleased]
    refine ⟨?_, ?_, fun _ => ?_⟩
    · dsimp only
      rw [hreferences]
      exact hcount
    · dsimp only
      rw [hreferences, if_neg hlast, hremovals, hnone]
    · exact hremoval.trans (h.removal hheld.ne')

theorem Counted.opened (h : Counted blob) (hopen : blob.ownerReleased = false) :
    Counted { blob with references := blob.references + 1, streams := blob.streams ++ [⟨false, false⟩] } := by
  have hreferences := h.references
  rw [hopen] at hreferences
  have hpos : blob.references ≠ 0 := by
    rw [hreferences]
    simp
    omega
  have hnext : blob.references + 1 ≠ 0 := by
    rw [hreferences]
    simp
    omega
  refine ⟨?_, ?_, fun _ => h.removal hpos⟩
  · dsimp only
    rw [hopen, hreferences, VerifiedBlob.live, VerifiedBlob.live, List.countP_append]
    simp
    omega
  · dsimp only
    rw [if_neg hnext, h.removals, if_neg hpos]

theorem Counted.dispose (h : Counted blob) : Counted blob.dispose := by
  rw [VerifiedBlob.dispose]
  split_ifs with hreleased
  · exact h
  · have hreferences := h.references
    rw [if_neg hreleased] at hreferences
    refine h.release rfl rfl rfl rfl (by omega) ?_
    rw [hreferences]
    change _ = (if true = true then 0 else 1) + (blob.live : ℤ)
    simp

theorem live_set {stream : OpenStream} (h : blob.streams[i]? = some stream) (next : OpenStream) :
    (blob.streams.set i next).countP (fun stream => !stream.released) + (if stream.released then 0 else 1) =
      blob.live + if next.released then 0 else 1 := by
  obtain ⟨hi, hstream⟩ := List.getElem?_eq_some_iff.mp h
  have hmem : stream ∈ blob.streams := hstream ▸ List.getElem_mem hi
  have hpos : stream.released = false → 0 < blob.live := fun hreleased =>
    List.countP_pos_iff.mpr ⟨stream, hmem, by rw [hreleased]; rfl⟩
  rw [List.countP_set hi, hstream]
  change blob.live - _ + _ + _ = _
  cases hreleased : stream.released with
  | true => cases next.released <;> simp
  | false =>
    have hlive := hpos hreleased
    cases next.released <;> simp <;> omega

theorem Counted.started (h : Counted blob) (i : ℕ) : Counted (blob.started i) := by
  rw [VerifiedBlob.started]
  cases hstream : blob.streams[i]? with
  | none => exact h
  | some stream =>
    have hlive := live_set hstream { stream with file := true }
    refine ⟨?_, h.removals, h.removal⟩
    change blob.references = _ + (List.countP _ (blob.streams.set i _) : ℤ)
    rw [Nat.add_right_cancel hlive]
    exact h.references

theorem Counted.finish (h : Counted blob) (i : ℕ) : Counted (blob.finish i) := by
  rw [VerifiedBlob.finish]
  cases hstream : blob.streams[i]? with
  | none => exact h
  | some stream =>
    dsimp only
    split_ifs with hreleased
    · exact h
    · have hlive := live_set hstream ⟨false, true⟩
      rw [if_neg hreleased, if_pos rfl] at hlive
      have hreferences := h.references
      refine h.release rfl rfl rfl rfl ?_ ?_
      · split_ifs at hreferences
        · omega
        · omega
      · change _ = (if blob.ownerReleased = true then 0 else 1) + (List.countP _ (blob.streams.set i _) : ℤ)
        rw [hreferences]
        omega

theorem Counted.step (h : Counted blob) (event : BlobEvent) : Counted (blobStep blob event) := by
  cases event with
  | opened =>
    rw [blobStep, VerifiedBlob.openStream]
    split_ifs with hreleased
    · exact h
    · exact h.opened (Bool.eq_false_of_not_eq_true hreleased)
  | dispose => exact h.dispose
  | started i => exact h.started i
  | chunk i => exact h
  | startFailed i => exact h.finish i
  | ended i => exact h.finish i
  | readFailed i => exact h.finish i
  | cancelled i => exact h.finish i

end Counting

section History

variable {blob : VerifiedBlob} {events : List BlobEvent} {event : BlobEvent} {i : ℕ}

end History

end NixstrCache.Blossom

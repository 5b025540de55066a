import Mathlib.Algebra.Order.Ring.Int
import Mathlib.Data.List.Count
import NixstrCache.Lib.Runs
import NixstrCache.Persistence.BlobReconcile
import NixstrCache.Persistence.LiveBlobs

/-!
The leases of a response from the overlay.

A route with components is answered with a stream over their blobs.  The leases on all of them are taken
before the stream is made, and the stream gives them back at its end or when it is cancelled.  In between
the other holders of the store go on.
-/

namespace NixstrCache.Write

open Durable Persistence Persistence.BlobStore Runs

variable {Hash Content : Type} [LinearOrder Hash]

section Model

structure SignerOverlayEntry (Hash : Type) where
  route : String
  digest : String
  size : ℕ
  path : String
  components : List (RouteComponent Hash)

inductive Method where
  | get
  | head
deriving DecidableEq, Repr

/-- A lease with the number of its calls of `releaseLease`. -/
structure BlobLease (Hash : Type) where
  hash : Hash
  /-- `#store` is still set. -/
  store : Bool
  releases : ℕ
deriving DecidableEq, Repr

inductive Stage where
  | absent
  | head
  | unavailable
  | opening
  | file
  | unopened
  /-- The stream can be read; a read of the current component may be pending. -/
  | readable (pending : Bool)
  | closed
  | cancelled
  | errored
deriving DecidableEq, Repr

/-- A resolution, with what the other holders have added to the leases of each blob. -/
structure Resolution (Hash Content : Type) where
  store : BlobStore Hash Content
  stage : Stage
  leases : List (BlobLease Hash)
  index : ℕ
  /-- A reader of the component at `index` exists. -/
  current : Bool
  others : Hash → ℤ

/-- What `reader.read()` settles with; the end of a component is followed by the opening of the next. -/
inductive Answer where
  | chunk
  | done (opens : Bool)
  | failed
deriving DecidableEq, Repr

inductive ResolverEvent (Hash Content : Type) where
  | opened (succeeds : Bool)
  | pull (opens : Bool)
  | read (answer : Answer)
  | cancel
  | others (label : BlobLabel Hash Content)

structure ResolverLabel (Hash Content : Type) where
  event : ResolverEvent Hash Content
  now : ℕ
  fails : Hash → Option String

/-- `components.map`: the leases taken, and whether none was missing. -/
def acquire (now : ℕ) :
    List (RouteComponent Hash) → BlobStore Hash Content →
      Bool × List (BlobLease Hash) × BlobStore Hash Content
  | [], store => (true, [], store)
  | component :: rest, store =>
    let outcome := (lookup component.hash now).run store
    match outcome.result with
    | .ok (some _) =>
      let taken := acquire now rest (outcome.final store)
      (taken.1, ⟨component.hash, true, 0⟩ :: taken.2.1, taken.2.2)
    | _ => (false, [], outcome.final store)

/-- `release` of a lease. -/
def BlobLease.release (fails : Hash → Option String) (now : ℕ) (lease : BlobLease Hash)
    (store : BlobStore Hash Content) : Bool × BlobLease Hash × BlobStore Hash Content :=
  if lease.store then
    let outcome := (releaseLease fails now lease.hash).run store
    match outcome.result with
    | .ok _ => (true, ⟨lease.hash, false, lease.releases + 1⟩, outcome.final store)
    | .error _ => (false, { lease with releases := lease.releases + 1 }, outcome.final store)
  else (true, lease, store)

def releaseAll (fails : Hash → Option String) (now : ℕ) :
    List (BlobLease Hash) → BlobStore Hash Content →
      Bool × List (BlobLease Hash) × BlobStore Hash Content
  | [], store => (true, [], store)
  | lease :: rest, store =>
    let first := lease.release fails now store
    if first.1 then
      let others := releaseAll fails now rest first.2.2
      (others.1, first.2.1 :: others.2.1, others.2.2)
    else (false, first.2.1 :: rest, first.2.2)

namespace Resolution

/-- `resolve`, with the entry of the route in the snapshot. -/
def resolve (entry : Option (SignerOverlayEntry Hash)) (method : Method) (now : ℕ)
    (store : BlobStore Hash Content) : Resolution Hash Content :=
  match entry with
  | none => ⟨store, .absent, [], 0, false, fun _ => 0⟩
  | some entry =>
    if method = .head then ⟨store, .head, [], 0, false, fun _ => 0⟩
    else if entry.components = [] then ⟨store, .opening, [], 0, false, fun _ => 0⟩
    else
      let taken := acquire now entry.components store
      ⟨taken.2.2, if taken.1 then .readable false else .unavailable, taken.2.1, 0, false, fun _ => 0⟩

/-- `release` of the stream, after which it stops at a stage. -/
def release (s : Resolution Hash Content) (fails : Hash → Option String) (now : ℕ)
    (stage : Bool → Stage) : Resolution Hash Content :=
  let released := releaseAll fails now s.leases s.store
  { s with store := released.2.2, leases := released.2.1, current := false, stage := stage released.1 }

/-- The `while` loop of `pull` up to its next `await`. -/
def advance (s : Resolution Hash Content) (fails : Hash → Option String) (now : ℕ) (opens : Bool) :
    Resolution Hash Content :=
  match s.leases[s.index]? with
  | some lease =>
    if s.current ∨ lease.store ∧ opens then { s with current := true, stage := .readable true }
    else { s with stage := .errored }
  | none => s.release fails now fun succeeds => if succeeds then .closed else .errored

end Resolution

section Step

variable (digest : Content → Hash) (length : Content → ℕ)

def resolverStep (s : Resolution Hash Content) (label : ResolverLabel Hash Content) :
    Resolution Hash Content :=
  match label.event with
  | .opened succeeds =>
    if s.stage = .opening then { s with stage := if succeeds then .file else .unopened } else s
  | .pull opens =>
    if s.stage = .readable false then s.advance label.fails label.now opens else s
  | .read answer =>
    if s.stage = .readable true then
      match answer with
      | .chunk => { s with stage := .readable false }
      | .done opens =>
        Resolution.advance { s with current := false, index := s.index + 1 } label.fails label.now opens
      | .failed => { s with stage := .errored }
    else s
  | .cancel =>
    match s.stage with
    | .readable _ => s.release label.fails label.now fun _ => .cancelled
    | _ => s
  | .others l =>
    { s with
      store := blobStep digest length s.store l
      others := fun x => s.others x + (blobStep digest length s.store l).leases x - s.store.leases x }

end Step

/-- The leases in a list that are on a blob and not given back. -/
def heldIn (leases : List (BlobLease Hash)) (x : Hash) : ℕ :=
  leases.countP fun lease => lease.store && lease.hash = x

namespace Resolution

/-- The outcome of the resolution is known. -/
def Reported (s : Resolution Hash Content) : Prop :=
  s.stage ≠ .opening ∧ ∀ pending, s.stage ≠ .readable pending

/-- The leases that the resolution holds on a blob. -/
def held (s : Resolution Hash Content) (x : Hash) : ℕ :=
  heldIn s.leases x

/-- Each lease has been released once, and the counts are what the other holders have made of them. -/
def Returned (before : BlobStore Hash Content) (s : Resolution Hash Content) : Prop :=
  (∀ lease ∈ s.leases, lease.releases = 1) ∧
    ∀ x, (s.store.leases x : ℤ) = before.leases x + s.others x

end Resolution

/-- The other holders go on as the store allows, and give back none of these leases. -/
def Civil (digest : Content → Hash) (length : Content → ℕ) (s : Resolution Hash Content)
    (label : ResolverLabel Hash Content) : Prop :=
  match label.event with
  | .others l => l.stop = none ∧ Allowed digest length s.store l ∧
      ∀ x, s.held x ≤ (blobStep digest length s.store l).leases x
  | _ => True

/-- `lookup` finds the blob. -/
def available (store : BlobStore Hash Content) (hash : Hash) : Bool :=
  store.has hash && (store.file? hash).isSome

/-- No component is missing, or the first one is. -/
def Stocked (store : BlobStore Hash Content) (entry : Option (SignerOverlayEntry Hash))
    (method : Method) : Prop :=
  ∀ e, entry = some e → method = .get →
    (∀ component ∈ e.components, available store component.hash = true) ∨
      ∃ component ∈ e.components.head?, available store component.hash = false

/-- No component that the stream opens or reads fails. -/
def Served (s : Resolution Hash Content) (label : ResolverLabel Hash Content) : Prop :=
  match label.event with
  | .pull opens =>
    s.stage = .readable false → s.current = false → s.index < s.leases.length → opens = true
  | .read .failed => s.stage ≠ .readable true
  | .read (.done opens) => s.stage = .readable true → s.index + 1 < s.leases.length → opens = true
  | _ => True

end Model

section Store

variable {length : Content → ℕ} {s : BlobStore Hash Content} {h x : Hash} {now : ℕ}
  {fails : Hash → Option String}

theorem lookup_unavailable (hx : available s h = false) :
    ((lookup h now : StoreProgram Hash Content (Option ℕ)).run s) = ⟨[], .ok none⟩ := by
  rw [available, has] at hx
  unfold lookup
  rw [Program.bind_read_run]
  cases hrow : s.row? h with
  | none => rfl
  | some row =>
    have hmissing : ¬(row.state = .ready ∧ (s.file? h).isSome = true) := by
      rw [hrow] at hx
      simpa using hx
    dsimp only
    rw [if_neg hmissing]
    rfl

theorem lookup_available (hx : available s h = true) : ∃ size,
    (lookup h now : StoreProgram Hash Content (Option ℕ)).run s =
      ⟨[s.setLease h (s.leases h + 1), (s.setLease h (s.leases h + 1)).touch h now],
        .ok (some size)⟩ := by
  rw [available, has] at hx
  unfold lookup
  rw [Program.bind_read_run]
  cases hrow : s.row? h with
  | none => simp [hrow] at hx
  | some row =>
    have hpresent : row.state = .ready ∧ (s.file? h).isSome = true := by
      rw [hrow] at hx
      simpa using hx
    refine ⟨row.size, ?_⟩
    dsimp only
    rw [if_pos hpresent, Program.bind_commit_run, Program.bind_commit_run]
    rfl

theorem available_eq_view : available s x =
    (((s.view x).row.any fun row => row.state = .ready) && (s.view x).file.isSome) :=
  rfl

theorem touched_available :
    available ((s.setLease h (s.leases h + 1)).touch h now) x = available s x := by
  rw [available_eq_view, available_eq_view, view_touch, view_setLease, view_setLease]
  by_cases hx : x = h
  · subst hx
    rw [if_pos rfl, if_pos rfl]
    cases (s.view x).row <;> rfl
  · rw [if_neg hx, if_neg hx]

variable (now fails) in
theorem deleteView_ends (hfree : ¬(s.view h).components.Nonempty) : ∃ w,
    deleteView now fails h (s.view h) = some w ∧ w.leases = (s.view h).leases := by
  have hfree' : ¬(s.view h).deleting.components.Nonempty := hfree
  unfold deleteView
  cases hfile : (s.view h).deleting.file with
  | none => exact ⟨(s.view h).deleting.withoutRow, by simp only [removeView, hfile, if_neg hfree'], rfl⟩
  | some file =>
    have hsome : (s.view h).deleting.file.isSome = true := by rw [hfile]; rfl
    cases hfails : fails h with
    | none => exact ⟨_, removeView_removed fails now hsome hfails hfree', rfl⟩
    | some message => exact ⟨_, removeView_failed fails now hfile hfails, rfl⟩

variable (now fails h) in
theorem deleteIfUnownedWrite_ends (hs : s.Sound length) :
    let outcome := (deleteIfUnownedWrite fails now h : StoreProgram Hash Content Unit).run s
    outcome.result = .ok () ∧ ∀ x, (outcome.final s).leases x = s.leases x := by
  unfold deleteIfUnownedWrite
  rw [Program.bind_read_run]
  split_ifs with hleased howned
  · exact ⟨rfl, fun _ => rfl⟩
  · exact ⟨rfl, fun _ => rfl⟩
  · split
    · split_ifs
      · have hfree : ¬(s.view h).components.Nonempty := by
          rintro ⟨component, hcomponent⟩
          exact howned ((owned_iff s h).mpr ⟨_, (hs h).routed component hcomponent⟩)
        obtain ⟨w, hw, hleases⟩ := deleteView_ends now fails hfree
        obtain ⟨hok, hviews⟩ := (delete_acts fails now h s).2 w hw
        refine ⟨hok, fun x => ?_⟩
        have hview := congrArg View.leases (hviews x)
        by_cases hx : x = h
        · rw [if_pos hx, hleases] at hview
          exact hview.trans (congrArg s.leases hx.symm)
        · rw [if_neg hx] at hview
          exact hview
      · exact ⟨rfl, fun _ => rfl⟩
    · exact ⟨rfl, fun _ => rfl⟩

variable (now fails h) in
theorem releaseLease_ends (hs : s.Sound length) :
    let outcome := (releaseLease fails now h : StoreProgram Hash Content Unit).run s
    outcome.result = .ok () ∧ (outcome.final s).Sound length ∧
      ∀ x, (outcome.final s).leases x = if x = h then s.leases h - 1 else s.leases x := by
  have hset : (s.setLease h (s.leases h - 1)).Sound length := by
    refine each_update hs ?_ fun x => s.view_setLease h x _
    exact (hs h).unref subset_rfl (Nat.sub_le _ _) (hs h).routed
  obtain ⟨hok, hleases⟩ := deleteIfUnownedWrite_ends h now fails hset
  obtain ⟨-, hsound⟩ := (releaseLease_sound fails now h) s hs.under
  have hresult : ((releaseLease fails now h : StoreProgram Hash Content Unit).run s).result = .ok () := by
    unfold releaseLease
    rw [Program.bind_commit_run]
    exact hok
  refine ⟨hresult, (hsound () hresult).sound, fun x => ?_⟩
  have hfinal : ((releaseLease fails now h : StoreProgram Hash Content Unit).run s).final s =
      ((deleteIfUnownedWrite fails now h : StoreProgram Hash Content Unit).run
        (s.setLease h (s.leases h - 1))).final (s.setLease h (s.leases h - 1)) := by
    unfold releaseLease
    rw [Program.bind_commit_run, Outcome.final, Outcome.final, List.getLastD_cons]
  rw [hfinal, hleases]
  exact Function.update_apply _ _ _ _

variable (now h) in
theorem lookup_ends (hs : s.Sound length) (hx : available s h = true) :
    let outcome := (lookup h now : StoreProgram Hash Content (Option ℕ)).run s
    (∃ size, outcome.result = .ok (some size)) ∧ (outcome.final s).Sound length ∧
      (∀ x, available (outcome.final s) x = available s x) ∧
      ∀ x, (outcome.final s).leases x = if x = h then s.leases h + 1 else s.leases x := by
  obtain ⟨size, hrun⟩ : ∃ size, (lookup h now : StoreProgram Hash Content (Option ℕ)).run s = _ :=
    lookup_available hx
  obtain ⟨-, hsound⟩ := (lookup_sound now h) s hs.under
  intro outcome
  have hresult : outcome.result = .ok (some size) := by rw [show outcome = _ from hrun]
  refine ⟨⟨size, hresult⟩, (hsound _ hresult).sound, fun x => ?_, fun x => ?_⟩
  · rw [show outcome = _ from hrun]
    exact touched_available
  · rw [show outcome = _ from hrun]
    exact Function.update_apply _ _ _ _

end Store

section Leases

variable {length : Content → ℕ} {store : BlobStore Hash Content} {leases : List (BlobLease Hash)} {x : Hash}

def Fresh (leases : List (BlobLease Hash)) : Prop :=
  ∀ lease ∈ leases, lease.store = true ∧ lease.releases = 0

def Spent (leases : List (BlobLease Hash)) : Prop :=
  ∀ lease ∈ leases, lease.store = false ∧ lease.releases = 1

theorem heldIn_cons (lease : BlobLease Hash) (leases : List (BlobLease Hash)) :
    heldIn (lease :: leases) x =
      heldIn leases x + if (lease.store && lease.hash = x) = true then 1 else 0 := by
  rw [heldIn, List.countP_cons, heldIn]

theorem Spent.held (h : Spent leases) : heldIn leases x = 0 := by
  rw [heldIn, List.countP_eq_zero]
  intro lease hlease
  simp [(h lease hlease).1]

/-- What `components.map` leaves of a sound store. -/
structure Taken (length : Content → ℕ) (store : BlobStore Hash Content)
    (components : List (RouteComponent Hash)) (taken : Bool × List (BlobLease Hash) × BlobStore Hash Content) :
    Prop where
  sound : taken.2.2.Sound length
  fresh : Fresh taken.2.1
  counts : ∀ x, taken.2.2.leases x = store.leases x + heldIn taken.2.1 x
  complete : taken.1 = true ↔ ∀ component ∈ components, available store component.hash = true
  empty : taken.2.1 = [] ↔ ∀ component ∈ components.head?, available store component.hash = false

theorem acquire_taken (hs : store.Sound length) (now : ℕ) (components : List (RouteComponent Hash)) :
    Taken length store components (acquire now components store) := by
  induction components generalizing store with
  | nil =>
    rw [acquire]
    refine ⟨hs, ?_, fun _ => rfl, ?_, ?_⟩
    · intro lease hlease
      exact nomatch hlease
    · simp
    · simp
  | cons component rest ih =>
    cases hx : available store component.hash with
    | false =>
      have hrun : (lookup component.hash now : StoreProgram Hash Content (Option ℕ)).run store =
          ⟨[], .ok none⟩ := lookup_unavailable hx
      have hacquire : acquire now (component :: rest) store = (false, [], store) := by
        simp only [acquire, hrun]
        rfl
      rw [hacquire]
      refine ⟨hs, ?_, fun _ => rfl, ?_, ?_⟩
      · intro lease hlease
        exact nomatch hlease
      · simp [hx]
      · simp [hx]
    | true =>
      obtain ⟨⟨size, hresult⟩, hsound, havailable, hleases⟩ := lookup_ends component.hash now hs hx
      have htaken := ih hsound
      simp only [acquire, hresult]
      refine ⟨htaken.sound, ?_, fun y => ?_, ?_, ?_⟩
      · intro lease hlease
        rcases List.mem_cons.mp hlease with rfl | hlease
        · exact ⟨rfl, rfl⟩
        · exact htaken.fresh lease hlease
      · rw [heldIn_cons, htaken.counts, hleases]
        by_cases hy : y = component.hash
        · simp [hy]
          omega
        · simp [hy, Ne.symm hy]
      · rw [htaken.complete]
        simp [hx, havailable]
      · simp [hx]

theorem releaseAll_spent (fails : Hash → Option String) (now : ℕ) {leases : List (BlobLease Hash)}
    (hs : store.Sound length) (hfresh : Fresh leases) (hheld : ∀ x, heldIn leases x ≤ store.leases x) :
    let released := releaseAll fails now leases store
    released.1 = true ∧ Spent released.2.1 ∧ released.2.2.Sound length ∧
      ∀ x, released.2.2.leases x + heldIn leases x = store.leases x := by
  induction leases generalizing store with
  | nil =>
    refine ⟨rfl, ?_, hs, fun _ => rfl⟩
    intro lease hlease
    exact nomatch hlease
  | cons lease rest ih =>
    obtain ⟨hstore, hreleases⟩ := hfresh lease (by simp)
    obtain ⟨hok, hsound, hcounts⟩ := releaseLease_ends lease.hash now fails hs
    have hone : lease.release fails now store = (true, ⟨lease.hash, false, 1⟩,
        ((releaseLease fails now lease.hash).run store).final store) := by
      simp only [BlobLease.release, if_pos hstore, hok, hreleases]
    have hrest : ∀ x, heldIn rest x ≤
        (((releaseLease fails now lease.hash).run store).final store).leases x := by
      intro x
      have hx := hheld x
      rw [heldIn_cons] at hx
      rw [hcounts]
      by_cases hxl : x = lease.hash
      · simp [hstore, hxl] at hx ⊢
        omega
      · simp [hstore, hxl, Ne.symm hxl] at hx ⊢
        exact hx
    obtain ⟨hsucceeds, hspent, hsound', hcounts'⟩ :=
      ih hsound (fun other hother => hfresh other (List.mem_cons_of_mem _ hother)) hrest
    have hall : releaseAll fails now (lease :: rest) store =
        ((releaseAll fails now rest
          (((releaseLease fails now lease.hash).run store).final store)).1,
          ⟨lease.hash, false, 1⟩ :: (releaseAll fails now rest
            (((releaseLease fails now lease.hash).run store).final store)).2.1,
          (releaseAll fails now rest
            (((releaseLease fails now lease.hash).run store).final store)).2.2) := by
      rw [releaseAll, hone]
      rfl
    rw [hall]
    refine ⟨hsucceeds, ?_, hsound', fun x => ?_⟩
    · intro other hother
      rcases List.mem_cons.mp hother with rfl | hother
      · exact ⟨rfl, rfl⟩
      · exact hspent other hother
    · have hx := hcounts' x
      have hfull := hheld x
      rw [hcounts] at hx
      rw [heldIn_cons] at hfull ⊢
      by_cases hxl : x = lease.hash
      · simp [hstore, hxl] at hx hfull ⊢
        omega
      · simp [hstore, hxl, Ne.symm hxl] at hx ⊢
        exact hx

end Leases

section Runs

variable {digest : Content → Hash} {length : Content → ℕ} {before : BlobStore Hash Content}
  {s : Resolution Hash Content} {label : ResolverLabel Hash Content}
  {labels : List (ResolverLabel Hash Content)}

/-- The leases at a stage. -/
def Stage.Fits (leases : List (BlobLease Hash)) : Stage → Prop
  | .readable _ | .errored => leases ≠ [] ∧ Fresh leases
  | .closed | .cancelled => Spent leases
  | .unavailable => Fresh leases
  | .absent | .head | .opening | .file | .unopened => leases = []

structure Counted (length : Content → ℕ) (before : BlobStore Hash Content)
    (s : Resolution Hash Content) : Prop where
  sound : s.store.Sound length
  counts : ∀ x, (s.store.leases x : ℤ) = before.leases x + s.others x + s.held x
  held : ∀ x, s.held x ≤ s.store.leases x
  fits : s.stage.Fits s.leases

theorem resolve_counted (hs : before.Sound length) (entry : Option (SignerOverlayEntry Hash))
    (method : Method) (now : ℕ) : Counted length before (.resolve entry method now before) := by
  have hnone : ∀ stage : Stage, stage.Fits ([] : List (BlobLease Hash)) →
      Counted length before ⟨before, stage, [], 0, false, fun _ => 0⟩ := by
    intro stage hfits
    exact ⟨hs, fun x => by simp [Resolution.held, heldIn], fun x => Nat.zero_le _, hfits⟩
  unfold Resolution.resolve
  cases entry with
  | none => exact hnone .absent rfl
  | some entry =>
    dsimp only
    by_cases hhead : method = .head
    · rw [if_pos hhead]
      exact hnone .head rfl
    rw [if_neg hhead]
    by_cases hempty : entry.components = []
    · rw [if_pos hempty]
      exact hnone .opening rfl
    rw [if_neg hempty]
    have htaken := acquire_taken hs now entry.components
    refine ⟨htaken.sound, fun x => ?_, fun x => ?_, ?_⟩
    · have hx := htaken.counts x
      simp only [Resolution.held]
      omega
    · exact (htaken.counts x).symm ▸ Nat.le_add_left _ _
    · dsimp only
      split_ifs with hcomplete
      · refine ⟨fun hnil => ?_, htaken.fresh⟩
        obtain ⟨first, rest, hcomponents⟩ := List.exists_cons_of_ne_nil hempty
        have hfirst := htaken.empty.mp hnil first (by rw [hcomponents]; rfl)
        have hall := htaken.complete.mp hcomplete first (by rw [hcomponents]; simp)
        rw [hfirst] at hall
        cases hall
      · exact htaken.fresh

theorem Counted.released (h : Counted length before s) (hfresh : Fresh s.leases)
    (fails : Hash → Option String) (now : ℕ) (stage : Bool → Stage)
    (hstage : ∀ leases : List (BlobLease Hash), Spent leases → (stage true).Fits leases) :
    Counted length before (s.release fails now stage) ∧
      (s.release fails now stage).stage = stage true := by
  obtain ⟨hok, hspent, hsound, hcounts⟩ := releaseAll_spent fails now h.sound hfresh h.held
  have hend : (s.release fails now stage).stage = stage true := by
    simp only [Resolution.release, hok]
  refine ⟨⟨hsound, fun x => ?_, fun x => ?_, ?_⟩, hend⟩
  · have hx := hcounts x
    have hbefore := h.counts x
    have hnone : (s.release fails now stage).held x = 0 := hspent.held
    rw [hnone]
    simp only [Resolution.held, Resolution.release] at hbefore ⊢
    omega
  · have hnone : (s.release fails now stage).held x = 0 := hspent.held
    rw [hnone]
    exact Nat.zero_le _
  · rw [hend]
    exact hstage _ hspent

theorem Counted.advance (h : Counted length before s) (hne : s.leases ≠ []) (hfresh : Fresh s.leases)
    (fails : Hash → Option String) (now : ℕ) (opens : Bool) :
    Counted length before (s.advance fails now opens) ∧
      ((s.advance fails now opens).stage ≠ .errored ↔
        (s.current = false → s.index < s.leases.length → opens = true)) := by
  unfold Resolution.advance
  cases hlease : s.leases[s.index]? with
  | none =>
    have hlength : s.leases.length ≤ s.index := List.getElem?_eq_none_iff.mp hlease
    obtain ⟨hcounted, hstage⟩ := h.released hfresh fails now
      (fun succeeds => if succeeds then .closed else .errored) fun _ hspent => hspent
    refine ⟨hcounted, ?_⟩
    simp only [hstage]
    simp [Nat.not_lt.mpr hlength]
  | some lease =>
    have hheld := (hfresh lease (List.mem_of_getElem? hlease)).1
    have hlength := (List.getElem?_eq_some_iff.mp hlease).1
    dsimp only
    split_ifs with hgo
    · refine ⟨⟨h.sound, h.counts, h.held, ⟨hne, hfresh⟩⟩, ?_⟩
      simp only [ne_eq, reduceCtorEq, not_false_eq_true, true_iff]
      intro hcurrent _
      simpa [hcurrent, hheld] using hgo
    · refine ⟨⟨h.sound, h.counts, h.held, ⟨hne, hfresh⟩⟩, ?_⟩
      simp only [ne_eq, not_true_eq_false, false_iff]
      intro hserved
      rw [not_or] at hgo
      have hopens := hserved (by simpa using hgo.1) hlength
      exact hgo.2 ⟨hheld, hopens⟩

theorem Counted.step (h : Counted length before s) (hcivil : Civil digest length s label) :
    Counted length before (resolverStep digest length s label) ∧
      (s.stage ≠ .errored → ((resolverStep digest length s label).stage ≠ .errored ↔ Served s label)) := by
  obtain ⟨event, now, fails⟩ := label
  cases event with
  | opened succeeds =>
    rw [resolverStep]
    dsimp only
    by_cases hstage : s.stage = .opening
    · rw [if_pos hstage]
      have hempty : s.leases = [] := by
        have hfits := h.fits
        rwa [hstage] at hfits
      refine ⟨⟨h.sound, h.counts, h.held, ?_⟩, ?_⟩
      · cases succeeds <;> exact hempty
      · cases succeeds <;> simp [Served]
    · rw [if_neg hstage]
      exact ⟨h, fun hne => by simp [Served, hne]⟩
  | pull opens =>
    rw [resolverStep]
    dsimp only
    split_ifs with hstage
    · have hfits := h.fits
      rw [hstage] at hfits
      obtain ⟨hcounted, hserved⟩ := h.advance hfits.1 hfits.2 fails now opens
      refine ⟨hcounted, fun _ => hserved.trans ?_⟩
      simp [Served, hstage]
    · exact ⟨h, fun hne => by simp [Served, hne, hstage]⟩
  | read answer =>
    rw [resolverStep]
    dsimp only
    split_ifs with hstage
    · have hfits := h.fits
      rw [hstage] at hfits
      cases answer with
      | chunk => exact ⟨⟨h.sound, h.counts, h.held, hfits⟩, fun _ => by simp [Served]⟩
      | failed => exact ⟨⟨h.sound, h.counts, h.held, hfits⟩, fun _ => by simp [Served, hstage]⟩
      | done opens =>
        have hnext : Counted length before { s with current := false, index := s.index + 1 } :=
          ⟨h.sound, h.counts, h.held, h.fits⟩
        obtain ⟨hcounted, hserved⟩ := hnext.advance hfits.1 hfits.2 fails now opens
        refine ⟨hcounted, fun _ => hserved.trans ?_⟩
        simp [Served, hstage]
    · refine ⟨h, fun hne => ?_⟩
      cases answer <;> simp [Served, hne, hstage]
  | cancel =>
    rw [resolverStep]
    dsimp only
    split
    · next pending hstage =>
      have hfits := h.fits
      rw [hstage] at hfits
      obtain ⟨hcounted, hend⟩ := h.released hfits.2 fails now (fun _ => .cancelled)
        fun _ hspent => hspent
      exact ⟨hcounted, fun _ => by simp [hend, Served]⟩
    · exact ⟨h, fun hne => by simp [Served, hne]⟩
  | others l =>
    obtain ⟨hstop, hallowed, hheld⟩ := hcivil
    rw [resolverStep]
    refine ⟨⟨blobStep_sound digest length h.sound hallowed, fun x => ?_, hheld, h.fits⟩,
      fun hne => by simp [Served, hne]⟩
    have hx := h.counts x
    simp only [Resolution.held] at hx ⊢
    omega

theorem step_errored (h : s.stage = .errored) :
    (resolverStep digest length s label).stage = .errored := by
  obtain ⟨event, now, fails⟩ := label
  cases event with
  | opened succeeds => simp [resolverStep, h]
  | pull opens => simp [resolverStep, h]
  | read answer => simp [resolverStep, h]
  | cancel => simp [resolverStep, h]
  | others l => exact h

theorem step_unavailable (h : s.stage = .unavailable) :
    (resolverStep digest length s label).stage = .unavailable ∧
      (resolverStep digest length s label).leases = s.leases ∧ Served s label := by
  obtain ⟨event, now, fails⟩ := label
  cases event with
  | opened succeeds => simp [resolverStep, Served, h]
  | pull opens => simp [resolverStep, Served, h]
  | read answer => cases answer <;> simp [resolverStep, Served, h]
  | cancel => simp [resolverStep, Served, h]
  | others l => exact ⟨h, rfl, trivial⟩

theorem step_reaches_unavailable (h : (resolverStep digest length s label).stage = .unavailable) :
    s.stage = .unavailable := by
  have hadvance : ∀ (s : Resolution Hash Content) fails now opens,
      (s.advance fails now opens).stage ≠ .unavailable := by
    intro s fails now opens
    unfold Resolution.advance
    split
    · split_ifs <;> exact nofun
    · dsimp only [Resolution.release]
      split_ifs <;> exact nofun
  obtain ⟨event, now, fails⟩ := label
  by_contra hne
  cases event with
  | opened succeeds =>
    rw [resolverStep] at h
    dsimp only at h
    by_cases hstage : s.stage = .opening
    · rw [if_pos hstage] at h
      cases succeeds <;> cases h
    · rw [if_neg hstage] at h
      exact hne h
  | pull opens =>
    rw [resolverStep] at h
    dsimp only at h
    split_ifs at h
    · exact hadvance _ _ _ _ h
    · exact hne h
  | read answer =>
    rw [resolverStep] at h
    dsimp only at h
    by_cases hstage : s.stage = .readable true
    · rw [if_pos hstage] at h
      cases answer with
      | chunk => cases h
      | done opens => exact hadvance _ _ _ _ h
      | failed => cases h
    · rw [if_neg hstage] at h
      exact hne h
  | cancel =>
    rw [resolverStep] at h
    dsimp only at h
    split at h
    · cases h
    · exact hne h
  | others l => exact hne h

theorem run_errored (h : s.stage = .errored) :
    (run (resolverStep digest length) s labels).stage = .errored := by
  induction labels generalizing s with
  | nil => exact h
  | cons label labels ih => exact ih (step_errored h)

theorem run_unavailable (h : s.stage = .unavailable) :
    (run (resolverStep digest length) s labels).stage = .unavailable ∧
      (run (resolverStep digest length) s labels).leases = s.leases ∧
        Always (resolverStep digest length) Served s labels := by
  induction labels generalizing s with
  | nil => exact ⟨h, rfl, trivial⟩
  | cons label labels ih =>
    obtain ⟨hstage, hleases, hserved⟩ :
        (resolverStep digest length s label).stage = .unavailable ∧
          (resolverStep digest length s label).leases = s.leases ∧ Served s label :=
      step_unavailable h
    obtain ⟨hend, hkept, halways⟩ := ih hstage
    exact ⟨hend, hkept.trans hleases, hserved, halways⟩

theorem run_reaches_unavailable (h : s.stage ≠ .unavailable) :
    (run (resolverStep digest length) s labels).stage ≠ .unavailable := by
  induction labels generalizing s with
  | nil => exact h
  | cons label labels ih => exact ih fun hstage => h (step_reaches_unavailable hstage)

theorem Counted.after (h : Counted length before s)
    (hcivil : Always (resolverStep digest length) (Civil digest length) s labels) :
    Counted length before (run (resolverStep digest length) s labels) ∧
      (s.stage ≠ .errored → ((run (resolverStep digest length) s labels).stage ≠ .errored ↔
        Always (resolverStep digest length) Served s labels)) := by
  induction labels generalizing s with
  | nil => exact ⟨h, fun hne => iff_of_true hne trivial⟩
  | cons label labels ih =>
    obtain ⟨hlabel, hrest⟩ := hcivil
    obtain ⟨hcounted, hserved⟩ := h.step hlabel
    obtain ⟨hend, hafter⟩ := ih hcounted hrest
    refine ⟨hend, fun hne => ?_⟩
    rw [run_cons, always_cons, ← hserved hne]
    by_cases hstage : (resolverStep digest length s label).stage = .errored
    · simp [hstage, run_errored hstage]
    · rw [hafter hstage]
      simp [hstage]

theorem Counted.returned_iff (h : Counted length before s) (hreported : s.Reported) :
    s.Returned before ↔ s.stage ≠ .errored ∧ (s.stage = .unavailable → s.leases = []) := by
  have hfits := h.fits
  have hspent : Spent s.leases → s.Returned before := by
    intro hspent
    refine ⟨fun lease hlease => (hspent lease hlease).2, fun x => ?_⟩
    have hx := h.counts x
    rwa [Resolution.held, hspent.held, Nat.cast_zero, add_zero] at hx
  have hempty : s.leases = [] → s.Returned before := by
    intro hempty
    refine hspent fun lease hlease => ?_
    rw [hempty] at hlease
    exact nomatch hlease
  have hfresh : Fresh s.leases → s.Returned before → s.leases = [] := by
    intro hfresh hreturned
    rw [List.eq_nil_iff_forall_not_mem]
    intro lease hlease
    have hone := hreturned.1 lease hlease
    rw [(hfresh lease hlease).2] at hone
    cases hone
  cases hstage : s.stage with
  | readable pending => exact absurd hstage (hreported.2 pending)
  | opening => exact absurd hstage hreported.1
  | errored =>
    rw [hstage] at hfits
    simp only [ne_eq, not_true_eq_false, false_and, iff_false]
    exact fun hreturned => hfits.1 (hfresh hfits.2 hreturned)
  | unavailable =>
    rw [hstage] at hfits
    simp only [ne_eq, reduceCtorEq, not_false_eq_true, true_and, forall_const]
    exact ⟨hfresh hfits, hempty⟩
  | closed | cancelled =>
    rw [hstage] at hfits
    simpa using hspent hfits
  | absent | head | file | unopened =>
    rw [hstage] at hfits
    simpa using hempty hfits

theorem resolve_stocked (hs : before.Sound length) (entry : Option (SignerOverlayEntry Hash))
    (method : Method) (now : ℕ) :
    Stocked before entry method ↔
      ((Resolution.resolve entry method now before).stage = .unavailable →
        (Resolution.resolve entry method now before).leases = []) := by
  unfold Stocked Resolution.resolve
  cases entry with
  | none => simp
  | some entry =>
    cases method with
    | head => simp
    | get =>
      by_cases hempty : entry.components = []
      · simp [hempty]
      · have htaken := acquire_taken hs now entry.components
        simp only [Option.some.injEq, forall_eq', reduceCtorEq, if_false, if_neg hempty, forall_const]
        rw [← htaken.complete]
        cases hcomplete : (acquire now entry.components before).1 with
        | true => simp
        | false =>
          obtain ⟨first, rest, hcomponents⟩ := List.exists_cons_of_ne_nil hempty
          simp only [Bool.false_eq_true, false_or, if_false, forall_const]
          rw [htaken.empty, hcomponents]
          simp

theorem resolve_stage (entry : Option (SignerOverlayEntry Hash)) (method : Method) (now : ℕ) :
    (Resolution.resolve entry method now before).stage ≠ .errored := by
  unfold Resolution.resolve
  cases entry with
  | none => exact nofun
  | some entry =>
    dsimp only
    split_ifs <;> exact nofun

/-- When the outcome is known, the leases have been given back unless a component after the first one was
missing or the stream has failed on a component. -/
theorem overlay_leases_returned (hs : before.Sound length) (entry : Option (SignerOverlayEntry Hash))
    (method : Method) (now : ℕ) (labels : List (ResolverLabel Hash Content))
    (hcivil : Always (resolverStep digest length) (Civil digest length)
      (.resolve entry method now before) labels)
    (hreported : (run (resolverStep digest length) (.resolve entry method now before) labels).Reported) :
    (run (resolverStep digest length) (.resolve entry method now before) labels).Returned before ↔
      Stocked before entry method ∧
        Always (resolverStep digest length) Served (.resolve entry method now before) labels := by
  obtain ⟨hcounted, hserved⟩ := (resolve_counted hs entry method now).after hcivil
  rw [hcounted.returned_iff hreported, hserved (resolve_stage entry method now), and_comm,
    resolve_stocked hs entry method now]
  refine and_congr_left fun halways => ?_
  by_cases hstage : (Resolution.resolve entry method now before).stage = .unavailable
  · obtain ⟨hend, hleases, -⟩ :
        (run (resolverStep digest length) (.resolve entry method now before) labels).stage =
            .unavailable ∧
          (run (resolverStep digest length) (.resolve entry method now before) labels).leases =
            (Resolution.resolve entry method now before).leases ∧ _ := run_unavailable hstage
    rw [hleases]
    simp [hstage, hend]
  · simp [hstage, run_reaches_unavailable hstage]

end Runs

section Instances

def twoComponents : SignerOverlayEntry ℕ :=
  ⟨"nar/one.nar", "digest", 4, "staged", [⟨0, radixDigest [7, 1], 2⟩, ⟨1, radixDigest [7, 2], 2⟩]⟩

def stocked (contents : List (List ℕ)) : BlobStore ℕ (List ℕ) :=
  run (blobStep radixDigest List.length) (.empty 100)
    (contents.map fun content => ⟨.promote content .write (some (.upload "a")) "t", 1, fun _ => none, none⟩)

theorem stocked_sound (contents : List (List ℕ))
    (h : Always (blobStep radixDigest List.length) (Allowed radixDigest List.length) (.empty 100)
      (contents.map fun content =>
        ⟨.promote content .write (some (.upload "a")) "t", 1, fun _ => none, none⟩)) :
    (stocked contents).Sound List.length :=
  run_invariant (I := Sound List.length)
    (fun _ _ hs hl => blobStep_sound radixDigest List.length hs hl) (sound_empty List.length 100) h

/-- The stream over two components is read to its end. -/
def served : List (ResolverLabel ℕ (List ℕ)) :=
  [⟨.pull true, 2, fun _ => none⟩, ⟨.read .chunk, 2, fun _ => none⟩, ⟨.pull true, 2, fun _ => none⟩,
    ⟨.read (.done true), 3, fun _ => none⟩, ⟨.read .chunk, 3, fun _ => none⟩,
    ⟨.pull true, 3, fun _ => none⟩, ⟨.read (.done true), 4, fun _ => none⟩]

example : (run (resolverStep radixDigest List.length)
    (.resolve (some twoComponents) .get 2 (stocked [[7, 1], [7, 2]])) served).stage = .closed := by
  decide

theorem overlay_leases_returned_sample :
    (run (resolverStep radixDigest List.length)
      (.resolve (some twoComponents) .get 2 (stocked [[7, 1], [7, 2]])) served).Returned
        (stocked [[7, 1], [7, 2]]) :=
  (overlay_leases_returned (stocked_sound [[7, 1], [7, 2]] (by decide)) (some twoComponents) .get 2 served
    (by simp [served, Civil]) ⟨by decide, fun pending => by cases pending <;> decide⟩).mpr
    ⟨by
      intro e he _
      obtain rfl := Option.some.inj he
      exact Or.inl (by decide), by
      simp only [served, always_cons, always_nil, Served, and_true]
      decide⟩

/-- The lease on the first component stays when the second one is missing. -/
theorem overlay_lease_left : ∃ (store : BlobStore ℕ (List ℕ)) (entry : SignerOverlayEntry ℕ),
    store.Sound List.length ∧
      (Resolution.resolve (some entry) .get 2 store).Reported ∧
      ¬(Resolution.resolve (some entry) .get 2 store).Returned store := by
  refine ⟨stocked [[7, 1]], twoComponents, stocked_sound [[7, 1]] (by decide),
    ⟨by decide, fun pending => by cases pending <;> decide⟩, fun hreturned => ?_⟩
  have hone := hreturned.1 ⟨radixDigest [7, 1], true, 0⟩ (by decide)
  cases hone

end Instances

end NixstrCache.Write

import NixstrCache.Nix.NarPins

/-!
The leases on the generations of the overlay.

A narinfo takes a lease and hands it to the registry with the URL of its NAR; the request for the NAR
takes it from there, or takes one of its own, and hands it to the stream of the answer.  The requests
are cut where the handler awaits, so the registry changes and its timer fires in between.
-/

namespace NixstrCache.Nix

open KeyedTable Runs

/-- What `acquireGeneration` gives: releasing it a second time does nothing. -/
structure GenerationLease where
  id : ℕ
  generation : ℕ
deriving DecidableEq, Repr

/-- A request that reads the overlay, with the lease it has to give back. -/
inductive OverlayRequest where
  /-- A narinfo that resolves its entry and reads the text. -/
  | reading (lease : GenerationLease)
  /-- A NAR that is resolved, from the overlay when there is a lease. -/
  | resolving (method : Method) (lease : Option GenerationLease)
  | streaming (lease : Option GenerationLease)
  | finished
deriving DecidableEq, Repr

def OverlayRequest.leases : OverlayRequest → List GenerationLease
  | .reading lease => [lease]
  | .resolving _ lease | .streaming lease => lease.toList
  | .finished => []

structure OverlayHandler where
  acquired : List GenerationLease
  /-- The leases whose release has run. -/
  released : List GenerationLease
  /-- How many leases hold a generation. -/
  generationLeases : ℕ → ℕ
  signerRoutes : RouteRegistry GenerationLease
  requests : List OverlayRequest
  closed : Bool
  now : ℕ

inductive OverlayEvent where
  /-- A narinfo of the overlay is asked for, at the generation of the snapshot. -/
  | narInfo (generation : ℕ)
  /-- The entry is not resolved, its text is not read or it is no narinfo. -/
  | narInfoFailed (request : ℕ)
  | narInfoRead (request : ℕ) (url : String)
  /-- A NAR is asked for; the current generation when the overlay has its path. -/
  | nar (method : Method) (path : String) (current : Option ℕ)
  | resolveFailed (request : ℕ)
  | resolved (request : ℕ)
  | chunk (request : ℕ)
  /-- The body ends, fails or is cancelled. -/
  | terminal (request : ℕ)
  | purge
  | clock (now : ℕ)
  | close
deriving DecidableEq, Repr

def signerRouteOptions : RegistryOptions :=
  ⟨1024, 300000⟩

namespace OverlayHandler

section Model

def initial : OverlayHandler where
  acquired := []
  released := []
  generationLeases := fun _ => 0
  signerRoutes := .empty
  requests := []
  closed := false
  now := 0

def acquireGeneration (s : OverlayHandler) (generation : ℕ) : GenerationLease × OverlayHandler :=
  (⟨s.acquired.length, generation⟩,
    { s with
      acquired := s.acquired ++ [⟨s.acquired.length, generation⟩]
      generationLeases :=
        Function.update s.generationLeases generation (s.generationLeases generation + 1) })

def release (lease : GenerationLease) (s : OverlayHandler) : OverlayHandler :=
  if lease ∈ s.released then s
  else
    { s with
      released := s.released ++ [lease]
      generationLeases :=
        Function.update s.generationLeases lease.generation
          (s.generationLeases lease.generation - 1) }

def releaseAll (leases : List GenerationLease) (s : OverlayHandler) : OverlayHandler :=
  leases.foldl (fun s lease => s.release lease) s

/-- `#delete` of the registry. -/
def deleteRoute (s : OverlayHandler) (key : String) : OverlayHandler :=
  match s.signerRoutes.find? key with
  | none => s
  | some pin =>
    release pin.target { s with signerRoutes := RouteRegistry.delete key s.signerRoutes }

def deleteRoutes (s : OverlayHandler) (keys : List String) : OverlayHandler :=
  keys.foldl deleteRoute s

/-- `#purge` of the registry. -/
def purgeRoutes (s : OverlayHandler) : OverlayHandler :=
  s.deleteRoutes ((s.signerRoutes.rows.filter fun pin => pin.expiresAt ≤ s.now).map Pin.path)

/-- `set` of the registry, or `none` where it throws. -/
def setRoute (s : OverlayHandler) (path : String) (lease : GenerationLease) :
    Option OverlayHandler :=
  if s.closed then none
  else
    match normalizedNarPath path with
    | none => none
    | some key =>
      let kept := s.purgeRoutes.deleteRoute key
      let room := kept.deleteRoutes
        (RouteRegistry.evicted signerRouteOptions.maxEntries kept.signerRoutes)
      some { room with
        signerRoutes :=
          room.signerRoutes.insertOrReplace ⟨key, lease, room.now + signerRouteOptions.ttlMs⟩ }

/-- `take` of the registry. -/
def takeRoute (s : OverlayHandler) (path : String) : OverlayHandler × Option GenerationLease :=
  if s.closed then (s, none)
  else
    match normalizedNarPath path with
    | none => (s, none)
    | some key =>
      match s.signerRoutes.find? key with
      | none => (s, none)
      | some pin =>
        if pin.expiresAt ≤ s.now then (s.deleteRoute key, none)
        else ({ s with signerRoutes := RouteRegistry.delete key s.signerRoutes }, some pin.target)

/-- Where the lease of a NAR comes from: the registry, or the current generation. -/
def narLease (s : OverlayHandler) (path : String) (current : Option ℕ) :
    OverlayHandler × Option GenerationLease :=
  match s.takeRoute path with
  | (t, some lease) => (t, some lease)
  | (t, none) =>
    match current with
    | none => (t, none)
    | some generation => ((t.acquireGeneration generation).2, some (t.acquireGeneration generation).1)

def become (s : OverlayHandler) (request : ℕ) (next : OverlayRequest) : OverlayHandler :=
  { s with requests := s.requests.set request next }

def finish (s : OverlayHandler) (request : ℕ) (lease : Option GenerationLease) : OverlayHandler :=
  releaseAll lease.toList (s.become request .finished)

def arrive (s : OverlayHandler) (request : OverlayRequest) : OverlayHandler :=
  { s with requests := s.requests ++ [request] }

def overlayStep (s : OverlayHandler) : OverlayEvent → OverlayHandler
  | .narInfo generation =>
    if s.closed then s
    else (s.acquireGeneration generation).2.arrive (.reading (s.acquireGeneration generation).1)
  | .narInfoFailed request =>
    match s.requests[request]? with
    | some (.reading _) => s.become request .finished
    | _ => s
  | .narInfoRead request url =>
    match s.requests[request]? with
    | some (.reading lease) => ((s.become request .finished).setRoute url lease).getD
        (s.become request .finished)
    | _ => s
  | .nar method path current =>
    if s.closed then s
    else (s.narLease path current).1.arrive (.resolving method (s.narLease path current).2)
  | .resolveFailed request =>
    match s.requests[request]? with
    | some (.resolving _ lease) => s.finish request lease
    | _ => s
  | .resolved request =>
    match s.requests[request]? with
    | some (.resolving .head lease) => s.finish request lease
    | some (.resolving .get lease) => s.become request (.streaming lease)
    | _ => s
  | .chunk _ => s
  | .terminal request =>
    match s.requests[request]? with
    | some (.streaming lease) => s.finish request lease
    | _ => s
  | .purge => s.purgeRoutes
  | .clock now => { s with now := now }
  | .close => { s.deleteRoutes (s.signerRoutes.rows.map Pin.path) with closed := true }

/-- The leases that the requests and the registry have to give back. -/
def held (s : OverlayHandler) : List GenerationLease :=
  s.requests.flatMap OverlayRequest.leases ++ s.signerRoutes.rows.map Pin.target

/-- No request is running and the registry is empty. -/
def Quiet (s : OverlayHandler) : Prop :=
  (∀ request ∈ s.requests, request = .finished) ∧ s.signerRoutes.rows = []

/-- A narinfo that holds a lease is read, and its URL is registered. -/
def Registered (s : OverlayHandler) : OverlayEvent → Prop
  | .narInfoFailed request => ∀ lease, s.requests[request]? ≠ some (.reading lease)
  | .narInfoRead request url => ∀ lease, s.requests[request]? = some (.reading lease) →
      s.closed = false ∧ (normalizedNarPath url).isSome
  | _ => True

end Model

section Accounts

variable {s t : OverlayHandler} {out lost : List GenerationLease} {lease : GenerationLease}

/-- Every lease is held, released, or in `out`, and the counts are those of the leases that are not
released. -/
structure Owes (s : OverlayHandler) (out : List GenerationLease) : Prop where
  placed : (s.held ++ out ++ s.released).Perm s.acquired
  numbered : ∀ lease ∈ s.acquired, lease.id < s.acquired.length
  distinct : s.acquired.Nodup
  counted : ∀ generation, s.generationLeases generation =
    (s.held ++ out).countP fun lease => lease.generation = generation

theorem owes_initial : Owes initial [] :=
  ⟨.refl _, by simp [initial], List.nodup_nil, by simp [initial, held]⟩

theorem Owes.move (h : s.Owes out) (hacquired : t.acquired = s.acquired)
    (hreleased : t.released = s.released) (hcounts : t.generationLeases = s.generationLeases)
    (hheld : (t.held ++ lost).Perm (s.held ++ out)) : t.Owes lost where
  placed := by
    rw [hreleased, hacquired]
    exact (hheld.append_right s.released).trans h.placed
  numbered := by
    rw [hacquired]
    exact h.numbered
  distinct := by
    rw [hacquired]
    exact h.distinct
  counted generation := by
    rw [hcounts, h.counted generation]
    exact (hheld.countP_eq _).symm

theorem Owes.not_released (h : s.Owes (lease :: out)) : lease ∉ s.released := by
  have hnodup := h.placed.nodup_iff.mpr h.distinct
  have hdisjoint := (List.nodup_append'.mp hnodup).2.2
  exact fun hmem => hdisjoint (by simp) hmem

@[simp]
theorem release_held : (s.release lease).held = s.held := by
  unfold release
  split <;> rfl

theorem Owes.release (h : s.Owes (lease :: out)) : (s.release lease).Owes out := by
  have hheld : (s.release lease).held = s.held := release_held
  have hswap : (s.held ++ lease :: out).Perm (lease :: (s.held ++ out)) := List.perm_middle
  unfold OverlayHandler.release at hheld ⊢
  rw [if_neg h.not_released] at hheld ⊢
  refine ⟨?_, h.numbered, h.distinct, fun generation => ?_⟩
  · rw [hheld]
    calc (s.held ++ out ++ (s.released ++ [lease])).Perm (lease :: (s.held ++ out ++ s.released)) := by
          rw [← List.append_assoc]
          exact List.perm_append_singleton lease _
      _ |>.Perm (s.held ++ lease :: out ++ s.released) := (hswap.append_right s.released).symm
      _ |>.Perm s.acquired := h.placed
  · rw [hheld]
    have hcounted := h.counted generation
    rw [hswap.countP_eq, List.countP_cons] at hcounted
    by_cases hgeneration : generation = lease.generation
    · subst hgeneration
      have hone := h.counted lease.generation
      simp only [Function.update_self]
      simp only [decide_true, if_true] at hcounted
      omega
    · simp only [Function.update_of_ne hgeneration]
      simpa [Ne.symm hgeneration] using hcounted

theorem Owes.releaseAll {leases : List GenerationLease} (h : s.Owes (leases ++ out)) :
    (s.releaseAll leases).Owes out := by
  induction leases generalizing s with
  | nil => exact h
  | cons lease leases ih => exact ih (Owes.release h)

theorem Owes.acquire (h : s.Owes out) (generation : ℕ) :
    (s.acquireGeneration generation).2.Owes ((s.acquireGeneration generation).1 :: out) := by
  have hswap (lease : GenerationLease) : (s.held ++ lease :: out).Perm (lease :: (s.held ++ out)) :=
    List.perm_middle
  refine ⟨?_, ?_, ?_, fun other => ?_⟩
  · exact ((hswap _).append_right s.released).trans
      ((h.placed.cons _).trans (List.perm_append_singleton _ _).symm)
  · intro lease hlease
    simp only [acquireGeneration, List.mem_append, List.mem_singleton, List.length_append,
      List.length_singleton] at hlease ⊢
    rcases hlease with hold | rfl
    · have := h.numbered lease hold
      omega
    · exact Nat.lt_succ_self _
  · refine List.nodup_append'.mpr ⟨h.distinct, List.nodup_singleton _, fun lease hold hnew => ?_⟩
    obtain rfl := List.mem_singleton.mp hnew
    exact absurd (h.numbered _ hold) (lt_irrefl _)
  · refine Eq.trans ?_ ((hswap _).countP_eq _).symm
    rw [List.countP_cons, ← h.counted other]
    by_cases hother : other = generation
    · simp [acquireGeneration, hother]
    · simp [acquireGeneration, hother, Ne.symm hother]

end Accounts

section Registry

variable {s t : OverlayHandler} {out : List GenerationLease} {lease : GenerationLease}
  {key path : String}

theorem delete_perm {routes : RouteRegistry GenerationLease} {pin : Pin GenerationLease}
    (hpin : routes.find? key = some pin) :
    (pin :: (RouteRegistry.delete key routes).rows).Perm routes.rows := by
  obtain ⟨hmem, rfl⟩ := Table.find?_eq_some.mp hpin
  have hrows : (RouteRegistry.delete pin.path routes).rows = routes.rows.erase pin :=
    Table.filter_ne_key hmem
  rw [hrows]
  exact (List.perm_cons_erase hmem).symm

theorem Owes.take (h : s.Owes out) {pin : Pin GenerationLease}
    (hpin : s.signerRoutes.find? key = some pin) :
    Owes { s with signerRoutes := RouteRegistry.delete key s.signerRoutes } (pin.target :: out) := by
  refine h.move rfl rfl rfl (List.perm_iff_count.mpr fun lease => ?_)
  have hcount := ((delete_perm hpin).map Pin.target).count_eq lease
  simp only [held, List.count_append, List.map_cons, List.count_cons] at hcount ⊢
  omega

theorem Owes.deleteRoute (h : s.Owes out) (key : String) : (s.deleteRoute key).Owes out := by
  unfold OverlayHandler.deleteRoute
  cases hpin : s.signerRoutes.find? key with
  | none => exact h
  | some pin => exact (h.take hpin).release

theorem Owes.deleteRoutes (h : s.Owes out) (keys : List String) : (s.deleteRoutes keys).Owes out := by
  induction keys generalizing s with
  | nil => exact h
  | cons key keys ih => exact ih (h.deleteRoute key)

@[simp]
theorem release_signerRoutes : (s.release lease).signerRoutes = s.signerRoutes := by
  unfold release
  split <;> rfl

theorem find?_deleteRoute (s : OverlayHandler) (key other : String) :
    (s.deleteRoute key).signerRoutes.find? other =
      if other = key then none else s.signerRoutes.find? other := by
  unfold deleteRoute
  cases hpin : s.signerRoutes.find? key with
  | none =>
    split_ifs with hsame
    · rw [hsame]
      exact hpin
    · rfl
  | some pin =>
    rw [release_signerRoutes]
    exact Table.find?_filter_ne s.signerRoutes key other

theorem deleteRoutes_absent (habsent : s.signerRoutes.find? key = none) (keys : List String) :
    (s.deleteRoutes keys).signerRoutes.find? key = none := by
  induction keys generalizing s with
  | nil => exact habsent
  | cons other keys ih =>
    apply ih
    rw [find?_deleteRoute, habsent, ite_self]

theorem Owes.pin (h : s.Owes (lease :: out)) (habsent : s.signerRoutes.find? key = none)
    (expiresAt : ℕ) :
    Owes { s with signerRoutes := s.signerRoutes.insertOrReplace ⟨key, lease, expiresAt⟩ } out := by
  have hrows : (s.signerRoutes.insertOrReplace ⟨key, lease, expiresAt⟩).rows =
      s.signerRoutes.rows ++ [⟨key, lease, expiresAt⟩] := by
    refine congrArg (· ++ _) (List.filter_eq_self.mpr fun pin hmem => ?_)
    simpa using Table.find?_eq_none.mp habsent pin hmem
  refine h.move rfl rfl rfl (List.perm_iff_count.mpr fun other => ?_)
  simp only [held, hrows, List.map_append, List.map_cons, List.map_nil, List.count_append,
    List.count_cons, List.count_nil]
  omega

theorem setRoute_eq_none : s.setRoute path lease = none ↔
    ¬(s.closed = false ∧ (normalizedNarPath path).isSome) := by
  unfold setRoute
  cases hclosed : s.closed with
  | true => simp
  | false => cases normalizedNarPath path <;> simp

theorem Owes.setRoute (h : s.Owes (lease :: out)) (hset : s.setRoute path lease = some t) :
    t.Owes out := by
  unfold OverlayHandler.setRoute at hset
  cases hclosed : s.closed with
  | true => simp [hclosed] at hset
  | false =>
    cases hkey : normalizedNarPath path with
    | none => simp [hclosed, hkey] at hset
    | some key =>
      simp only [hclosed, hkey, Bool.false_eq_true, if_false, Option.some.injEq] at hset
      rw [← hset]
      apply Owes.pin
      · exact ((h.deleteRoutes _).deleteRoute key).deleteRoutes _
      · apply deleteRoutes_absent
        rw [find?_deleteRoute, if_pos rfl]

theorem Owes.takeRoute (h : s.Owes out) (path : String) :
    (s.takeRoute path).1.Owes ((s.takeRoute path).2.toList ++ out) := by
  unfold OverlayHandler.takeRoute
  by_cases hclosed : s.closed = true
  · rw [if_pos hclosed]
    exact h
  · rw [if_neg hclosed]
    cases normalizedNarPath path with
    | none => exact h
    | some key =>
      cases hpin : s.signerRoutes.find? key with
      | none => simpa [hpin] using h
      | some pin =>
        by_cases hexpired : pin.expiresAt ≤ s.now
        · simpa [hpin, hexpired] using h.deleteRoute key
        · simpa [hpin, hexpired] using h.take hpin

theorem Owes.narLease (h : s.Owes out) (path : String) (current : Option ℕ) :
    (s.narLease path current).1.Owes ((s.narLease path current).2.toList ++ out) := by
  have htaken := h.takeRoute path
  unfold OverlayHandler.narLease
  generalize s.takeRoute path = taken at htaken ⊢
  obtain ⟨t, _ | lease⟩ := taken
  · cases current with
    | none => exact htaken
    | some generation => exact Owes.acquire htaken generation
  · exact htaken

end Registry

section Requests

variable {s : OverlayHandler} {out lost : List GenerationLease} {request : ℕ}
  {now next : OverlayRequest}

theorem Owes.become (h : s.Owes out) (hnow : s.requests[request]? = some now)
    (hleases : (next.leases ++ lost).Perm (now.leases ++ out)) :
    (s.become request next).Owes lost := by
  obtain ⟨hlt, hget⟩ := List.getElem?_eq_some_iff.mp hnow
  obtain ⟨before, after, hsplit, -, hset⟩ : ∃ before after,
      s.requests = before ++ s.requests[request] :: after ∧ before.length = request ∧
        s.requests.set request next = before ++ next :: after := List.exists_of_set hlt
  rw [hget] at hsplit
  refine h.move rfl rfl rfl (List.perm_iff_count.mpr fun lease => ?_)
  simp only [held, OverlayHandler.become, hset]
  rw [hsplit]
  have hcount := hleases.count_eq lease
  simp only [List.flatMap_append, List.flatMap_cons, List.count_append] at hcount ⊢
  omega

theorem Owes.arrive (next : OverlayRequest) (h : s.Owes (next.leases ++ out)) :
    (s.arrive next).Owes out := by
  refine h.move rfl rfl rfl (List.perm_iff_count.mpr fun lease => ?_)
  simp only [held, OverlayHandler.arrive, List.flatMap_append, List.flatMap_cons, List.flatMap_nil,
    List.count_append, List.count_nil]
  omega

theorem Owes.finish (h : s.Owes out) (hnow : s.requests[request]? = some now)
    {lease : Option GenerationLease} (hlease : now.leases = lease.toList) :
    (s.finish request lease).Owes out := by
  apply Owes.releaseAll
  apply h.become hnow
  rw [hlease]
  exact .refl _

theorem Owes.step (h : s.Owes out) (event : OverlayEvent) :
    ∃ lost, (s.overlayStep event).Owes lost ∧ (lost = [] ↔ out = [] ∧ s.Registered event) := by
  have hkept {t : OverlayHandler} (ht : t.Owes out) (hregistered : s.Registered event) :
      ∃ lost, t.Owes lost ∧ (lost = [] ↔ out = [] ∧ s.Registered event) :=
    ⟨out, ht, by simp [hregistered]⟩
  cases event with
  | narInfo generation =>
    refine hkept ?_ trivial
    simp only [overlayStep]
    split_ifs
    · exact h
    · exact Owes.arrive (.reading _) (h.acquire generation)
  | narInfoFailed request =>
    cases hnow : s.requests[request]? with
    | none => exact hkept (by simpa [overlayStep, hnow] using h) (by simp [Registered, hnow])
    | some now =>
      cases now with
      | reading lease =>
        have hlease : (s.become request .finished).Owes (lease :: out) := h.become hnow (.refl _)
        exact ⟨lease :: out, by simpa [overlayStep, hnow] using hlease, by simp [Registered, hnow]⟩
      | resolving _ _ | streaming _ | finished =>
        exact hkept (by simpa [overlayStep, hnow] using h) (by simp [Registered, hnow])
  | narInfoRead request url =>
    cases hnow : s.requests[request]? with
    | none => exact hkept (by simpa [overlayStep, hnow] using h) (by simp [Registered, hnow])
    | some now =>
      cases now with
      | resolving _ _ | streaming _ | finished =>
        exact hkept (by simpa [overlayStep, hnow] using h) (by simp [Registered, hnow])
      | reading lease =>
        have hlease : (s.become request .finished).Owes (lease :: out) := h.become hnow (.refl _)
        have hthrows : (s.become request .finished).setRoute url lease = none ↔
            ¬(s.closed = false ∧ (normalizedNarPath url).isSome) := setRoute_eq_none
        cases hset : (s.become request .finished).setRoute url lease with
        | none =>
          refine ⟨lease :: out, by simpa [overlayStep, hnow, hset] using hlease, ?_⟩
          simpa [Registered, hnow] using fun _ => by simpa using hthrows.mp hset
        | some t =>
          refine hkept (by simpa [overlayStep, hnow, hset] using hlease.setRoute hset) fun other hother => ?_
          by_contra hbad
          rw [hthrows.mpr hbad] at hset
          cases hset
  | nar method path current =>
    refine hkept ?_ trivial
    simp only [overlayStep]
    split_ifs
    · exact h
    · exact Owes.arrive (.resolving method _) (h.narLease path current)
  | resolveFailed request =>
    refine hkept ?_ trivial
    simp only [overlayStep]
    split
    · next hnow => exact h.finish hnow rfl
    · exact h
  | resolved request =>
    refine hkept ?_ trivial
    simp only [overlayStep]
    split
    · next hnow => exact h.finish hnow rfl
    · next hnow => exact h.become hnow (.refl _)
    · exact h
  | chunk request => exact hkept h trivial
  | terminal request =>
    refine hkept ?_ trivial
    simp only [overlayStep]
    split
    · next hnow => exact h.finish hnow rfl
    · exact h
  | purge => exact hkept (h.deleteRoutes _) trivial
  | clock now => exact hkept (h.move rfl rfl rfl (.refl _)) trivial
  | close => exact hkept ((h.deleteRoutes _).move rfl rfl rfl (.refl _)) trivial

end Requests

section Runs

variable {s : OverlayHandler} {out : List GenerationLease}

theorem Owes.count (h : s.Owes out) {lease : GenerationLease} (hlease : lease ∈ s.acquired) :
    (s.held ++ s.released).count lease + out.count lease = 1 := by
  have hcount := h.placed.count_eq lease
  rw [List.count_eq_one_of_mem h.distinct hlease] at hcount
  simp only [List.count_append] at hcount ⊢
  omega

theorem Owes.complete (h : s.Owes out) :
    (∀ lease ∈ s.acquired, (s.held ++ s.released).count lease = 1) ↔ out = [] := by
  constructor
  · intro hone
    refine List.eq_nil_iff_forall_not_mem.mpr fun lease hlost => ?_
    have hlease : lease ∈ s.acquired := h.placed.mem_iff.mp (by simp [hlost])
    have hcount := h.count hlease
    rw [hone lease hlease] at hcount
    have := List.count_pos_iff.mpr hlost
    omega
  · rintro rfl lease hlease
    simpa using h.count hlease

theorem Quiet.held (hquiet : s.Quiet) : s.held = [] := by
  have hrequests : s.requests.flatMap OverlayRequest.leases = [] := by
    refine List.flatMap_eq_nil_iff.mpr fun request hrequest => ?_
    rw [hquiet.1 request hrequest]
    rfl
  rw [OverlayHandler.held, hrequests, hquiet.2]
  rfl

theorem Owes.unleased (h : s.Owes out) (hquiet : s.Quiet) :
    (∀ generation, s.generationLeases generation = 0) ↔ out = [] := by
  have hcounted : ∀ generation, s.generationLeases generation =
      out.countP fun lease => lease.generation = generation := by
    intro generation
    have := h.counted generation
    rwa [hquiet.held] at this
  constructor
  · intro hzero
    refine List.eq_nil_iff_forall_not_mem.mpr fun lease hlost => ?_
    have hnone := (hcounted lease.generation).symm.trans (hzero lease.generation)
    exact List.countP_eq_zero.mp hnone lease hlost (decide_eq_true rfl)
  · rintro rfl generation
    exact hcounted generation

theorem Owes.run (h : s.Owes out) (events : List OverlayEvent) :
    ∃ lost, (Runs.run overlayStep s events).Owes lost ∧
      (lost = [] ↔ out = [] ∧ Always overlayStep Registered s events) := by
  induction events generalizing s out with
  | nil => exact ⟨out, h, by simp⟩
  | cons event events ih =>
    obtain ⟨between, hbetween, hiff⟩ := h.step event
    obtain ⟨lost, hlost, hrest⟩ := ih hbetween
    refine ⟨lost, hlost, ?_⟩
    rw [hrest, hiff, always_cons, and_assoc]

/-- No lease is released twice.  Every lease has a holder or has been released, and with no request
running and the registry empty every lease has been released and no generation is leased, exactly in
the runs where each narinfo that took a lease is read and its URL registered. -/
theorem generation_leases_released (events : List OverlayEvent) :
    (∀ lease, (run overlayStep initial events).released.count lease ≤ 1) ∧
      ((∀ lease ∈ (run overlayStep initial events).acquired,
          ((run overlayStep initial events).held ++
            (run overlayStep initial events).released).count lease = 1) ↔
        Always overlayStep Registered initial events) ∧
      ((run overlayStep initial events).Quiet →
        ((∀ lease ∈ (run overlayStep initial events).acquired,
            (run overlayStep initial events).released.count lease = 1) ↔
          Always overlayStep Registered initial events) ∧
        ((∀ generation, (run overlayStep initial events).generationLeases generation = 0) ↔
          Always overlayStep Registered initial events)) := by
  obtain ⟨lost, hlost, hiff⟩ := owes_initial.run events
  have hregistered : lost = [] ↔ Always overlayStep Registered initial events :=
    hiff.trans (and_iff_right rfl)
  refine ⟨fun lease => ?_, hlost.complete.trans hregistered, fun hquiet => ⟨?_, ?_⟩⟩
  · have hnodup := hlost.placed.nodup_iff.mpr hlost.distinct
    exact List.nodup_iff_count_le_one.mp (List.nodup_append'.mp hnodup).2.1 lease
  · rw [← hregistered, ← hlost.complete, hquiet.held]
    rfl
  · exact (hlost.unleased hquiet).trans hregistered

/-- A pinned NAR is served: the narinfo hands its lease to the registry, the stream gives it back. -/
example : (run overlayStep initial [.narInfo 3, .narInfoRead 0 "nar/one.nar",
    .nar .get "nar/one.nar" (some 4), .resolved 1, .chunk 1, .terminal 1]).released = [⟨0, 3⟩] := by
  decide +kernel

/-- A narinfo that is not read keeps its generation leased. -/
theorem generation_lease_left : ∃ events : List OverlayEvent,
    (run overlayStep initial events).Quiet ∧
      (∃ lease ∈ (run overlayStep initial events).acquired,
        (run overlayStep initial events).released.count lease = 0) ∧
      (run overlayStep initial events).generationLeases 3 = 1 :=
  ⟨[.narInfo 3, .narInfoFailed 0], ⟨by decide, rfl⟩, ⟨⟨0, 3⟩, by decide, rfl⟩, rfl⟩

end Runs

end OverlayHandler

end NixstrCache.Nix

import NixstrCache.Hashtree.Traversal

/-!
The attempts of a request with healthy sources.

The limit of attempts is counted for each blob and over the whole request.  When the first source of the
plan gives every blob, each blob that the store lacks takes one attempt, and a request whose other
budgets suffice is served exactly when there are no more such blobs than attempts.
-/

namespace NixstrCache.Hashtree.Reader

open Protocol Persistence Programs Runs
open Blossom (FetchLimits)

section Model

/-- The limits of the configuration that a request depends on. -/
structure ConfiguredLimits where
  traversalDepth : ℕ
  linksPerNode : ℕ
  uniqueManifestNodes : ℕ
  totalDecodedManifestBytes : ℕ
  sourceAttempts : ℕ
  blobTransferBytes : ℕ
  requestTransferBytes : ℕ
  requestOutputBytes : ℕ
  totalTimeoutMs : ℕ

def budgetFor (config : ConfiguredLimits) (now : ℕ) : TraversalLimits where
  maxDepth := config.traversalDepth
  maxLinks := config.linksPerNode * config.uniqueManifestNodes
  maxUniqueNodes := config.uniqueManifestNodes
  maxDecodedBytes := config.totalDecodedManifestBytes
  maxAttempts := config.sourceAttempts
  maxBlobTransferBytes := config.blobTransferBytes
  maxTransferredBytes := config.requestTransferBytes
  maxOutputBytes := config.requestOutputBytes
  deadline := now + config.totalTimeoutMs

variable (w : World)

/-- The manifests on a path, with the link of its last segment. -/
def trail : ℕ → Hash → List String → Option (List Hash × ManifestLink)
  | 0, _, _ => none
  | fuel + 1, hash, segments =>
    match w.manifest hash with
    | none => none
    | some decoded =>
      match nextLink decoded.manifest segments with
      | none => none
      | some (link, []) => some ([hash], link)
      | some (link, segment :: rest) =>
        (trail fuel link.hash (segment :: rest)).map fun below => (hash :: below.1, below.2)

/-- The manifests of a file, as often as they are linked. -/
def fileManifests : ℕ → Hash → List Hash
  | 0, _ => []
  | height + 1, hash => hash ::
    match w.manifest hash with
    | none => []
    | some decoded => decoded.manifest.links.flatMap fun link =>
      match link.type with
      | .file => fileManifests height link.hash
      | _ => []

def servedBy (depth : ℕ) (link : ManifestLink) : List Hash × List Hash :=
  match link.type with
  | .blob => ([], [link.hash])
  | .file => (fileManifests w (depth + 1) link.hash, (leaves w (depth + 1) link.hash).map Chunk.hash)
  | _ => ([], [])

/-- The blobs that a request for a path fetches unless the store has them. -/
def needs (cached : List Hash) (depth : ℕ) (root : Hash) (path : String) : List Hash :=
  match trail w (depth + 1) root (segmentsOf path) with
  | none => []
  | some (manifests, link) =>
    ((manifests ++ (servedBy w depth link).1).filter fun hash => hash ∉ cached) ++ (servedBy w depth link).2

/-- How many different ones of them the store lacks. -/
def missing (kept cached : List Hash) (depth : ℕ) (root : Hash) (path : String) : ℕ :=
  ((needs w cached depth root path).filter fun hash => hash ∉ kept).dedup.length

structure Gives (source : Source) (content : Bytes) : Prop where
  free : source.quarantined = false
  connected : source.answer.refused = false
  status : source.answer.status = 200
  length : source.answer.contentLength = .absent ∨
    source.answer.contentLength = .length content.length
  body : ∃ pieces : List Bytes, source.answer.body = pieces.map some ∧ pieces.flatten = content
  reserves : source.reserves = true

/-- The store has these blobs and what the request admits, the manifest cache has these manifests, the
first source gives every blob, and nothing else gets in the way of the request. -/
structure Healthy (w : World) (limits : TraversalLimits) (kept cached : List Hash) : Prop where
  stored : ∀ s hash, w.stored s hash = true ↔ hash ∈ kept ∨ hash ∈ s.admitted
  loaded : ∀ s hash, w.loaded s hash = if hash ∈ cached then some (.ok ()) else none
  alone : ∀ s hash, w.inflight s hash = none
  leased : ∀ s hash, w.leased s hash = true
  first : ∀ s hash, ∃ source rest, w.sources s hash = source :: rest ∧ Gives source (w.content hash)
  intime : ∀ reading, w.clock reading < limits.deadline

/-- The whole of the path is served. -/
def Streams (w : World) (limits : TraversalLimits) (root : Hash) (path : String) : Prop :=
  ∃ found body t events, resolve w limits root path .get .initial = .ok found t ∧
    found.body = some body ∧ (run (streamStep w limits) (body, t) events).1.state = .closed

end Model

section Attempts

variable {w : World} {limits : TraversalLimits} {kept cached : List Hash} {s t : Session} {hash : Hash}
  {source : Source} {fetchLimits : FetchLimits}

theorem debit_inTime {allowed : Session → Bool} {message : String} {update : Session → Session}
    (hclock : w.clock s.readings < limits.deadline) (hallowed : allowed s = true) :
    debit w limits allowed message update s = .ok () (update { s with readings := s.readings + 1 }) := by
  rw [debit, if_neg (not_le.mpr hclock), if_pos hallowed]

theorem receive_short {pieces : List (Option Bytes)} {received result : Bytes}
    (hshort : received.length ≤ fetchLimits.maxTransferBytes ∧
      ∀ size ∈ fetchLimits.declaredSize, received.length ≤ size)
    (h : receive w limits fetchLimits pieces received s = .ok (some result) t) :
    result.length ≤ fetchLimits.maxTransferBytes ∧
      ∀ size ∈ fetchLimits.declaredSize, result.length ≤ size := by
  induction pieces generalizing received s with
  | nil =>
    obtain ⟨heq, -⟩ := EStateM.Result.ok.inj h
    obtain rfl := Option.some.inj heq
    exact hshort
  | cons piece rest ih =>
    rcases piece with - | piece
    · obtain ⟨heq, -⟩ := EStateM.Result.ok.inj h
      exact nomatch heq
    · obtain ⟨ok, u, -, h⟩ := bind_ok.mp h
      cases ok with
      | false =>
        obtain ⟨heq, -⟩ := EStateM.Result.ok.inj h
        exact nomatch heq
      | true =>
        dsimp only at h
        rw [if_pos rfl] at h
        split_ifs at h with hlong
        · obtain ⟨heq, -⟩ := EStateM.Result.ok.inj h
          exact nomatch heq
        · rw [not_or, not_lt] at hlong
          refine ih ?_ h
          rw [List.length_append]
          refine ⟨hlong.1, fun size hsize => ?_⟩
          simpa [Option.mem_def.mp hsize] using hlong.2

theorem attemptSource_short (h : attemptSource w limits hash fetchLimits source s = .ok true t) :
    (w.content hash).length ≤ fetchLimits.maxTransferBytes ∧
      ∀ size ∈ fetchLimits.declaredSize, (w.content hash).length = size := by
  rw [attemptSource] at h
  split_ifs at h with hrefused
  · exact nomatch (EStateM.Result.ok.inj h).1
  · obtain ⟨received, u, hreceive, h⟩ := bind_ok.mp h
    split_ifs at h with hsame
    · obtain ⟨_, v, -, h⟩ := bind_ok.mp h
      have hdeclared := (EStateM.Result.ok.inj h).1
      rw [hsame] at hreceive
      refine ⟨(receive_short ⟨Nat.zero_le _, fun _ _ => Nat.zero_le _⟩ hreceive).1, ?_⟩
      intro size hsize
      rw [Option.mem_def.mp hsize] at hdeclared
      simpa [eq_comm] using hdeclared
    · exact nomatch (EStateM.Result.ok.inj h).1

def SameAttempts (s t : Session) : Prop :=
  t.attempts = s.attempts ∧ t.admitted = s.admitted ∧ t.manifests = s.manifests

theorem receive_whole (hclock : ∀ reading, w.clock reading < limits.deadline) (pieces : List Bytes)
    (received : Bytes)
    (hshort : (received ++ pieces.flatten).length ≤ fetchLimits.maxTransferBytes)
    (hdeclared : ∀ size ∈ fetchLimits.declaredSize, (received ++ pieces.flatten).length ≤ size)
    (hroom : s.transferred + pieces.flatten.length ≤ limits.maxTransferredBytes) :
    ∃ t, receive w limits fetchLimits (pieces.map some) received s =
      .ok (some (received ++ pieces.flatten)) t ∧ SameAttempts s t := by
  induction pieces generalizing received s with
  | nil => exact ⟨s, by simp [receive, pure, EStateM.pure], rfl, rfl, rfl⟩
  | cons piece rest ih =>
    rw [List.flatten_cons, List.length_append] at hroom
    have hall : received ++ (piece :: rest).flatten = (received ++ piece) ++ rest.flatten := by simp
    rw [hall] at hshort hdeclared ⊢
    have hdebit : succeeds (debitTransfer w limits piece.length) s = .ok true
        { s with readings := s.readings + 1, transferred := s.transferred + piece.length } := by
      have hallowed : decide (s.transferred + piece.length ≤ limits.maxTransferredBytes) = true :=
        decide_eq_true (by omega)
      rw [succeeds, debitTransfer, debit_inTime (hclock _) hallowed]
    have hfits : ¬ (fetchLimits.maxTransferBytes < received.length + piece.length ∨
        fetchLimits.declaredSize.any (· < received.length + piece.length) = true) := by
      rw [List.length_append, List.length_append] at hshort
      rw [not_or, not_lt]
      refine ⟨by omega, ?_⟩
      cases hsize : fetchLimits.declaredSize with
      | none => simp
      | some size =>
        have hle := hdeclared size hsize
        rw [List.length_append, List.length_append] at hle
        simpa using (by omega : received.length + piece.length ≤ size)
    have hleft : ({ s with
        readings := s.readings + 1
        transferred := s.transferred + piece.length } : Session).transferred + rest.flatten.length ≤
          limits.maxTransferredBytes := by
      dsimp only
      omega
    obtain ⟨t, ht, hsame⟩ := ih _ hshort hdeclared hleft
    refine ⟨t, ?_, hsame⟩
    rw [List.map_cons, receive, bind_eq hdebit, if_pos rfl]
    rw [if_neg hfits]
    exact ht

theorem attemptSource_gives (hclock : ∀ reading, w.clock reading < limits.deadline)
    (hgives : Gives source (w.content hash))
    (hshort : (w.content hash).length ≤ fetchLimits.maxTransferBytes)
    (hdeclared : ∀ size ∈ fetchLimits.declaredSize, (w.content hash).length = size)
    (hroom : s.transferred + fetchLimits.maxTransferBytes ≤ limits.maxTransferredBytes) :
    ∃ t, attemptSource w limits hash fetchLimits source s = .ok true t ∧ t.attempts = s.attempts ∧
      t.admitted = hash :: s.admitted ∧ t.manifests = s.manifests := by
  obtain ⟨pieces, hbody, hcontent⟩ := hgives.body
  have hallows : fetchLimits.allows source.answer.contentLength = true := by
    rcases hgives.length with hlength | hlength
    · rw [hlength]
      rfl
    · rw [hlength, FetchLimits.allows, decide_eq_true_iff]
      refine ⟨hshort, ?_⟩
      cases hsize : fetchLimits.declaredSize with
      | none => rfl
      | some size => simpa using hdeclared size hsize
  have hleft : s.transferred + pieces.flatten.length ≤ limits.maxTransferredBytes := by
    rw [hcontent]
    omega
  obtain ⟨t, ht, hattempts, hadmitted, hmanifests⟩ := receive_whole hclock pieces []
    (by simpa [hcontent] using hshort)
    (fun size hsize => by simpa [hcontent] using (hdeclared size hsize).le) hleft
  rw [List.nil_append, hcontent, ← hbody] at ht
  have hall : fetchLimits.declaredSize.all (· = (w.content hash).length) = true := by
    cases hsize : fetchLimits.declaredSize with
    | none => rfl
    | some size => simpa [eq_comm] using hdeclared size hsize
  refine ⟨{ t with admitted := hash :: t.admitted }, ?_, hattempts, by rw [hadmitted], hmanifests⟩
  rw [attemptSource, if_neg (by simp [hgives.connected, hgives.status, hallows, hgives.reserves]),
    bind_eq ht, if_pos rfl]
  rw [hall]
  rfl

theorem populate_short {sources : List Source} {attempts : ℕ} {failures : List String} {a : Unit}
    (h : populate w limits hash fetchLimits sources attempts failures s = .ok a t) :
    (w.content hash).length ≤ fetchLimits.maxTransferBytes ∧
      ∀ size ∈ fetchLimits.declaredSize, (w.content hash).length = size := by
  induction sources generalizing attempts failures s with
  | nil => exact nomatch h
  | cons source rest ih =>
    rw [populate] at h
    split_ifs at h with hlimit hquarantined
    · exact nomatch h
    · exact ih h
    · obtain ⟨_, u, -, h⟩ := bind_ok.mp h
      obtain ⟨ok, v, hattempt, h⟩ := bind_ok.mp h
      cases ok with
      | true => exact attemptSource_short hattempt
      | false => exact ih h

def Session.attempting (s : Session) : Session :=
  { s with readings := s.readings + 1, attempts := s.attempts + 1 }

theorem populate_iff (hclock : ∀ reading, w.clock reading < limits.deadline) {first : Source}
    {rest : List Source} (hgives : Gives first (w.content hash))
    (hroom : s.transferred + fetchLimits.maxTransferBytes ≤ limits.maxTransferredBytes) :
    populate w limits hash fetchLimits (first :: rest) 0 [] s = .ok () t ↔
      0 < fetchLimits.maxAttempts ∧ s.attempts < limits.maxAttempts ∧
        attemptSource w limits hash fetchLimits first s.attempting = .ok true t := by
  rw [populate]
  constructor
  · intro h
    split_ifs at h with hlimit hquarantined
    · exact nomatch h
    · exact absurd hquarantined (by simp [hgives.free])
    · obtain ⟨_, u, hdebit, h⟩ := bind_ok.mp h
      obtain ⟨hallowed, rfl⟩ := debit_ok hdebit
      obtain ⟨ok, v, hattempt, h⟩ := bind_ok.mp h
      refine ⟨by omega, by simpa using hallowed, ?_⟩
      cases ok with
      | true =>
        obtain ⟨-, rfl⟩ := EStateM.Result.ok.inj h
        exact hattempt
      | false =>
        obtain ⟨hshort, hdeclared⟩ := populate_short h
        obtain ⟨t', ht', -⟩ := attemptSource_gives (s := s.attempting) hclock hgives hshort hdeclared hroom
        exact nomatch (EStateM.Result.ok.inj (hattempt.symm.trans ht')).1
  · rintro ⟨hlimit, hallowed, hattempt⟩
    have hdebit : debitAttempt w limits s = .ok () s.attempting :=
      debit_inTime (hclock _) (decide_eq_true hallowed)
    rw [if_neg (by omega), if_neg (by simp [hgives.free]), bind_eq hdebit, bind_eq hattempt]
    rfl

end Attempts

section Fetches

variable {w : World} {limits : TraversalLimits} {kept cached : List Hash} {s t : Session} {hash : Hash}

inductive Fetched (limits : TraversalLimits) (kept : List Hash) (hash : Hash) (s t : Session) : Prop
  | held (hheld : hash ∈ kept ∨ hash ∈ s.admitted) (hsame : SameAttempts s t)
  | attempted (hkept : hash ∉ kept) (hadmitted : hash ∉ s.admitted)
      (hroom : s.attempts < limits.maxAttempts) (hattempts : t.attempts = s.attempts + 1)
      (hnew : t.admitted = hash :: s.admitted) (hmanifests : t.manifests = s.manifests)

theorem settle_eq (h : Healthy w limits kept cached) (fetchLimits : FetchLimits) :
    settle w limits hash fetchLimits s =
      populate w limits hash fetchLimits (w.sources s hash) 0 [] s := by
  rw [settle, get_bind, h.alone]

theorem lease_eq (h : Healthy w limits kept cached) : lease w hash s = .ok () s := by
  rw [lease, get_bind, h.leased]
  rfl

theorem ensureStored_ok (h : Healthy w limits kept cached) {fetchLimits : FetchLimits} {a : Unit}
    (hroom : s.transferred + fetchLimits.maxTransferBytes ≤ limits.maxTransferredBytes)
    (hok : ensureStored w limits hash fetchLimits s = .ok a t) : Fetched limits kept hash s t := by
  rw [ensureStored, get_bind] at hok
  by_cases hstored : w.stored s hash = true
  · rw [if_pos hstored] at hok
    obtain ⟨-, rfl⟩ := EStateM.Result.ok.inj hok
    exact .held ((h.stored s hash).mp hstored) ⟨rfl, rfl, rfl⟩
  · rw [if_neg hstored] at hok
    obtain ⟨_, u, hsettle, hok⟩ := bind_ok.mp hok
    rw [lease_eq h] at hok
    obtain ⟨-, rfl⟩ := EStateM.Result.ok.inj hok
    rw [settle_eq h] at hsettle
    obtain ⟨first, rest, hsources, hgives⟩ := h.first s hash
    rw [hsources] at hsettle
    obtain ⟨-, hallowed, hattempt⟩ := (populate_iff h.intime hgives hroom).mp hsettle
    obtain ⟨hshort, hdeclared⟩ := attemptSource_short hattempt
    obtain ⟨t', ht', hattempts, hadmitted, hmanifests⟩ :=
      attemptSource_gives (s := s.attempting) h.intime hgives hshort hdeclared hroom
    obtain ⟨-, rfl⟩ := EStateM.Result.ok.inj (hattempt.symm.trans ht')
    rw [h.stored, not_or] at hstored
    exact .attempted hstored.1 hstored.2 hallowed hattempts hadmitted hmanifests

theorem transferLimit_room {declaredSize : Option ℕ} {ceiling : ℕ} (hpos : 0 < transferLimit limits
    declaredSize ceiling s) :
    s.transferred + transferLimit limits declaredSize ceiling s ≤ limits.maxTransferredBytes := by
  rw [transferLimit] at hpos ⊢
  omega

theorem fetch_ok (h : Healthy w limits kept cached) {declaredSize : Option ℕ} {ceiling : ℕ}
    {blob : VerifiedBlob (w.content hash)}
    (hok : fetch w limits hash declaredSize ceiling s = .ok blob t) : Fetched limits kept hash s t := by
  obtain ⟨_, s₁, hacquire, hok⟩ := bind_ok.mp (refuse_bind hok).2
  rw [get_bind] at hok
  obtain ⟨hpos, hok⟩ := refuse_bind hok
  obtain ⟨_, s₂, hstored, hok⟩ := bind_ok.mp hok
  obtain ⟨-, rfl⟩ := EStateM.Result.ok.inj hok
  have hfetched := ensureStored_ok h (transferLimit_room (Nat.pos_of_ne_zero (by simpa using hpos))) hstored
  rw [(debit_ok hacquire).2] at hfetched
  cases hfetched with
  | held hheld hsame => exact .held hheld hsame
  | attempted hkept hadmitted hroom hattempts hnew hmanifests =>
    exact .attempted hkept hadmitted hroom hattempts hnew hmanifests

/-- The session has been supplied with these blobs, with one attempt for each that the store lacked. -/
structure Demands (limits : TraversalLimits) (kept cached demanded : List Hash) (s : Session) : Prop where
  within : s.attempts ≤ limits.maxAttempts
  counted : s.attempts = s.admitted.length
  nodup : s.admitted.Nodup
  lacking : ∀ hash ∈ s.admitted, hash ∈ demanded ∧ hash ∉ kept
  supplied : ∀ hash ∈ demanded, hash ∈ kept ∨ hash ∈ s.admitted
  atHand : ∀ hash ∈ s.manifests, hash ∈ cached ∨ hash ∈ demanded

variable {demanded : List Hash}

theorem initial_demands : Demands limits kept cached [] .initial :=
  ⟨Nat.zero_le _, rfl, List.nodup_nil, nofun, nofun, nofun⟩

theorem Demands.same (h : Demands limits kept cached demanded s) (hsame : SameAttempts s t) :
    Demands limits kept cached demanded t := by
  obtain ⟨hattempts, hadmitted, hmanifests⟩ := hsame
  refine ⟨hattempts ▸ h.within, ?_, ?_, ?_, ?_, ?_⟩
  · rw [hattempts, hadmitted, h.counted]
  · exact hadmitted ▸ h.nodup
  · exact hadmitted ▸ h.lacking
  · exact hadmitted ▸ h.supplied
  · exact hmanifests ▸ h.atHand

theorem Demands.fetched (h : Demands limits kept cached demanded s) (hfetched : Fetched limits kept hash s t) :
    Demands limits kept cached (demanded ++ [hash]) t := by
  cases hfetched with
  | held hheld hsame =>
    have hs : Demands limits kept cached (demanded ++ [hash]) s := by
      refine ⟨h.within, h.counted, h.nodup, fun other hother => ?_, fun other hother => ?_, fun other hother => ?_⟩
      · exact ⟨List.mem_append_left _ (h.lacking other hother).1, (h.lacking other hother).2⟩
      · rcases List.mem_append.mp hother with hother | hother
        · exact h.supplied other hother
        · exact List.mem_singleton.mp hother ▸ hheld
      · exact (h.atHand other hother).imp_right (List.mem_append_left _)
    exact hs.same hsame
  | attempted hkept hadmitted hroom hattempts hnew hmanifests =>
    refine ⟨hattempts ▸ hroom, ?_, ?_, ?_, ?_, ?_⟩
    · rw [hattempts, hnew, List.length_cons, h.counted]
    · exact hnew ▸ List.nodup_cons.mpr ⟨hadmitted, h.nodup⟩
    · rw [hnew]
      refine List.forall_mem_cons.mpr ⟨⟨by simp, hkept⟩, fun other hother => ?_⟩
      exact ⟨List.mem_append_left _ (h.lacking other hother).1, (h.lacking other hother).2⟩
    · rw [hnew]
      intro other hother
      rcases List.mem_append.mp hother with hother | hother
      · exact (h.supplied other hother).imp_right (List.mem_cons_of_mem _)
      · exact Or.inr (List.mem_singleton.mp hother ▸ List.mem_cons_self ..)
    · rw [hmanifests]
      exact fun other hother => (h.atHand other hother).imp_right (List.mem_append_left _)

theorem Demands.attempts (h : Demands limits kept cached demanded s) :
    s.attempts = ((demanded.filter fun hash => hash ∉ kept).dedup).length := by
  rw [h.counted]
  refine List.Perm.length_eq ((List.perm_ext_iff_of_nodup h.nodup (List.nodup_dedup _)).mpr fun other => ?_)
  rw [List.mem_dedup, List.mem_filter, decide_eq_true_iff]
  constructor
  · exact h.lacking other
  · rintro ⟨hother, hkept⟩
    exact (h.supplied other hother).resolve_left hkept

def uncached (cached hashes : List Hash) : List Hash :=
  hashes.filter fun hash => hash ∉ cached

theorem Demands.congr {other : List Hash} (h : Demands limits kept cached demanded s)
    (hsame : ∀ hash, hash ∈ demanded ↔ hash ∈ other) : Demands limits kept cached other s where
  within := h.within
  counted := h.counted
  nodup := h.nodup
  lacking := fun hash hhash => ⟨(hsame hash).mp (h.lacking hash hhash).1, (h.lacking hash hhash).2⟩
  supplied := fun hash hhash => h.supplied hash ((hsame hash).mpr hhash)
  atHand := fun hash hhash => (h.atHand hash hhash).imp_right (hsame hash).mp

theorem Demands.load (h : Demands limits kept cached demanded s) (hhealthy : Healthy w limits kept cached)
    {decoded : ValidatedManifest} (hok : loadManifest w limits hash s = .ok decoded t) :
    Demands limits kept cached (demanded ++ uncached cached [hash]) t := by
  rw [loadManifest, get_bind, hhealthy.loaded] at hok
  by_cases hcached : hash ∈ cached
  · rw [if_pos hcached] at hok
    obtain ⟨-, rfl⟩ := decodeManifest_ok hok
    simpa [uncached, hcached] using h
  · rw [if_neg hcached] at hok
    obtain ⟨_, u, hfetch, hok⟩ := bind_ok.mp hok
    obtain ⟨-, rfl⟩ := decodeManifest_ok (refuse_bind hok).2
    simpa [uncached, hcached] using h.fetched (fetch_ok hhealthy hfetch)

theorem Demands.manifest (h : Demands limits kept cached demanded s) (hhealthy : Healthy w limits kept cached)
    {manifest : Manifest} (hok : manifestOf w limits hash s = .ok manifest t) :
    Demands limits kept cached (demanded ++ uncached cached [hash]) t := by
  rw [manifestOf, get_bind] at hok
  split_ifs at hok with hmem
  · obtain ⟨decoded, u, hdecoded, hok⟩ := bind_ok.mp hok
    obtain ⟨-, rfl⟩ := EStateM.Result.ok.inj hok
    rw [(decodeManifest_ok hdecoded).2]
    refine h.congr fun other => ?_
    rcases h.atHand hash hmem with hcached | hdemanded
    · simp [uncached, hcached]
    · by_cases hcached : hash ∈ cached
      · simp [uncached, hcached]
      · simp only [uncached, List.mem_append, List.mem_filter, List.mem_singleton]
        constructor
        · exact Or.inl
        · rintro (hother | ⟨rfl, -⟩)
          · exact hother
          · exact hdemanded
  · obtain ⟨_, u, hvisit, hok⟩ := bind_ok.mp hok
    have hu : Demands limits kept cached demanded u := by
      refine h.same ?_
      rw [(debit_ok hvisit).2]
      split_ifs
      · exact ⟨rfl, rfl, rfl⟩
      · exact ⟨rfl, rfl, rfl⟩
    obtain ⟨decoded, v, hload, hok⟩ := bind_ok.mp hok
    have hv := hu.load hhealthy hload
    obtain ⟨_, v', hdebit, hok⟩ := bind_ok.mp hok
    have hv' : Demands limits kept cached (demanded ++ uncached cached [hash]) v' := by
      refine hv.same ?_
      rw [(debit_ok hdebit).2]
      exact ⟨rfl, rfl, rfl⟩
    obtain ⟨_, v'', hpush, hok⟩ := bind_ok.mp hok
    obtain ⟨-, rfl⟩ := EStateM.Result.ok.inj hok
    obtain ⟨-, rfl⟩ := EStateM.Result.ok.inj hpush
    refine ⟨hv'.within, hv'.counted, hv'.nodup, hv'.lacking, hv'.supplied, fun other hother => ?_⟩
    rcases List.mem_cons.mp hother with rfl | hother
    · by_cases hcached : other ∈ cached
      · exact Or.inl hcached
      · exact Or.inr (by simp [uncached, hcached])
    · exact hv'.atHand other hother

theorem Demands.debit (h : Demands limits kept cached demanded s) {allowed : Session → Bool} {message : String}
    {update : Session → Session} {a : Unit} (hok : debit w limits allowed message update s = .ok a t)
    (hupdate : ∀ s, SameAttempts s (update s)) : Demands limits kept cached demanded t := by
  rw [(debit_ok hok).2]
  exact h.same (hupdate _)

end Fetches

section Requests

variable {w : World} {limits : TraversalLimits} {kept cached demanded : List Hash} {s t : Session}
  {hash : Hash} {path : String}

def manifestsOf (w : World) (height : ℕ) (link : ManifestLink) : List Hash :=
  match link.type with
  | .file => fileManifests w height link.hash
  | _ => []

theorem fileManifests_succ {height : ℕ} {decoded : ValidatedManifest}
    (h : w.manifest hash = some decoded) :
    fileManifests w (height + 1) hash = hash :: decoded.manifest.links.flatMap (manifestsOf w height) := by
  rw [fileManifests, h]
  rfl

theorem planLink_demands {visit : Hash → Program FilePlan} {height : ℕ} {link : ManifestLink}
    {child : FilePlan}
    (hvisit : ∀ demanded hash s plan t, visit hash s = .ok plan t → Demands limits kept cached demanded s →
      Demands limits kept cached (demanded ++ uncached cached (fileManifests w height hash)) t)
    (hs : Demands limits kept cached demanded s) (h : planLink visit link s = .ok child t) :
    Demands limits kept cached (demanded ++ uncached cached (manifestsOf w height link)) t := by
  rw [planLink] at h
  rw [manifestsOf]
  cases htype : link.type with
  | blob =>
    rw [htype] at h
    obtain ⟨-, rfl⟩ := EStateM.Result.ok.inj h
    simpa [uncached] using hs
  | file =>
    rw [htype] at h
    obtain ⟨plan, u, hplan, h⟩ := bind_ok.mp h
    obtain ⟨-, rfl⟩ := EStateM.Result.ok.inj (refuse_bind h).2
    exact hvisit _ _ _ _ _ hplan hs
  | directory =>
    rw [htype] at h
    cases h
  | fanout =>
    rw [htype] at h
    cases h

theorem planLinks_demands {visit : Hash → Program FilePlan} {height : ℕ} {links : List ManifestLink}
    {plan result : FilePlan}
    (hvisit : ∀ demanded hash s plan t, visit hash s = .ok plan t → Demands limits kept cached demanded s →
      Demands limits kept cached (demanded ++ uncached cached (fileManifests w height hash)) t)
    (hs : Demands limits kept cached demanded s) (h : planLinks w limits visit links plan s = .ok result t) :
    Demands limits kept cached (demanded ++ uncached cached (links.flatMap (manifestsOf w height))) t := by
  induction links generalizing plan s demanded with
  | nil =>
    obtain ⟨-, rfl⟩ := EStateM.Result.ok.inj h
    simpa [uncached] using hs
  | cons link links ih =>
    obtain ⟨child, u, hchild, h⟩ := bind_ok.mp h
    obtain ⟨_, v, houtput, h⟩ := bind_ok.mp (refuse_bind h).2
    have hu := planLink_demands hvisit hs hchild
    have hlast := ih (hu.debit houtput fun _ => ⟨rfl, rfl, rfl⟩) h
    rwa [List.append_assoc, uncached, uncached, ← List.filter_append, ← List.flatMap_cons] at hlast

theorem manifest_demands {α : Type} {depth : ℕ} {rest : Manifest → Program α} {a : α}
    (hhealthy : Healthy w limits kept cached) (hs : Demands limits kept cached demanded s)
    (h : (do
      checkDepth w limits depth
      let manifest ← manifestOf w limits hash
      takeUp hash depth
      rest manifest : Program α) s = .ok a t) :
    ∃ decoded u, w.manifest hash = some decoded ∧ rest decoded.manifest u = .ok a t ∧
      Demands limits kept cached (demanded ++ uncached cached [hash]) u := by
  obtain ⟨_, u, hdepth, h⟩ := bind_ok.mp h
  have hu := hs.debit hdepth fun _ => ⟨rfl, rfl, rfl⟩
  obtain ⟨manifest, v, hmanifest, h⟩ := bind_ok.mp h
  obtain ⟨_, v', htake, h⟩ := bind_ok.mp h
  obtain ⟨-, rfl⟩ := EStateM.Result.ok.inj htake
  obtain ⟨decoded, hdecoded, rfl⟩ := manifestOf_ok hmanifest
  exact ⟨decoded, _, hdecoded, h, (hu.manifest hhealthy hmanifest).same ⟨rfl, rfl, rfl⟩⟩

theorem throwIfAborted_ok {a : Unit} (h : throwIfAborted w s = .ok a t) : t = s := by
  rw [throwIfAborted] at h
  split_ifs at h
  exact (EStateM.Result.ok.inj h).2.symm

theorem planFile_demands (hhealthy : Healthy w limits kept cached) {fuel depth height : ℕ}
    {plan : FilePlan} (hheight : fuel ≤ height) (hs : Demands limits kept cached demanded s)
    (h : planFile w limits fuel depth hash s = .ok plan t) :
    Demands limits kept cached (demanded ++ uncached cached (fileManifests w height hash)) t := by
  induction fuel generalizing depth height hash plan s t demanded with
  | zero => exact nomatch h
  | succ fuel ih =>
    obtain ⟨height, rfl⟩ : ∃ below, height = below + 1 := ⟨height - 1, by omega⟩
    obtain ⟨_, u, habort, h⟩ := bind_ok.mp h
    rw [throwIfAborted_ok habort] at h
    obtain ⟨decoded, v, hdecoded, h, hv⟩ := manifest_demands hhealthy hs h
    obtain ⟨_, v', hlinks, h⟩ := bind_ok.mp (refuse_bind h).2
    have hlast := planLinks_demands (fun _ _ _ _ _ hvisit hdemands =>
      ih (Nat.le_of_succ_le_succ hheight) hdemands hvisit)
      (hv.debit hlinks fun _ => ⟨rfl, rfl, rfl⟩) h
    rwa [fileManifests_succ hdecoded, ← List.singleton_append, uncached, List.filter_append,
      ← List.append_assoc]

theorem descend_demands (hhealthy : Healthy w limits kept cached) {fuel depth : ℕ} {expected : LinkType}
    {segments : List String} {link : ManifestLink} (hs : Demands limits kept cached demanded s)
    (h : descend w limits path fuel depth hash expected segments s = .ok link t) :
    ∃ manifests, trail w fuel hash segments = some (manifests, link) ∧
      Demands limits kept cached (demanded ++ uncached cached manifests) t := by
  induction fuel generalizing depth hash expected segments s demanded with
  | zero => exact nomatch h
  | succ fuel ih =>
    obtain ⟨decoded, v, hdecoded, h, hv⟩ := manifest_demands hhealthy hs h
    obtain ⟨_, v', hlinks, h⟩ := bind_ok.mp (refuse_bind h).2
    have hv' := hv.debit hlinks fun _ => ⟨rfl, rfl, rfl⟩
    rw [trail, hdecoded]
    dsimp only
    rcases hnext : nextLink decoded.manifest segments with _ | ⟨found, _ | ⟨segment, rest⟩⟩
    · rw [hnext] at h
      exact nomatch h
    · rw [hnext] at h
      obtain ⟨rfl, rfl⟩ := EStateM.Result.ok.inj h
      exact ⟨[hash], rfl, hv'⟩
    · rw [hnext] at h
      obtain ⟨manifests, htrail, hlast⟩ := ih hv' h
      refine ⟨hash :: manifests, by simp [htrail], ?_⟩
      rwa [← List.singleton_append, uncached, List.filter_append, ← List.append_assoc]

/-- A body that has been supplied with all blobs but those of its remaining chunks. -/
def Supplied (limits : TraversalLimits) (kept cached base all : List Hash) (x : FileStream × Session) :
    Prop :=
  x.1.state = .errored ∨ x.1.state = .cancelled ∨
    ∃ done, all = done ++ x.1.chunks.map Chunk.hash ∧
      Demands limits kept cached (base ++ done) x.2 ∧ (x.1.state = .closed → x.1.chunks = [])

theorem rawStream_demands (hhealthy : Healthy w limits kept cached) {size : ℕ} {b : BlobStream}
    (hs : Demands limits kept cached demanded s) (h : rawStream w limits hash size s = .ok b t) :
    Demands limits kept cached (demanded ++ [hash]) t := by
  obtain ⟨blob, u, hfetch, h⟩ := bind_ok.mp h
  obtain ⟨-, rfl⟩ := EStateM.Result.ok.inj h
  exact hs.fetched (fetch_ok hhealthy hfetch)

theorem serveLink_demands (hhealthy : Healthy w limits kept cached) {link : ManifestLink}
    {found : ResolvedPath} (hs : Demands limits kept cached demanded s)
    (h : serveLink w limits .get link s = .ok found t) :
    ∃ body, found.body = some body ∧ Supplied limits kept cached
      (demanded ++ uncached cached (servedBy w limits.maxDepth link).1)
      (servedBy w limits.maxDepth link).2 (body, t) := by
  unfold serveLink at h
  rw [servedBy]
  cases htype : link.type with
  | blob =>
    rw [htype] at h
    obtain ⟨b, u, hraw, h⟩ := bind_ok.mp h
    obtain ⟨rfl, rfl⟩ := EStateM.Result.ok.inj h
    refine ⟨rawBody b, rfl, Or.inr (Or.inr ⟨[link.hash], rfl, ?_, nofun⟩)⟩
    simpa [uncached] using rawStream_demands hhealthy hs hraw
  | file =>
    rw [htype] at h
    obtain ⟨plan, u, hplan, h⟩ := bind_ok.mp h
    obtain ⟨rfl, rfl⟩ := EStateM.Result.ok.inj h
    refine ⟨fileStream plan.chunks, rfl, Or.inr (Or.inr ⟨[], ?_, ?_, nofun⟩)⟩
    · rw [(filePlan_ok hplan (Nat.lt_succ_self _)).1.chunks]
      rfl
    · obtain ⟨found, v, hfound, hplan⟩ := bind_ok.mp hplan
      obtain ⟨-, rfl⟩ := EStateM.Result.ok.inj (refuse_bind hplan).2
      rw [List.append_nil]
      exact planFile_demands hhealthy le_rfl hs hfound
  | directory =>
    rw [htype] at h
    exact nomatch h
  | fanout =>
    rw [htype] at h
    exact nomatch h

theorem pull_demands {b : BlobStream} (hs : Demands limits kept cached demanded s) :
    Demands limits kept cached demanded (b.pull w limits s).2 := by
  have hcases := b.pull_cases w limits s
  generalize b.pull w limits s = result at hcases
  cases hcases with
  | settled => exact hs
  | ended => exact hs
  | failed t hstate hsame =>
    rcases hsame with rfl | rfl
    · exact hs
    · exact hs.same ⟨rfl, rfl, rfl⟩
  | given piece rest t hstate hpieces hshort hdebit => exact hs.debit hdebit fun _ => ⟨rfl, rfl, rfl⟩

variable {base all : List Hash} {x : FileStream × Session}

theorem streamStep_supplied (hhealthy : Healthy w limits kept cached)
    (h : Supplied limits kept cached base all x) (event : StreamEvent) :
    Supplied limits kept cached base all (streamStep w limits x event) := by
  obtain ⟨⟨chunks, reader, enqueued, state⟩, s⟩ := x
  cases event with
  | cancel =>
    rw [streamStep]
    split_ifs
    · exact Or.inr (Or.inl rfl)
    · exact h
  | read =>
    rcases reader with - | b
    · exact h
    · rcases h with h | h | ⟨done, hall, hs, hclosed⟩
      · exact Or.inl h
      · exact Or.inr (Or.inl h)
      · exact Or.inr (Or.inr ⟨done, hall, pull_demands hs, hclosed⟩)
  | pull =>
    by_cases hstate : state = .readable
    · subst hstate
      obtain h | h | ⟨done, hall, hs, -⟩ := h
      · cases h
      · cases h
      rcases reader with - | b
      · rcases chunks with - | ⟨chunk, chunks⟩
        · exact Or.inr (Or.inr ⟨done, hall, hs, fun _ => rfl⟩)
        · simp only [streamStep, FileStream.pull, ne_eq, not_true, if_false]
          cases hraw : rawStream w limits chunk.hash chunk.size s with
          | ok b t =>
            have ht := rawStream_demands hhealthy hs hraw
            refine Or.inr (Or.inr ⟨done ++ [chunk.hash], ?_, ?_, (by simp)⟩)
            · rw [hall, List.map_cons, List.append_assoc, List.singleton_append]
            · rwa [← List.append_assoc]
          | error e t => exact Or.inl rfl
      · simp only [streamStep, FileStream.pull, ne_eq, not_true, if_false]
        cases b.queue with
        | cons piece rest => exact Or.inr (Or.inr ⟨done, hall, hs, (by simp)⟩)
        | nil =>
          dsimp only
          split_ifs
          · exact Or.inr (Or.inr ⟨done, hall, hs, (by simp)⟩)
          · exact Or.inr (Or.inr ⟨done, hall, hs, (by simp)⟩)
          · exact Or.inl rfl
    · simpa only [streamStep, FileStream.pull, ne_eq, hstate, not_false_eq_true, if_true] using h

theorem stream_supplied (hhealthy : Healthy w limits kept cached)
    (h : Supplied limits kept cached base all x) (events : List StreamEvent) :
    Supplied limits kept cached base all (run (streamStep w limits) x events) := by
  induction events generalizing x with
  | nil => exact h
  | cons event events ih => exact ih (streamStep_supplied hhealthy h event)

theorem resolve_supplied (hhealthy : Healthy w limits kept cached) {root : Hash} {found : ResolvedPath}
    (h : resolve w limits root path .get .initial = .ok found t) :
    ∃ body base all, found.body = some body ∧ Supplied limits kept cached base all (body, t) ∧
      needs w cached limits.maxDepth root path = base ++ all := by
  obtain ⟨_, u, hsegments, h⟩ := bind_ok.mp h
  rw [(refuse_ok hsegments).2] at h
  obtain ⟨link, v, hlink, h⟩ := bind_ok.mp h
  obtain ⟨manifests, htrail, hv⟩ := descend_demands hhealthy initial_demands hlink
  obtain ⟨body, hbody, hsupplied⟩ := serveLink_demands hhealthy hv (namingPath_ok.mp h)
  refine ⟨body, _, _, hbody, hsupplied, ?_⟩
  rw [needs, htrail]
  simp [uncached, List.filter_append]

theorem closed_attempts (hhealthy : Healthy w limits kept cached) {root : Hash} {found : ResolvedPath}
    {body : FileStream} {events : List StreamEvent}
    (hfound : resolve w limits root path .get .initial = .ok found t) (hbody : found.body = some body)
    (hclosed : (run (streamStep w limits) (body, t) events).1.state = .closed) :
    (run (streamStep w limits) (body, t) events).2.attempts =
        missing w kept cached limits.maxDepth root path ∧
      (run (streamStep w limits) (body, t) events).2.attempts ≤ limits.maxAttempts := by
  obtain ⟨body', base, all, hbody', hsupplied, hneeds⟩ := resolve_supplied hhealthy hfound
  obtain rfl := Option.some.inj (hbody.symm.trans hbody')
  rcases stream_supplied hhealthy hsupplied events with hstate | hstate | ⟨done, hall, hs, hchunks⟩
  · exact nomatch hclosed.symm.trans hstate
  · exact nomatch hclosed.symm.trans hstate
  · rw [hchunks hclosed, List.map_nil, List.append_nil] at hall
    refine ⟨?_, hs.within⟩
    rw [hs.attempts, missing, hneeds, hall]

end Requests

section Limits

variable {w : World} {limits : TraversalLimits} {kept cached : List Hash} {s t : Session} {hash : Hash}
  {enough : ℕ} {path : String}

/-- The limits with another number of attempts. -/
def TraversalLimits.allowing (limits : TraversalLimits) (attempts : ℕ) : TraversalLimits :=
  { limits with maxAttempts := attempts }

/-- The session has taken no more attempts than the limits allow. -/
def Fits (limits : TraversalLimits) (s : Session) : Prop :=
  s.attempts ≤ limits.maxAttempts

theorem Healthy.allowing (h : Healthy w limits kept cached) (attempts : ℕ) :
    Healthy w (limits.allowing attempts) kept cached :=
  ⟨h.stored, h.loaded, h.alone, h.leased, h.first, h.intime⟩

theorem debit_follows {allowed : Session → Bool} {message : String} {update : Session → Session}
    (hupdate : ∀ s, (update s).attempts = s.attempts) :
    Follows (Fits limits) (debit w limits allowed message update)
      (debit w (limits.allowing enough) allowed message update) := by
  refine .same fun s a t h hfits => ?_
  rw [(debit_ok h).2, Fits, hupdate] at hfits
  exact hfits

theorem refuse_follows (c : Bool) (error : ReadError) :
    Follows (Fits limits) (refuse c error) (refuse c error) :=
  .same fun _ _ _ h hfits => (refuse_ok h).2 ▸ hfits

theorem takeUp_follows (hash : Hash) (depth : ℕ) :
    Follows (Fits limits) (takeUp hash depth) (takeUp hash depth) :=
  .same fun _ _ _ h hfits => by
    obtain ⟨-, rfl⟩ := EStateM.Result.ok.inj h
    exact hfits

theorem receive_allowing (enough maxTransferBytes : ℕ) (declaredSize : Option ℕ) (few many : ℕ)
    (pieces : List (Option Bytes)) (received : Bytes) :
    receive w limits ⟨few, maxTransferBytes, declaredSize⟩ pieces received =
      receive w (limits.allowing enough) ⟨many, maxTransferBytes, declaredSize⟩ pieces received := by
  induction pieces generalizing received with
  | nil => rfl
  | cons piece rest ih =>
    rcases piece with - | piece
    · rfl
    · simp only [receive, ih]
      rfl

theorem attemptSource_allowing (enough maxTransferBytes : ℕ) (declaredSize : Option ℕ) (few many : ℕ)
    (source : Source) :
    attemptSource w limits hash ⟨few, maxTransferBytes, declaredSize⟩ source =
      attemptSource w (limits.allowing enough) hash ⟨many, maxTransferBytes, declaredSize⟩ source := by
  rw [attemptSource, attemptSource, receive_allowing enough _ _ few many]
  rfl

theorem ensureStored_follows (h : Healthy w limits kept cached) {maxTransferBytes : ℕ}
    {declaredSize : Option ℕ} {a : Unit}
    (hroom : s.transferred + maxTransferBytes ≤ limits.maxTransferredBytes)
    (hok : ensureStored w (limits.allowing enough) hash ⟨enough, maxTransferBytes, declaredSize⟩ s =
      .ok a t) (hfits : Fits limits t) : Fits limits s ∧
        ensureStored w limits hash ⟨limits.maxAttempts, maxTransferBytes, declaredSize⟩ s = .ok a t := by
  rw [ensureStored, get_bind] at hok ⊢
  by_cases hstored : w.stored s hash = true
  · rw [if_pos hstored] at hok ⊢
    exact ⟨(EStateM.Result.ok.inj hok).2 ▸ hfits, hok⟩
  · rw [if_neg hstored] at hok ⊢
    obtain ⟨_, u, hsettle, hlease⟩ := bind_ok.mp hok
    rw [lease_eq h] at hlease
    obtain ⟨-, rfl⟩ := EStateM.Result.ok.inj hlease
    obtain ⟨first, rest, hsources, hgives⟩ := h.first s hash
    rw [settle_eq (h.allowing enough), hsources] at hsettle
    have hwide : s.transferred + (⟨enough, maxTransferBytes, declaredSize⟩ : FetchLimits).maxTransferBytes ≤
        (limits.allowing enough).maxTransferredBytes := hroom
    obtain ⟨-, -, hattempt⟩ := (populate_iff (h.allowing enough).intime hgives hwide).mp hsettle
    have hattempts : u.attempts = s.attempts + 1 := by
      obtain ⟨hshort, hdeclared⟩ := attemptSource_short hattempt
      obtain ⟨t', ht', hattempts, -⟩ := attemptSource_gives (s := s.attempting)
        (h.allowing enough).intime hgives hshort hdeclared hwide
      rw [(EStateM.Result.ok.inj (hattempt.symm.trans ht')).2, hattempts]
      rfl
    rw [Fits, hattempts] at hfits
    have hpopulate : populate w limits hash ⟨limits.maxAttempts, maxTransferBytes, declaredSize⟩
        (first :: rest) 0 [] s = .ok () u := by
      refine (populate_iff h.intime hgives hroom).mpr ⟨by dsimp only; omega, by omega, ?_⟩
      rwa [attemptSource_allowing enough _ _ _ enough]
    refine ⟨by rw [Fits]; omega, bind_ok.mpr ⟨(), u, ?_, lease_eq h⟩⟩
    rw [settle_eq h, hsources, hpopulate]

theorem fetch_follows (h : Healthy w limits kept cached) (declaredSize : Option ℕ) (ceiling : ℕ) :
    Follows (Fits limits) (fetch w limits hash declaredSize ceiling)
      (fetch w (limits.allowing enough) hash declaredSize ceiling) := by
  refine .bind (refuse_follows _ _) fun _ => .bind (debit_follows fun _ => rfl) fun _ => ?_
  intro s blob t hok hfits
  rw [get_bind] at hok ⊢
  obtain ⟨hpos, hok⟩ := refuse_bind hok
  obtain ⟨_, u, hstored, hok⟩ := bind_ok.mp hok
  obtain ⟨rfl, rfl⟩ := EStateM.Result.ok.inj hok
  have hlimit : 0 < transferLimit limits declaredSize ceiling s :=
    Nat.pos_of_ne_zero (by simpa [transferLimit, TraversalLimits.allowing] using hpos)
  obtain ⟨hs, hsame⟩ := ensureStored_follows h (transferLimit_room hlimit) hstored hfits
  refine ⟨hs, ?_⟩
  rw [show refuse (transferLimit limits declaredSize ceiling s = 0) _ = pure () from
    if_neg (by simpa using hlimit.ne'), pure_bind]
  exact bind_ok.mpr ⟨_, u, hsame, rfl⟩

theorem decodeManifest_follows (hash : Hash) :
    Follows (Fits limits) (decodeManifest w hash) (decodeManifest w hash) :=
  .same fun _ _ _ h hfits => (decodeManifest_ok h).2 ▸ hfits

theorem loadManifest_follows (h : Healthy w limits kept cached) :
    Follows (Fits limits) (loadManifest w limits hash) (loadManifest w (limits.allowing enough) hash) := by
  refine .bind .get fun s => ?_
  rw [h.loaded]
  by_cases hcached : hash ∈ cached
  · rw [if_pos hcached]
    exact decodeManifest_follows hash
  · rw [if_neg hcached]
    exact .bind (fetch_follows h _ _) fun blob => .bind (refuse_follows _ _) fun _ =>
      decodeManifest_follows hash

theorem manifestOf_follows (h : Healthy w limits kept cached) (hash : Hash) :
    Follows (Fits limits) (manifestOf w limits hash) (manifestOf w (limits.allowing enough) hash) := by
  have hvisit : Follows (Fits limits) (visitNode w limits hash)
      (visitNode w (limits.allowing enough) hash) := by
    refine debit_follows fun s => ?_
    split_ifs
    · rfl
    · rfl
  have hpush : Follows (Fits limits)
      (modify fun s => { s with manifests := hash :: s.manifests } : Program PUnit)
      (modify fun s => { s with manifests := hash :: s.manifests }) :=
    .same fun s a t hok hfits => by
      obtain ⟨-, rfl⟩ := EStateM.Result.ok.inj hok
      exact hfits
  refine .bind .get fun s => .ite ?_ ?_
  · exact .bind (decodeManifest_follows hash) fun decoded => .pure _
  · exact .bind hvisit fun _ => .bind (loadManifest_follows h) fun decoded =>
      .bind (debit_follows fun _ => rfl) fun _ => .bind hpush fun _ => .pure _

theorem planLink_follows {few many : Hash → Program FilePlan}
    (hvisit : ∀ hash, Follows (Fits limits) (few hash) (many hash)) (link : ManifestLink) :
    Follows (Fits limits) (planLink few link) (planLink many link) := by
  rw [planLink, planLink]
  cases link.type with
  | blob => exact .pure _
  | file => exact .bind (hvisit _) fun child => .bind (refuse_follows _ _) fun _ => .pure _
  | directory => exact .throw _
  | fanout => exact .throw _

theorem planLinks_follows {few many : Hash → Program FilePlan}
    (hvisit : ∀ hash, Follows (Fits limits) (few hash) (many hash)) (links : List ManifestLink)
    (plan : FilePlan) : Follows (Fits limits) (planLinks w limits few links plan)
      (planLinks w (limits.allowing enough) many links plan) := by
  induction links generalizing plan with
  | nil => exact .pure _
  | cons link links ih =>
    exact .bind (planLink_follows hvisit link) fun child => .bind (refuse_follows _ _) fun _ =>
      .bind (debit_follows fun _ => rfl) fun _ => ih _

theorem throwIfAborted_follows : Follows (Fits limits) (throwIfAborted w) (throwIfAborted w) :=
  .same fun _ _ _ h hfits => throwIfAborted_ok h ▸ hfits

theorem planFile_follows (h : Healthy w limits kept cached) (fuel depth : ℕ) (hash : Hash) :
    Follows (Fits limits) (planFile w limits fuel depth hash)
      (planFile w (limits.allowing enough) fuel depth hash) := by
  induction fuel generalizing depth hash with
  | zero => exact .throw _
  | succ fuel ih =>
    exact .bind throwIfAborted_follows fun _ => .bind (debit_follows fun _ => rfl) fun _ =>
      .bind (manifestOf_follows h hash) fun manifest => .bind (takeUp_follows _ _) fun _ =>
        .bind (refuse_follows _ _) fun _ => .bind (debit_follows fun _ => rfl) fun _ =>
          planLinks_follows (ih _) _ _

theorem descend_follows (h : Healthy w limits kept cached) (fuel depth : ℕ) (hash : Hash)
    (expected : LinkType) (segments : List String) :
    Follows (Fits limits) (descend w limits path fuel depth hash expected segments)
      (descend w (limits.allowing enough) path fuel depth hash expected segments) := by
  induction fuel generalizing depth hash expected segments with
  | zero => exact .throw _
  | succ fuel ih =>
    refine .bind (debit_follows fun _ => rfl) fun _ => .bind (manifestOf_follows h hash) fun manifest =>
      .bind (takeUp_follows _ _) fun _ => .bind (refuse_follows _ _) fun _ =>
        .bind (debit_follows fun _ => rfl) fun _ => ?_
    rcases nextLink manifest segments with _ | ⟨link, _ | ⟨segment, rest⟩⟩
    · exact .throw _
    · exact .pure _
    · exact ih _ _ _ _

theorem rawStream_follows (h : Healthy w limits kept cached) (size : ℕ) :
    Follows (Fits limits) (rawStream w limits hash size)
      (rawStream w (limits.allowing enough) hash size) :=
  .bind (fetch_follows h _ _) fun _ => .pure _

theorem serveLink_follows (h : Healthy w limits kept cached) (link : ManifestLink) :
    Follows (Fits limits) (serveLink w limits .get link)
      (serveLink w (limits.allowing enough) .get link) := by
  unfold serveLink
  cases link.type with
  | blob => exact .bind (rawStream_follows h _) fun body => .pure _
  | file =>
    have hplan : Follows (Fits limits) (filePlan w limits link.hash link.size)
        (filePlan w (limits.allowing enough) link.hash link.size) :=
      .bind (planFile_follows h _ _ _) fun plan => .bind (refuse_follows _ _) fun _ => .pure _
    exact .bind hplan fun plan => .pure _
  | directory => exact .throw _
  | fanout => exact .throw _

theorem resolve_follows (h : Healthy w limits kept cached) (root : Hash) :
    Follows (Fits limits) (resolve w limits root path .get)
      (resolve w (limits.allowing enough) root path .get) := by
  refine .bind (refuse_follows _ _) fun _ => .bind (descend_follows h _ _ _ _ _) fun link => ?_
  intro s found t hok hfits
  obtain ⟨hs, hsame⟩ := serveLink_follows h link s found t (namingPath_ok.mp hok) hfits
  exact ⟨hs, namingPath_ok.mpr hsame⟩

theorem pull_attempts (b : BlobStream) (s : Session) :
    (b.pull w limits s).2.attempts = s.attempts := by
  have hcases := b.pull_cases w limits s
  generalize b.pull w limits s = result at hcases
  cases hcases with
  | settled => rfl
  | ended => rfl
  | failed t hstate hsame =>
    rcases hsame with rfl | rfl
    · rfl
    · rfl
  | given piece rest t hstate hpieces hshort hdebit =>
    rw [(debit_ok hdebit).2]

/-- The body has not failed, and no more attempts have been taken than the limits allow. -/
def Going (limits : TraversalLimits) (x : FileStream × Session) : Prop :=
  x.1.state ≠ .errored ∧ Fits limits x.2

theorem FileStream.pull_follows (h : Healthy w limits kept cached) (f : FileStream) (s : Session)
    (hgoing : Going limits (f.pull w (limits.allowing enough) s)) :
    Going limits (f, s) ∧ f.pull w limits s = f.pull w (limits.allowing enough) s := by
  obtain ⟨chunks, reader, enqueued, state⟩ := f
  by_cases hstate : state = .readable
  · subst hstate
    rcases reader with - | b
    · rcases chunks with - | ⟨chunk, chunks⟩
      · exact ⟨⟨by simp, hgoing.2⟩, rfl⟩
      · simp only [FileStream.pull, ne_eq, not_true, if_false] at hgoing ⊢
        cases hraw : rawStream w (limits.allowing enough) chunk.hash chunk.size s with
        | ok b t =>
          rw [hraw] at hgoing
          obtain ⟨hs, hsame⟩ := rawStream_follows h _ s b t hraw hgoing.2
          exact ⟨⟨by simp, hs⟩, by rw [hsame]⟩
        | error e t =>
          rw [hraw] at hgoing
          exact absurd rfl hgoing.1
    · refine ⟨⟨by simp, ?_⟩, rfl⟩
      simp only [FileStream.pull, ne_eq, not_true, if_false] at hgoing
      rcases hqueue : b.queue with - | ⟨piece, rest⟩
      · rw [hqueue] at hgoing
        dsimp only at hgoing
        split_ifs at hgoing
        · exact hgoing.2
        · exact hgoing.2
        · exact hgoing.2
      · rw [hqueue] at hgoing
        exact hgoing.2
  · have hsettled : ∀ limits, FileStream.pull w limits ⟨chunks, reader, enqueued, state⟩ s =
        (⟨chunks, reader, enqueued, state⟩, s) := fun _ => if_pos hstate
    rw [hsettled] at hgoing ⊢
    exact ⟨hgoing, (hsettled _).symm⟩

theorem streamStep_follows (h : Healthy w limits kept cached) (x : FileStream × Session)
    (event : StreamEvent) (hgoing : Going limits (streamStep w (limits.allowing enough) x event)) :
    Going limits x ∧ streamStep w limits x event = streamStep w (limits.allowing enough) x event := by
  obtain ⟨f, s⟩ := x
  cases event with
  | pull => exact f.pull_follows h s hgoing
  | cancel =>
    refine ⟨?_, rfl⟩
    rw [streamStep] at hgoing
    split_ifs at hgoing with hstate
    · exact ⟨fun herrored => absurd (hstate.symm.trans herrored) (by simp), hgoing.2⟩
    · exact hgoing
  | read =>
    refine ⟨?_, rfl⟩
    obtain ⟨chunks, - | b, enqueued, state⟩ := f
    · exact hgoing
    · refine ⟨hgoing.1, ?_⟩
      have hfits : (b.pull w (limits.allowing enough) s).2.attempts ≤ limits.maxAttempts := hgoing.2
      rwa [pull_attempts] at hfits

theorem stream_follows (h : Healthy w limits kept cached) {x : FileStream × Session}
    {events : List StreamEvent} (hgoing : Going limits (run (streamStep w (limits.allowing enough)) x events)) :
    Going limits x ∧
      run (streamStep w limits) x events = run (streamStep w (limits.allowing enough)) x events :=
  run_follows (streamStep_follows h) hgoing

/-- A request that is served with enough attempts is served with as many as the store lacks blobs. -/
theorem attempts_decide {config : ConfiguredLimits} {now : ℕ} {root : Hash}
    (h : Healthy w (budgetFor config now) kept cached)
    (hsuffices : ∃ enough, Streams w ((budgetFor config now).allowing enough) root path) :
    Streams w (budgetFor config now) root path ↔
      missing w kept cached config.traversalDepth root path ≤ config.sourceAttempts := by
  constructor
  · rintro ⟨found, body, t, events, hfound, hbody, hclosed⟩
    obtain ⟨hattempts, hle⟩ := closed_attempts h hfound hbody hclosed
    exact hattempts ▸ hle
  · intro hle
    obtain ⟨enough, found, body, t, events, hfound, hbody, hclosed⟩ := hsuffices
    obtain ⟨hattempts, -⟩ := closed_attempts (h.allowing enough) hfound hbody hclosed
    have hgoing : Going (budgetFor config now)
        (run (streamStep w ((budgetFor config now).allowing enough)) (body, t) events) := by
      refine ⟨fun herrored => (nomatch hclosed.symm.trans herrored), ?_⟩
      rw [Fits, hattempts]
      exact hle
    obtain ⟨hbodyFits, hsame⟩ := stream_follows h hgoing
    obtain ⟨-, hresolved⟩ := resolve_follows h root _ found t hfound hbodyFits.2
    exact ⟨found, body, t, events, hresolved, hbody, hsame ▸ hclosed⟩

end Limits

section Samples

def sampleConfig (sourceAttempts : ℕ) : ConfiguredLimits :=
  ⟨4, 1, 10, 10, sourceAttempts, 100, 100, 100, 1⟩

theorem sample_healthy (sourceAttempts : ℕ) :
    Healthy (sampleWorld []) (budgetFor (sampleConfig sourceAttempts) 0) [] [] where
  stored := by simp [sampleWorld]
  loaded := fun _ _ => rfl
  alone := fun _ _ => rfl
  leased := fun _ _ => rfl
  first := fun s hash => ⟨_, [], rfl, rfl, rfl, rfl, Or.inl rfl, ⟨[hash], rfl, by simp [sampleWorld]⟩, rfl⟩
  intime := fun _ => Nat.zero_lt_one

def closes (w : World) (limits : TraversalLimits) (root : Hash) (path : String)
    (events : List StreamEvent) : Bool :=
  match resolve w limits root path .get .initial with
  | .error _ _ => false
  | .ok found t => found.body.any fun body =>
    (run (streamStep w limits) (body, t) events).1.state = .closed

theorem closes_streams {w : World} {limits : TraversalLimits} {root : Hash} {path : String}
    {events : List StreamEvent} (h : closes w limits root path events = true) :
    Streams w limits root path := by
  rw [closes] at h
  cases hfound : resolve w limits root path .get .initial with
  | error e t =>
    rw [hfound] at h
    exact nomatch h
  | ok found t =>
    rw [hfound] at h
    obtain ⟨body, hbody, hclosed⟩ := (Option.any_eq_true _ _).mp h
    exact ⟨found, body, t, events, hfound, hbody, of_decide_eq_true hclosed⟩

theorem sample_streams : Streams (sampleWorld []) (budgetFor (sampleConfig 4) 0) [0] "a" :=
  closes_streams (show closes _ _ _ _
    [.pull, .read, .pull, .read, .pull, .pull, .read, .pull, .read, .pull, .pull] = true by decide +kernel)

theorem attempts_decide_sample :
    ¬ Streams (sampleWorld []) (budgetFor (sampleConfig 3) 0) [0] "a" :=
  (attempts_decide (sample_healthy 3) ⟨4, sample_streams⟩).not.mpr (by decide +kernel)

/-- One attempt does for each of the four blobs, and not for the four of them. -/
theorem healthy_source_exhausts : Healthy (sampleWorld []) (budgetFor (sampleConfig 1) 0) [] [] ∧
    (∃ enough, Streams (sampleWorld []) ((budgetFor (sampleConfig 1) 0).allowing enough) [0] "a") ∧
      ¬ Streams (sampleWorld []) (budgetFor (sampleConfig 1) 0) [0] "a" := by
  refine ⟨sample_healthy 1, ⟨4, sample_streams⟩, ?_⟩
  rintro ⟨found, body, t, events, hfound, -⟩
  have hfails : returned (resolve (sampleWorld []) (budgetFor (sampleConfig 1) 0) [0] "a" .get)
      .initial = none := by decide +kernel
  exact nomatch hfails.symm.trans (returned_eq_some.mpr ⟨t, hfound⟩)

end Samples

end NixstrCache.Hashtree.Reader

import NixstrCache.Config.PublicationConfig
import NixstrCache.Persistence.Schema
import NixstrCache.Protocol.Hashtree

/-!
Signed authorizations for uploads.

Servers with one host name share a scope, and all servers without a name that can be signed share one.
In each scope the hashes are taken in order into groups as large as the limits allow, and each group is
signed in one event.  The size of a header is measured before the event is signed, with zeros in the
place of what the signer fills in, and once more afterwards.
-/

namespace NixstrCache.Blossom

open Config Persistence Protocol

section Model

def MAX_UPLOAD_AUTHORIZATION_HASHES : ℤ := 64

def MAX_UPLOAD_AUTHORIZATION_HEADER_BYTES : ℤ := 6 * 1024

structure UploadOptions where
  hashes : List String
  servers : List String
  now : ℤ
  lifetimeSeconds : Option ℤ
  maxHashesPerEvent : Option ℤ
  maxHeaderBytes : Option ℤ
deriving DecidableEq, Repr

inductive UploadError where
  | range (message : String)
  | type (message : String)
  | failed (message : String)
  /-- The loop over the groups has not come to an end. -/
  | spinning
deriving DecidableEq, Repr

structure UploadScope where
  key : String
  domain : Option String
  servers : List String
deriving DecidableEq, Repr

structure UploadSigning where
  headers : String → String → Option String
  eventCount : ℕ
  events : List RawPublication

structure UploadAuthorizationBatch where
  expiration : ℤ
  eventCount : ℕ
  header : String → String → Option String
  events : List RawPublication

/-- A character in a string of `JSON.stringify`. -/
def jsonChar (c : Char) : List Char :=
  if c = '"' then ['\\', '"']
  else if c = '\\' then ['\\', '\\']
  else if c.toNat = 8 then ['\\', 'b']
  else if c.toNat = 9 then ['\\', 't']
  else if c.toNat = 10 then ['\\', 'n']
  else if c.toNat = 12 then ['\\', 'f']
  else if c.toNat = 13 then ['\\', 'r']
  else if c.toNat < 32 then
    ['\\', 'u', '0', '0', Nat.digitChar (c.toNat / 16), Nat.digitChar (c.toNat % 16)]
  else [c]

def jsonString (s : String) : List Char :=
  '"' :: s.toList.flatMap jsonChar ++ ['"']

def jsonArray (items : List (List Char)) : List Char :=
  '[' :: [','].intercalate items ++ [']']

def jsonField (name : String) (value : List Char) : List Char :=
  jsonString name ++ ':' :: value

/-- `JSON.stringify` of an event with its fields in the canonical order. -/
def jsonEvent (event : RawPublication) : List Char :=
  '{' :: [','].intercalate
    [jsonField "id" (jsonString event.id), jsonField "pubkey" (jsonString event.pubkey),
      jsonField "created_at" (toString event.createdAt).toList,
      jsonField "kind" (toString event.kind).toList,
      jsonField "tags" (jsonArray (event.tags.map fun tag => jsonArray (tag.map jsonString))),
      jsonField "content" (jsonString event.content), jsonField "sig" (jsonString event.sig)] ++ ['}']

def urlSafe (c : Char) : Char :=
  if c = '+' then '-' else if c = '/' then '_' else c

def encodeAuthorizationHeader (event : RawPublication) : String :=
  let encoded := (btoa (utf8 (String.ofList (jsonEvent event)))).map urlSafe
  "Nostr " ++ String.ofList (encoded.reverse.dropWhile (· = '=')).reverse

def authorizationFieldBytes (value : String) : ℕ :=
  (utf8 ("Authorization: " ++ value ++ "\r\n")).length

def conservativeAuthorizationFieldBytes (template : EventTemplate) : ℕ :=
  authorizationFieldBytes (encodeAuthorizationHeader
    { id := String.ofList (List.replicate 64 '0')
      pubkey := String.ofList (List.replicate 64 '0')
      createdAt := template.createdAt
      kind := template.kind
      tags := template.tags
      content := template.content
      sig := String.ofList (List.replicate 128 '0') })

/-- `/^\d+(?:\.\d+){3}$/`. -/
def isDotted (hostname : List Char) : Bool :=
  let parts := hostname.splitOn '.'
  parts.length = 4 ∧ parts.all fun part => part ≠ [] ∧ part.all Char.isDigit

def isDomainEnd (c : Char) : Bool :=
  ('a' ≤ c ∧ c ≤ 'z') ∨ c.isDigit

/-- `/^[a-z0-9](?:[a-z0-9.-]*[a-z0-9])?$/`. -/
def isDomain (hostname : List Char) : Bool :=
  hostname.head?.any isDomainEnd ∧ hostname.getLast?.any isDomainEnd ∧
    hostname.all fun c => isDomainEnd c ∨ c = '.' ∨ c = '-'

variable (v : Validator)

/-- The domain that a server can be scoped to, if any, or nothing for a text that is no URL. -/
def scopedDomain (server : String) : Option (Option String) :=
  (v.parseUrl server).map fun url =>
    let hostname := (v.toLowerCase url.hostname).toList
    if ':' ∈ hostname ∨ isDotted hostname = true ∨ isDomain hostname = false then none
    else some (String.ofList hostname)

def domainTags (domain : Option String) : List (List String) :=
  domain.toList.map fun domain => ["server", domain]

def uploadTemplate (now expiration : ℤ) (domain : Option String) (hashes : List String) :
    EventTemplate where
  kind := 24242
  createdAt := now
  content := "Upload Nix cache blobs"
  tags := [["t", "upload"], ["expiration", toString expiration]] ++ domainTags domain ++
    hashes.map fun hash => ["x", hash]

def exactSignedTemplate (event : RawPublication) (template : EventTemplate) : Bool :=
  event.kind = template.kind ∧ event.createdAt = template.createdAt ∧
    event.content = template.content ∧ event.tags = template.tags ∧ v.verifyEvent event = some true

def addServer (scopes : List UploadScope) (server : String) : Except UploadError (List UploadScope) :=
  match scopedDomain v server with
  | none => .error (.type "Invalid URL")
  | some domain =>
    let key := domain.getD "*"
    if scopes.any fun scope => scope.key = key then
      .ok (scopes.map fun scope =>
        if scope.key = key then { scope with servers := scope.servers ++ [server] } else scope)
    else .ok (scopes ++ [⟨key, domain, [server]⟩])

/-- The inner loop: hashes join the group while the limits allow it. -/
def fillGroup (fits : List String → Bool) (maxHashes : ℤ) (group : List String) :
    List String → Except UploadError (List String × List String)
  | [] => .ok (group, [])
  | hash :: rest =>
    if (group.length : ℤ) < maxHashes then
      if fits (group ++ [hash]) then fillGroup fits maxHashes (group ++ [hash]) rest
      else if group = [] then
        .error (.range "upload authorization header limit cannot fit one hash")
      else .ok (group, hash :: rest)
    else .ok (group, hash :: rest)

/-- What the signer gives for the next template, or nothing when it fails or the signal is aborted. -/
abbrev UploadSigner := ℕ → EventTemplate → Option RawPublication

variable (signer : UploadSigner) (options : UploadOptions)

def UploadOptions.maxHashes : ℤ :=
  options.maxHashesPerEvent.getD MAX_UPLOAD_AUTHORIZATION_HASHES

def UploadOptions.headerLimit : ℤ :=
  options.maxHeaderBytes.getD MAX_UPLOAD_AUTHORIZATION_HEADER_BYTES

def UploadOptions.expiration : ℤ :=
  options.now + options.lifetimeSeconds.getD 3600

def signGroup (scope : UploadScope) (group : List String) (s : UploadSigning) :
    Except UploadError UploadSigning :=
  let template := uploadTemplate options.now options.expiration scope.domain group
  match signer s.eventCount template with
  | none => .error (.failed "signer failed")
  | some event =>
    if exactSignedTemplate v event template = false then
      .error (.failed "signer changed Blossom authorization template")
    else
      let header := encodeAuthorizationHeader event
      if options.headerLimit < authorizationFieldBytes header then
        .error (.range "signed upload authorization header oversized")
      else
        .ok
          { headers := fun server hash =>
              if server ∈ scope.servers ∧ hash ∈ group then some header else s.headers server hash
            eventCount := s.eventCount + 1
            events := s.events ++ [event] }

/-- The outer loop over the hashes that are left, for this many rounds. -/
def signScope (scope : UploadScope) :
    ℕ → List String → UploadSigning → Except UploadError UploadSigning
  | 0, _, _ => .error .spinning
  | _ + 1, [], s => .ok s
  | rounds + 1, hash :: rest, s => do
    let fits := fun group =>
      (conservativeAuthorizationFieldBytes
        (uploadTemplate options.now options.expiration scope.domain group) : ℤ) ≤ options.headerLimit
    let (group, left) ← fillGroup fits options.maxHashes [] (hash :: rest)
    let s ← signGroup v signer options scope group s
    signScope scope rounds left s

/-- `[...new Set(options.hashes)]`. -/
def UploadOptions.distinct : List String :=
  options.hashes.eraseDups

def createUploadAuthorizationBatch : Except UploadError UploadAuthorizationBatch :=
  if isSafeInteger options.maxHashes = false ∨ options.maxHashes < 1 then
    .error (.range "invalid upload authorization hash limit")
  else if isSafeInteger options.headerLimit = false ∨ options.headerLimit < 1 then
    .error (.range "invalid upload authorization header limit")
  else if options.distinct = [] ∨ options.distinct.any fun hash => ¬ isEventId hash then
    .error (.type "invalid upload authorization hashes")
  else do
    let scopes ← options.servers.foldlM (addServer v) []
    let signed ← scopes.foldlM (fun s scope =>
      signScope v signer options scope (options.distinct.length + 1) options.distinct s)
      ⟨fun _ _ => none, 0, []⟩
    return ⟨options.expiration, signed.eventCount, signed.headers, signed.events⟩

end Model

section Events

def serverTags (event : RawPublication) : List (List String) :=
  event.tags.filter fun tag => tag.head? = some "server"

def hashTags (event : RawPublication) : List (List String) :=
  event.tags.filter fun tag => tag.head? = some "x"

def authorizes (domain : Option String) (hash : String) (event : RawPublication) : Bool :=
  serverTags event = domainTags domain ∧ ["x", hash] ∈ event.tags

variable {options : UploadOptions} {hashes : List String} {domain : Option String}
  {event : RawPublication}

/-- Neither the tags nor the header of an event pass a limit. -/
structure Within (options : UploadOptions) (hashes : List String) (event : RawPublication) : Prop where
  few : ((hashTags event).length : ℤ) ≤ options.maxHashes
  short : (authorizationFieldBytes (encodeAuthorizationHeader event) : ℤ) ≤ options.headerLimit
  requested : ∀ tag ∈ hashTags event, ∃ hash ∈ hashes, tag = ["x", hash]

theorem Within.mono {more : List String} (h : Within options hashes event) (hsub : hashes ⊆ more) :
    Within options more event := by
  refine ⟨h.few, h.short, fun tag htag => ?_⟩
  obtain ⟨hash, hmem, htag⟩ := h.requested tag htag
  exact ⟨hash, hsub hmem, htag⟩

theorem domainTags_inj {a b : Option String} (h : domainTags a = domainTags b) : a = b := by
  cases a <;> cases b <;> simp_all [domainTags]

theorem serverTags_template {now expiration : ℤ}
    (h : event.tags = (uploadTemplate now expiration domain hashes).tags) :
    serverTags event = domainTags domain := by
  have hx : (hashes.map fun hash => ["x", hash]).filter (fun tag => tag.head? = some "server") = [] := by
    simp [List.filter_eq_nil_iff]
  have hs : (domainTags domain).filter (fun tag => tag.head? = some "server") = domainTags domain := by
    cases domain <;> simp [domainTags]
  simp [serverTags, h, uploadTemplate, List.filter_append, hx, hs]

theorem hashTags_template {now expiration : ℤ}
    (h : event.tags = (uploadTemplate now expiration domain hashes).tags) :
    hashTags event = hashes.map fun hash => ["x", hash] := by
  have hx : (hashes.map fun hash => ["x", hash]).filter (fun tag => tag.head? = some "x") =
      hashes.map fun hash => ["x", hash] := by
    simp [List.filter_eq_self]
  have hs : (domainTags domain).filter (fun tag => tag.head? = some "x") = [] := by
    cases domain <;> simp [domainTags]
  simp [hashTags, h, uploadTemplate, List.filter_append, hx, hs]

theorem mem_template {now expiration : ℤ} {hash : String}
    (h : event.tags = (uploadTemplate now expiration domain hashes).tags) :
    ["x", hash] ∈ event.tags ↔ hash ∈ hashes := by
  have hs : ["x", hash] ∉ domainTags domain := by
    cases domain <;> simp [domainTags]
  simp [h, uploadTemplate, hs]

theorem authorizes_template {now expiration : ℤ} {other : Option String} {hash : String}
    (h : event.tags = (uploadTemplate now expiration domain hashes).tags) :
    authorizes other hash event = true ↔ other = domain ∧ hash ∈ hashes := by
  rw [authorizes, decide_eq_true_iff, serverTags_template h, mem_template h]
  constructor
  · intro hboth
    exact ⟨(domainTags_inj hboth.1).symm, hboth.2⟩
  · intro hboth
    exact ⟨by rw [hboth.1], hboth.2⟩

end Events

section Groups

theorem bind_ends {ε α β : Type} {x : Except ε α} {f : α → Except ε β} {e : ε} (hx : x ≠ .error e)
    (hf : ∀ a, x = .ok a → f a ≠ .error e) : (x >>= f) ≠ .error e := by
  cases x with
  | error e' => exact fun h => hx (congrArg _ (Except.error.inj h))
  | ok a => exact hf a rfl

theorem foldlM_ends {ε α β : Type} {f : β → α → Except ε β} {e : ε} (hf : ∀ b a, f b a ≠ .error e)
    (items : List α) (b : β) : items.foldlM f b ≠ .error e := by
  induction items generalizing b with
  | nil => simp [pure, Except.pure]
  | cons a items ih => exact bind_ends (hf b a) fun next _ => ih next

variable {fits : List String → Bool} {maxHashes : ℤ} {group rest : List String}
  {out : List String × List String}

theorem fillGroup_ok (h : fillGroup fits maxHashes group rest = .ok out) :
    ∃ taken, out.1 = group ++ taken ∧ rest = taken ++ out.2 ∧
      ((group.length : ℤ) ≤ maxHashes → (out.1.length : ℤ) ≤ maxHashes) := by
  induction rest generalizing group with
  | nil =>
    obtain rfl : (group, []) = out := by simpa [fillGroup] using h
    exact ⟨[], by simp, rfl, id⟩
  | cons hash rest ih =>
    rw [fillGroup] at h
    split_ifs at h with hroom hfits hempty
    · obtain ⟨taken, hgroup, hrest, hlength⟩ := ih h
      refine ⟨hash :: taken, by simpa using hgroup, by rw [hrest, List.cons_append], ?_⟩
      intro _
      apply hlength
      rw [List.length_append, List.length_singleton]
      omega
    · obtain rfl : (group, hash :: rest) = out := by simpa using h
      exact ⟨[], by simp, rfl, id⟩
    · obtain rfl : (group, hash :: rest) = out := by simpa using h
      exact ⟨[], by simp, rfl, id⟩

theorem fillGroup_advances {hash : String} (hmax : 1 ≤ maxHashes)
    (h : fillGroup fits maxHashes [] (hash :: rest) = .ok out) : out.2.length ≤ rest.length := by
  rw [fillGroup] at h
  split_ifs at h with hroom hfits hempty
  · obtain ⟨taken, -, hrest, -⟩ := fillGroup_ok h
    rw [hrest, List.length_append]
    omega
  · simp at hempty
  · rw [List.length_nil] at hroom
    omega

theorem fillGroup_ends : fillGroup fits maxHashes group rest ≠ .error .spinning := by
  induction rest generalizing group with
  | nil => simp [fillGroup]
  | cons hash rest ih =>
    rw [fillGroup]
    split_ifs
    · exact ih
    all_goals simp

end Groups

section Batches

variable {v : Validator} {signer : UploadSigner} {options : UploadOptions}

/-- What signing does for these pairs of a scope and a hash. -/
structure Signs (options : UploadOptions) (pairs : List (UploadScope × String)) (s t : UploadSigning)
    (added : List RawPublication) : Prop where
  events : t.events = s.events ++ added
  eventCount : t.eventCount = s.eventCount + added.length
  within : ∀ event ∈ added, Within options (pairs.map (·.2)) event
  once : ∀ domain hash, added.countP (authorizes domain hash) =
    (pairs.map fun pair => (pair.1.domain, pair.2)).count (domain, hash)
  covered : ∀ server hash, (∃ scope, (scope, hash) ∈ pairs ∧ server ∈ scope.servers) →
    ∃ scope, (scope, hash) ∈ pairs ∧ server ∈ scope.servers ∧ ∃ event ∈ added,
      t.headers server hash = some (encodeAuthorizationHeader event) ∧
        authorizes scope.domain hash event = true
  kept : ∀ server hash, (¬ ∃ scope, (scope, hash) ∈ pairs ∧ server ∈ scope.servers) →
    t.headers server hash = s.headers server hash

theorem Signs.nil (s : UploadSigning) : Signs options [] s s [] where
  events := by simp
  eventCount := rfl
  within := by simp
  once := by simp
  covered := by simp
  kept := fun _ _ _ => rfl

theorem Signs.append {first second : List (UploadScope × String)} {s t u : UploadSigning}
    {before after : List RawPublication} (h : Signs options first s t before)
    (h' : Signs options second t u after) :
    Signs options (first ++ second) s u (before ++ after) where
  events := by rw [h'.events, h.events, List.append_assoc]
  eventCount := by rw [h'.eventCount, h.eventCount, List.length_append, Nat.add_assoc]
  within := by
    intro event hevent
    rw [List.map_append]
    rcases List.mem_append.mp hevent with hevent | hevent
    · exact (h.within event hevent).mono (List.subset_append_left _ _)
    · exact (h'.within event hevent).mono (List.subset_append_right _ _)
  once := by
    intro domain hash
    rw [List.countP_append, List.map_append, List.count_append, h.once, h'.once]
  covered := by
    intro server hash hpair
    by_cases hlater : ∃ scope, (scope, hash) ∈ second ∧ server ∈ scope.servers
    · obtain ⟨scope, hmem, hserver, event, hevent, hheader⟩ := h'.covered server hash hlater
      exact ⟨scope, List.mem_append_right _ hmem, hserver, event, List.mem_append_right _ hevent,
        hheader⟩
    · have hfirst : ∃ scope, (scope, hash) ∈ first ∧ server ∈ scope.servers := by
        obtain ⟨scope, hmem, hserver⟩ := hpair
        rcases List.mem_append.mp hmem with hmem | hmem
        · exact ⟨scope, hmem, hserver⟩
        · exact absurd ⟨scope, hmem, hserver⟩ hlater
      obtain ⟨scope, hmem, hserver, event, hevent, hheader, hauth⟩ := h.covered server hash hfirst
      refine ⟨scope, List.mem_append_left _ hmem, hserver, event, List.mem_append_left _ hevent, ?_,
        hauth⟩
      rw [h'.kept server hash hlater, hheader]
  kept := by
    intro server hash hpair
    have hno : ∀ scope, (scope, hash) ∈ first ++ second → server ∉ scope.servers :=
      fun scope hmem hserver => hpair ⟨scope, hmem, hserver⟩
    rw [h'.kept server hash, h.kept server hash]
    · rintro ⟨scope, hmem, hserver⟩
      exact hno scope (List.mem_append_left _ hmem) hserver
    · rintro ⟨scope, hmem, hserver⟩
      exact hno scope (List.mem_append_right _ hmem) hserver

theorem signGroup_ok {scope : UploadScope} {group : List String} {s t : UploadSigning}
    (h : signGroup v signer options scope group s = .ok t) (hnodup : group.Nodup)
    (hfew : (group.length : ℤ) ≤ options.maxHashes) :
    ∃ event, Signs options (group.map (Prod.mk scope)) s t [event] := by
  simp only [signGroup] at h
  split at h
  · exact absurd h (by simp)
  rename_i event _
  split_ifs at h with hchanged hlong
  obtain rfl := Except.ok.inj h
  have htags : event.tags =
      (uploadTemplate options.now options.expiration scope.domain group).tags := by
    rw [Bool.not_eq_false, exactSignedTemplate, decide_eq_true_iff] at hchanged
    exact hchanged.2.2.2.1
  refine ⟨event, rfl, rfl, ?_, ?_, ?_, ?_⟩
  · intro other hother
    obtain rfl := List.mem_singleton.mp hother
    refine ⟨?_, not_lt.mp hlong, ?_⟩
    · rw [hashTags_template htags, List.length_map]
      exact hfew
    · intro tag htag
      rw [hashTags_template htags] at htag
      obtain ⟨hash, hhash, rfl⟩ := List.mem_map.mp htag
      exact ⟨hash, by simpa using hhash, rfl⟩
  · intro domain hash
    have hpairs : (group.map fun hash => (scope.domain, hash)).Nodup :=
      hnodup.map fun a b hab => (Prod.mk.inj hab).2
    rw [List.countP_singleton, List.map_map]
    refine (List.Nodup.count hpairs).symm ▸ if_congr ?_ rfl rfl
    rw [authorizes_template htags, List.mem_map]
    constructor
    · intro hboth
      exact ⟨hash, hboth.2, by rw [hboth.1]⟩
    · rintro ⟨hash', hmem, heq⟩
      obtain ⟨rfl, rfl⟩ := Prod.mk.inj heq
      exact ⟨rfl, hmem⟩
  · rintro server hash ⟨other, hmem, hserver⟩
    obtain ⟨hash', hhash, heq⟩ := List.mem_map.mp hmem
    obtain ⟨rfl, rfl⟩ := Prod.mk.inj heq
    refine ⟨scope, hmem, hserver, event, List.mem_singleton_self _, ?_, ?_⟩
    · simp [hserver, hhash]
    · exact (authorizes_template htags).mpr ⟨rfl, hhash⟩
  · intro server hash hpair
    have hno : ¬ (server ∈ scope.servers ∧ hash ∈ group) := by
      rintro ⟨hserver, hhash⟩
      exact hpair ⟨scope, List.mem_map_of_mem hhash, hserver⟩
    simp [hno]

theorem signGroup_ends {scope : UploadScope} {group : List String} {s : UploadSigning} :
    signGroup v signer options scope group s ≠ .error .spinning := by
  simp only [signGroup]
  split
  · simp
  · split_ifs <;> simp

theorem signScope_ok {scope : UploadScope} {rounds : ℕ} {rest : List String} {s t : UploadSigning}
    (h : signScope v signer options scope rounds rest s = .ok t) (hnodup : rest.Nodup)
    (hmax : 1 ≤ options.maxHashes) :
    ∃ added, Signs options (rest.map (Prod.mk scope)) s t added := by
  induction rounds generalizing rest s with
  | zero => simp [signScope] at h
  | succ rounds ih =>
    rcases rest with - | ⟨hash, rest⟩
    · obtain rfl : s = t := by simpa [signScope] using h
      exact ⟨[], Signs.nil s⟩
    · rw [signScope] at h
      obtain ⟨⟨group, left⟩, hfill, h⟩ := bind_eq_ok.mp h
      obtain ⟨u, hsign, h⟩ := bind_eq_ok.mp h
      obtain ⟨taken, hgroup, hrest, hfew⟩ := fillGroup_ok hfill
      obtain rfl : group = taken := hgroup
      rw [hrest, List.nodup_append] at hnodup
      obtain ⟨event, hfirst⟩ := signGroup_ok hsign hnodup.1 (hfew (by simp; omega))
      obtain ⟨added, hlater⟩ := ih h hnodup.2.1
      rw [hrest, List.map_append]
      exact ⟨event :: added, hfirst.append hlater⟩

theorem signScope_ends {scope : UploadScope} {rounds : ℕ} {rest : List String} {s : UploadSigning}
    (hrounds : rest.length < rounds) (hmax : 1 ≤ options.maxHashes) :
    signScope v signer options scope rounds rest s ≠ .error .spinning := by
  induction rounds generalizing rest s with
  | zero => exact absurd hrounds (by simp)
  | succ rounds ih =>
    rcases rest with - | ⟨hash, rest⟩
    · simp [signScope]
    rw [signScope]
    refine bind_ends fillGroup_ends fun out hfill => bind_ends signGroup_ends fun u _ => ?_
    have hleft := fillGroup_advances hmax hfill
    rw [List.length_cons] at hrounds
    exact ih (by omega)

theorem signScopes_ok {scopes : List UploadScope} {hashes : List String} {rounds : ℕ}
    {s t : UploadSigning}
    (h : scopes.foldlM (fun s scope => signScope v signer options scope rounds hashes s) s = .ok t)
    (hnodup : hashes.Nodup) (hmax : 1 ≤ options.maxHashes) :
    ∃ added, Signs options (scopes.flatMap fun scope => hashes.map (Prod.mk scope)) s t added := by
  induction scopes generalizing s with
  | nil =>
    obtain rfl : s = t := Except.ok.inj h
    exact ⟨[], Signs.nil s⟩
  | cons scope scopes ih =>
    rw [List.foldlM_cons] at h
    obtain ⟨u, hfirst, h⟩ := bind_eq_ok.mp h
    obtain ⟨before, hbefore⟩ := signScope_ok hfirst hnodup hmax
    obtain ⟨after, hafter⟩ := ih h
    exact ⟨before ++ after, hbefore.append hafter⟩

end Batches

section Scopes

variable {v : Validator}

theorem scopedDomain_ne {server : String} : scopedDomain v server ≠ some (some "*") := by
  intro h
  rw [scopedDomain, Option.map_eq_some_iff] at h
  obtain ⟨url, -, h⟩ := h
  dsimp only at h
  split_ifs at h with hno
  have hname : (v.toLowerCase url.hostname).toList = ['*'] := by
    have h := congrArg String.toList (Option.some.inj h)
    rwa [String.toList_ofList] at h
  rw [hname] at hno
  exact hno (by decide)

structure ScopesOf (v : Validator) (servers : List String) (scopes : List UploadScope) : Prop where
  keys : (scopes.map UploadScope.key).Nodup
  key : ∀ scope ∈ scopes, scope.key = scope.domain.getD "*" ∧ scope.domain ≠ some "*"
  named : ∀ scope ∈ scopes, ∀ server ∈ scope.servers, scopedDomain v server = some scope.domain
  complete : ∀ server ∈ servers, ∃ scope ∈ scopes, server ∈ scope.servers

theorem getD_star {a b : Option String} (ha : a ≠ some "*") (hb : b ≠ some "*")
    (h : a.getD "*" = b.getD "*") : a = b := by
  cases a <;> cases b <;> simp_all

theorem ScopesOf.domains {servers : List String} {scopes : List UploadScope}
    (h : ScopesOf v servers scopes) : (scopes.map UploadScope.domain).Nodup := by
  have hkeys : scopes.map UploadScope.key =
      (scopes.map UploadScope.domain).map fun domain => domain.getD "*" := by
    rw [List.map_map]
    exact List.map_congr_left fun scope hscope => (h.key scope hscope).1
  exact List.Nodup.of_map _ (hkeys ▸ h.keys)

theorem ScopesOf.joined {servers : List String} {server : String} {scopes : List UploadScope}
    {domain : Option String} (h : ScopesOf v servers scopes)
    (hdomain : scopedDomain v server = some domain)
    (hany : ∃ scope ∈ scopes, scope.key = domain.getD "*") :
    ScopesOf v (servers ++ [server]) (scopes.map fun scope =>
      if scope.key = domain.getD "*" then
        { scope with servers := scope.servers ++ [server] } else scope) where
  keys := by
    have hkeys : (scopes.map fun scope => if scope.key = domain.getD "*" then
        { scope with servers := scope.servers ++ [server] } else scope).map UploadScope.key =
        scopes.map UploadScope.key := by
      rw [List.map_map]
      refine List.map_congr_left fun scope _ => ?_
      simp only [Function.comp_apply]
      split_ifs <;> rfl
    rw [hkeys]
    exact h.keys
  key := by
    intro scope hscope
    obtain ⟨old, hold, rfl⟩ := List.mem_map.mp hscope
    split_ifs
    · exact h.key old hold
    · exact h.key old hold
  named := by
    intro scope hscope other hother
    obtain ⟨old, hold, rfl⟩ := List.mem_map.mp hscope
    split_ifs at hother ⊢ with hkey
    · rcases List.mem_append.mp hother with hother | hother
      · exact h.named old hold other hother
      · have hstar : domain ≠ some "*" := fun hs => scopedDomain_ne (hs ▸ hdomain)
        have hsame := getD_star (h.key old hold).2 hstar ((h.key old hold).1 ▸ hkey)
        rw [List.mem_singleton.mp hother, hdomain, hsame]
    · exact h.named old hold other hother
  complete := by
    intro other hother
    rcases List.mem_append.mp hother with hother | hother
    · obtain ⟨scope, hscope, hserver⟩ := h.complete other hother
      refine ⟨_, List.mem_map_of_mem hscope, ?_⟩
      split_ifs
      · exact List.mem_append_left _ hserver
      · exact hserver
    · obtain ⟨scope, hscope, hkey⟩ := hany
      refine ⟨_, List.mem_map_of_mem hscope, ?_⟩
      rw [if_pos hkey]
      exact List.mem_append_right _ hother

theorem ScopesOf.opened {servers : List String} {server : String} {scopes : List UploadScope}
    {domain : Option String} (h : ScopesOf v servers scopes)
    (hdomain : scopedDomain v server = some domain)
    (hnew : ∀ scope ∈ scopes, scope.key ≠ domain.getD "*") :
    ScopesOf v (servers ++ [server]) (scopes ++ [⟨domain.getD "*", domain, [server]⟩]) where
  keys := by
    have hkey : domain.getD "*" ∉ scopes.map UploadScope.key := by
      intro hmem
      obtain ⟨scope, hscope, hkey⟩ := List.mem_map.mp hmem
      exact hnew scope hscope hkey
    rw [List.map_append, List.map_singleton]
    refine List.nodup_append.mpr ⟨h.keys, List.nodup_singleton _, ?_⟩
    intro a ha b hb heq
    rw [heq, List.mem_singleton.mp hb] at ha
    exact hkey ha
  key := by
    intro scope hscope
    rcases List.mem_append.mp hscope with hscope | hscope
    · exact h.key scope hscope
    · obtain rfl := List.mem_singleton.mp hscope
      refine ⟨rfl, fun hs => ?_⟩
      rw [show domain = some "*" from hs] at hdomain
      exact scopedDomain_ne hdomain
  named := by
    intro scope hscope other hother
    rcases List.mem_append.mp hscope with hscope | hscope
    · exact h.named scope hscope other hother
    · obtain rfl := List.mem_singleton.mp hscope
      rw [List.mem_singleton.mp hother, hdomain]
  complete := by
    intro other hother
    rcases List.mem_append.mp hother with hother | hother
    · obtain ⟨scope, hscope, hserver⟩ := h.complete other hother
      exact ⟨scope, List.mem_append_left _ hscope, hserver⟩
    · exact ⟨_, List.mem_append_right _ (List.mem_singleton_self _), hother⟩

theorem addServer_ok {servers : List String} {server : String} {scopes next : List UploadScope}
    (hadd : addServer v scopes server = .ok next) (h : ScopesOf v servers scopes) :
    ScopesOf v (servers ++ [server]) next := by
  rw [addServer] at hadd
  split at hadd
  · exact absurd hadd (by simp)
  rename_i domain hdomain
  dsimp only at hadd
  split_ifs at hadd with hany
  · obtain rfl := Except.ok.inj hadd
    exact h.joined hdomain (by simpa using hany)
  · obtain rfl := Except.ok.inj hadd
    exact h.opened hdomain (by simpa using hany)

theorem addServers_ok {done servers : List String} {scopes next : List UploadScope}
    (hadd : servers.foldlM (addServer v) scopes = .ok next) (h : ScopesOf v done scopes) :
    ScopesOf v (done ++ servers) next := by
  induction servers generalizing done scopes with
  | nil =>
    obtain rfl : scopes = next := Except.ok.inj hadd
    rwa [List.append_nil]
  | cons server servers ih =>
    rw [List.foldlM_cons] at hadd
    obtain ⟨middle, hfirst, hadd⟩ := bind_eq_ok.mp hadd
    have hall := ih hadd (addServer_ok hfirst h)
    rwa [List.append_assoc, List.singleton_append] at hall

theorem addServer_ends {server : String} {scopes : List UploadScope} :
    addServer v scopes server ≠ .error .spinning := by
  rw [addServer]
  split
  · simp
  · dsimp only
    split_ifs <;> simp

end Scopes

section Batch

theorem nodup_eraseDups {α : Type} [DecidableEq α] (items : List α) : items.eraseDups.Nodup := by
  induction hn : items.length using Nat.strong_induction_on generalizing items with
  | _ n ih =>
    rcases items with - | ⟨a, items⟩
    · simp
    · rw [List.eraseDups_cons, List.nodup_cons]
      have hshort : (items.filter fun b => !b == a).length < n := by
        rw [← hn, List.length_cons]
        exact Nat.lt_succ_of_le (List.length_filter_le _ _)
      exact ⟨by simp [List.mem_eraseDups], ih _ hshort _ rfl⟩

variable {v : Validator} {signer : UploadSigner} {options : UploadOptions}

/-- The batch has a header for every request and no event for anything else. -/
structure Covers (v : Validator) (options : UploadOptions) (batch : UploadAuthorizationBatch) :
    Prop where
  covered : ∀ server ∈ options.servers, ∀ hash ∈ options.hashes, ∃ event ∈ batch.events,
    batch.header server hash = some (encodeAuthorizationHeader event) ∧
      ["x", hash] ∈ event.tags ∧
        ∃ domain, scopedDomain v server = some domain ∧ serverTags event = domainTags domain
  within : ∀ event ∈ batch.events, Within options options.hashes event
  once : ∀ server ∈ options.servers, ∀ domain, scopedDomain v server = some domain →
    ∀ hash ∈ options.hashes, batch.events.countP (authorizes domain hash) = 1
  eventCount : batch.eventCount = batch.events.length

theorem mem_pairs {scopes : List UploadScope} {hashes : List String} {scope : UploadScope}
    {hash : String} :
    (scope, hash) ∈ (scopes.flatMap fun scope => hashes.map (Prod.mk scope)) ↔
      scope ∈ scopes ∧ hash ∈ hashes := by
  simp [List.mem_flatMap]

theorem domain_pairs {scopes : List UploadScope} {hashes : List String} :
    (scopes.flatMap fun scope => hashes.map (Prod.mk scope)).map
      (fun pair => (pair.1.domain, pair.2)) = (scopes.map UploadScope.domain).product hashes := by
  rw [List.product, List.flatMap_map, List.map_flatMap]
  simp only [List.map_map]
  rfl

theorem Signs.covers {scopes : List UploadScope} {t : UploadSigning} {added : List RawPublication}
    (hscopes : ScopesOf v options.servers scopes)
    (h : Signs options (scopes.flatMap fun scope => options.distinct.map (Prod.mk scope))
      ⟨fun _ _ => none, 0, []⟩ t added) :
    Covers v options ⟨options.expiration, t.eventCount, t.headers, t.events⟩ := by
  have hevents : t.events = added := by rw [h.events, List.nil_append]
  have hdistinct : ∀ hash, hash ∈ options.distinct ↔ hash ∈ options.hashes :=
    fun hash => List.mem_eraseDups
  refine ⟨?_, ?_, ?_, ?_⟩
  · intro server hserver hash hhash
    obtain ⟨scope, hscope, hmember⟩ := hscopes.complete server hserver
    have hpair := mem_pairs.mpr ⟨hscope, (hdistinct hash).mpr hhash⟩
    obtain ⟨scope, hpair, hmember, event, hevent, hheader, hauth⟩ :=
      h.covered server hash ⟨scope, hpair, hmember⟩
    rw [authorizes, decide_eq_true_iff] at hauth
    exact ⟨event, hevents ▸ hevent, hheader, hauth.2, scope.domain,
      hscopes.named scope (mem_pairs.mp hpair).1 server hmember, hauth.1⟩
  · intro event hevent
    refine (h.within event (hevents ▸ hevent)).mono ?_
    intro hash hhash
    obtain ⟨pair, hpair, rfl⟩ := List.mem_map.mp hhash
    exact (hdistinct _).mp (mem_pairs.mp hpair).2
  · intro server hserver domain hdomain hash hhash
    obtain ⟨scope, hscope, hmember⟩ := hscopes.complete server hserver
    have hsame : scope.domain = domain :=
      Option.some.inj ((hscopes.named scope hscope server hmember).symm.trans hdomain)
    have hnodup : ((scopes.map UploadScope.domain).product options.distinct).Nodup :=
      hscopes.domains.product (nodup_eraseDups _)
    dsimp only
    rw [hevents, h.once, domain_pairs]
    refine List.count_eq_one_of_mem hnodup (List.pair_mem_product.mpr ⟨?_, ?_⟩)
    · exact hsame ▸ List.mem_map_of_mem hscope
    · exact (hdistinct hash).mpr hhash
  · dsimp only
    rw [h.eventCount, hevents, Nat.zero_add]

theorem createUploadAuthorizationBatch_ok {batch : UploadAuthorizationBatch}
    (h : createUploadAuthorizationBatch v signer options = .ok batch) : Covers v options batch := by
  rw [createUploadAuthorizationBatch] at h
  split_ifs at h with hhashes hheader hdistinct
  obtain ⟨scopes, hscopes, h⟩ := bind_eq_ok.mp h
  obtain ⟨t, hsigned, h⟩ := bind_eq_ok.mp h
  obtain rfl := Except.ok.inj h
  have hmax : 1 ≤ options.maxHashes := by
    rw [not_or] at hhashes
    exact not_lt.mp hhashes.2
  have hnone : ScopesOf v [] [] := ⟨by simp, by simp, by simp, by simp⟩
  obtain ⟨added, hadded⟩ := signScopes_ok hsigned (nodup_eraseDups _) hmax
  exact hadded.covers (addServers_ok hscopes hnone)

theorem createUploadAuthorizationBatch_ends :
    createUploadAuthorizationBatch v signer options ≠ .error .spinning := by
  rw [createUploadAuthorizationBatch]
  split_ifs with hhashes hheader hdistinct
  · simp
  · simp
  · simp
  have hmax : 1 ≤ options.maxHashes := by
    rw [not_or] at hhashes
    exact not_lt.mp hhashes.2
  refine bind_ends (foldlM_ends (fun _ _ => addServer_ends) _ _) fun scopes _ => ?_
  refine bind_ends (foldlM_ends (fun s scope => ?_) _ _) fun t _ => ?_
  · exact signScope_ends (Nat.lt_succ_self _) hmax
  · simp [pure, Except.pure]

/-- A batch that is made covers every request within the limits, and the making comes to an end. -/
theorem uploads_authorized (v : Validator) (signer : UploadSigner) (options : UploadOptions) :
    (∀ batch, createUploadAuthorizationBatch v signer options = .ok batch → Covers v options batch) ∧
      createUploadAuthorizationBatch v signer options ≠ .error .spinning :=
  ⟨fun _ => createUploadAuthorizationBatch_ok, createUploadAuthorizationBatch_ends⟩

theorem authorizationFieldBytes_encoded (event : RawPublication) :
    authorizationFieldBytes (encodeAuthorizationHeader event) =
      let encoded := (btoa ((jsonEvent event).flatMap String.utf8EncodeChar)).map urlSafe
      (("Authorization: ".toList ++ ("Nostr ".toList ++ (encoded.reverse.dropWhile (· = '=')).reverse) ++
        "\r\n".toList).flatMap String.utf8EncodeChar).length := by
  simp only [authorizationFieldBytes, encodeAuthorizationHeader, utf8, String.toList_append,
    String.toList_ofList]

def sampleUploadHash (c : Char) : String :=
  String.ofList (List.replicate 64 c)

/-- Two hashes for two servers with one name, one hash for an event. -/
def sampleUpload : UploadOptions where
  hashes := [sampleUploadHash 'a', sampleUploadHash 'b']
  servers := ["https://a.example/files", "https://a.example"]
  now := 100
  lifetimeSeconds := none
  maxHashesPerEvent := some 1
  maxHeaderBytes := none

def sampleUploadTemplate (hash : String) : EventTemplate :=
  uploadTemplate 100 3700 (some "a.example") [hash]

theorem sampleUpload_template (hash : String) :
    uploadTemplate sampleUpload.now sampleUpload.expiration (some "a.example") [hash] =
      sampleUploadTemplate hash :=
  rfl

/-- What the signer gives for the next template. -/
def sampleSigned (n : ℕ) (template : EventTemplate) : RawPublication where
  id := String.ofList (List.replicate 64 n.digitChar)
  pubkey := "p"
  createdAt := template.createdAt
  kind := template.kind
  tags := template.tags
  content := template.content
  sig := ""

def sampleSigner (n : ℕ) (template : EventTemplate) : Option RawPublication :=
  some (sampleSigned n template)

def sampleUploads : List RawPublication :=
  [sampleSigned 0 (sampleUploadTemplate (sampleUploadHash 'a')),
    sampleSigned 1 (sampleUploadTemplate (sampleUploadHash 'b'))]

def uploadValidator : Validator where
  verifyEvent raw := some (decide (raw ∈ sampleUploads))
  verified_id raw h := by
    have hmem : raw ∈ sampleUploads := by simpa using h
    have hall : ∀ raw ∈ sampleUploads, isEventId raw.id = true := by decide +kernel
    exact hall raw hmem
  verified_event a b ha hb hid := by
    have ha : a ∈ sampleUploads := by simpa using ha
    have hb : b ∈ sampleUploads := by simpa using hb
    have hall : ∀ a ∈ sampleUploads, ∀ b ∈ sampleUploads, a.id = b.id → { a with sig := b.sig } = b := by
      decide +kernel
    exact hall a ha b hb hid
  parseUrl _ := some ⟨"https:", "", "", "a.example", "", ""⟩
  toLowerCase := id
  bech32 := libraryBech32

theorem sample_fits : ∀ hash ∈ sampleUpload.hashes,
    conservativeAuthorizationFieldBytes (sampleUploadTemplate hash) ≤ 6144 := by
  simp only [sampleUpload, sampleUploadHash, List.forall_mem_cons, conservativeAuthorizationFieldBytes,
    authorizationFieldBytes_encoded, sampleUploadTemplate, uploadTemplate, jsonEvent, jsonString, jsonField,
    List.map_append, List.map_cons, List.map_nil, domainTags, Option.toList_some, String.toList_ofList]
  decide +kernel

theorem sample_short : ∀ event ∈ sampleUploads,
    authorizationFieldBytes (encodeAuthorizationHeader event) ≤ 6144 := by
  simp only [sampleUploads, sampleUploadHash, List.forall_mem_cons,
    authorizationFieldBytes_encoded, sampleSigned, sampleUploadTemplate, uploadTemplate, jsonEvent, jsonString,
    jsonField, List.map_append, List.map_cons, List.map_nil, domainTags, Option.toList_some, String.toList_ofList]
  decide +kernel

theorem sample_group {n : ℕ} {hash : String} {scope : UploadScope} {s : UploadSigning}
    (hdomain : scope.domain = some "a.example") (hcount : s.eventCount = n)
    (hevent : sampleSigned n (sampleUploadTemplate hash) ∈ sampleUploads) :
    ∃ t, signGroup uploadValidator sampleSigner sampleUpload scope [hash] s = .ok t ∧ t.eventCount = n + 1 := by
  subst hcount
  have hexact : exactSignedTemplate uploadValidator (sampleSigned s.eventCount (sampleUploadTemplate hash))
      (sampleUploadTemplate hash) = true :=
    decide_eq_true ⟨rfl, rfl, rfl, rfl, congrArg some (decide_eq_true hevent)⟩
  have hshort : ¬sampleUpload.headerLimit < authorizationFieldBytes
      (encodeAuthorizationHeader (sampleSigned s.eventCount (sampleUploadTemplate hash))) := by
    have hbytes := sample_short _ hevent
    have hlimit : sampleUpload.headerLimit = 6144 := rfl
    rw [hlimit]
    omega
  rw [signGroup, hdomain, sampleUpload_template]
  simp only [sampleSigner, hexact, hshort, Bool.true_eq_false, if_false]
  exact ⟨_, rfl, rfl⟩

theorem fillGroup_one {fits : List String → Bool} {hash : String} {rest : List String}
    (hfits : fits [hash] = true) : fillGroup fits 1 [] (hash :: rest) = .ok ([hash], rest) := by
  cases rest with
  | nil => simp [fillGroup, hfits]
  | cons next rest => simp [fillGroup, hfits]

theorem sample_round {n rounds : ℕ} {hash : String} {rest : List String} {scope : UploadScope} {s : UploadSigning}
    (hdomain : scope.domain = some "a.example") (hcount : s.eventCount = n) (hhash : hash ∈ sampleUpload.hashes)
    (hevent : sampleSigned n (sampleUploadTemplate hash) ∈ sampleUploads) :
    ∃ t, t.eventCount = n + 1 ∧
      signScope uploadValidator sampleSigner sampleUpload scope (rounds + 1) (hash :: rest) s =
        signScope uploadValidator sampleSigner sampleUpload scope rounds rest t := by
  obtain ⟨t, hgroup, ht⟩ := sample_group hdomain hcount hevent
  refine ⟨t, ht, ?_⟩
  have hbytes := sample_fits hash hhash
  have hlimit : sampleUpload.headerLimit = 6144 := rfl
  have hmax : sampleUpload.maxHashes = 1 := rfl
  have hfill : fillGroup (fun group => (conservativeAuthorizationFieldBytes
      (uploadTemplate sampleUpload.now sampleUpload.expiration scope.domain group) : ℤ) ≤
        sampleUpload.headerLimit) 1 [] (hash :: rest) = .ok ([hash], rest) := by
    apply fillGroup_one
    simp only [hdomain, hlimit, sampleUpload_template, decide_eq_true_iff]
    omega
  simp only [signScope, hmax, hfill, bind, Except.bind, hgroup]

theorem sample_distinct : sampleUpload.distinct = [sampleUploadHash 'a', sampleUploadHash 'b'] := by
  have hne : sampleUploadHash 'b' ≠ sampleUploadHash 'a' := by
    rw [sampleUploadHash, sampleUploadHash, ne_eq, ← String.toList_inj, String.toList_ofList, String.toList_ofList]
    decide
  have hbeq : (sampleUploadHash 'b' == sampleUploadHash 'a') = false := beq_eq_false_iff_ne.mpr hne
  rw [UploadOptions.distinct, sampleUpload, List.eraseDups_cons, List.filter_cons_of_pos (by simp [hbeq])]
  rfl

theorem sample_admitted : ¬(sampleUpload.distinct = [] ∨ (sampleUpload.distinct.any fun hash => ¬isEventId hash) = true) := by
  have hids : ∀ hash ∈ [sampleUploadHash 'a', sampleUploadHash 'b'], isEventId hash = true := by decide +kernel
  rw [sample_distinct]
  rintro (hnone | hbad)
  · cases hnone
  · obtain ⟨hash, hhash, hbad⟩ := List.any_eq_true.mp hbad
    exact absurd (hids hash hhash) (of_decide_eq_true hbad)

theorem sample_scope : ∃ u : UploadSigning, u.eventCount = 2 ∧
    signScope uploadValidator sampleSigner sampleUpload ⟨"a.example", some "a.example", sampleUpload.servers⟩
      (sampleUpload.distinct.length + 1) sampleUpload.distinct ⟨fun _ _ => none, 0, []⟩ = .ok u := by
  obtain ⟨t, hfirst, hrest⟩ := @sample_round 0 2 (sampleUploadHash 'a') [sampleUploadHash 'b']
    ⟨"a.example", some "a.example", sampleUpload.servers⟩ ⟨fun _ _ => none, 0, []⟩ rfl rfl List.mem_cons_self
    List.mem_cons_self
  obtain ⟨u, hsecond, hend⟩ := @sample_round 1 1 (sampleUploadHash 'b') []
    ⟨"a.example", some "a.example", sampleUpload.servers⟩ t rfl hfirst
    (List.mem_cons_of_mem _ List.mem_cons_self) (List.mem_cons_of_mem _ List.mem_cons_self)
  refine ⟨u, hsecond, ?_⟩
  rw [sample_distinct]
  exact hrest.trans hend

theorem uploads_authorized_sample : ∃ batch,
    createUploadAuthorizationBatch uploadValidator sampleSigner sampleUpload = .ok batch ∧
      Covers uploadValidator sampleUpload batch ∧ batch.eventCount = 2 := by
  have hscopes : sampleUpload.servers.foldlM (addServer uploadValidator) [] =
      .ok [⟨"a.example", some "a.example", sampleUpload.servers⟩] := rfl
  have hmax : ¬(isSafeInteger sampleUpload.maxHashes = false ∨ sampleUpload.maxHashes < 1) := by decide
  have hlimit : ¬(isSafeInteger sampleUpload.headerLimit = false ∨ sampleUpload.headerLimit < 1) := by decide
  obtain ⟨u, hcount, hsigned⟩ := sample_scope
  have hbatch : createUploadAuthorizationBatch uploadValidator sampleSigner sampleUpload =
      .ok ⟨sampleUpload.expiration, u.eventCount, u.headers, u.events⟩ := by
    rw [createUploadAuthorizationBatch, if_neg hmax, if_neg hlimit, if_neg sample_admitted, hscopes]
    refine bind_eq_ok.mpr ⟨_, rfl, bind_eq_ok.mpr ⟨u, ?_, rfl⟩⟩
    rw [List.foldlM_cons]
    exact bind_eq_ok.mpr ⟨u, hsigned, rfl⟩
  exact ⟨_, hbatch, (uploads_authorized uploadValidator sampleSigner sampleUpload).1 _ hbatch, hcount⟩

end Batch

end NixstrCache.Blossom

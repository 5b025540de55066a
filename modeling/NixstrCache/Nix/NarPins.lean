import NixstrCache.Nix.Staging

/-!
The routes that the HTTP handler pins.

A narinfo that has been served pins the URL of its NAR.  The registry of the writable overlay keeps
the generation until the next request for the URL takes it, the registry of the publications keeps the
winner until it expires.  A request for a narinfo is cut where the handler awaits, between its look at
overlay and selection and its answer; from where a NAR is served is decided without a wait.
-/

namespace NixstrCache.Nix

open KeyedTable Runs

def isNarPathChar (c : Char) : Bool :=
  c.isAlphanum ∨ c ∈ ['.', '_', '+', '/', '-']

/-- The route below `nar/` that a path names. -/
def normalizedNarPath (path : String) : Option String :=
  let normalized := if path.startsWith "/" then String.ofList (path.toList.drop 1) else path
  if normalized.startsWith "nar/" ∧ 4 < normalized.length ∧
      (normalized.toList.drop 4).all isNarPathChar ∧ ['.', '.'] ∉ normalized.toList.splitOn '/' then
    some normalized
  else none

theorem normalizedNarPath_idem {path key : String} (h : normalizedNarPath path = some key) :
    normalizedNarPath key = some key := by
  unfold normalizedNarPath at h
  generalize (if path.startsWith "/" then String.ofList (path.toList.drop 1) else path) =
    normalized at h
  dsimp only at h
  split_ifs at h with hvalid
  obtain rfl := Option.some.inj h
  have hslash : normalized.startsWith "/" = false := by
    by_contra hne
    have hslash : normalized.startsWith "/" = true := by simpa using hne
    obtain ⟨rest, hrest⟩ := String.startsWith_string_iff.mp hvalid.1
    rw [String.startsWith_string_iff, ← hrest] at hslash
    exact absurd (List.cons_prefix_cons.mp hslash).1 (by decide)
  simp only [normalizedNarPath, hslash, Bool.false_eq_true, if_false]
  rw [if_pos hvalid]

structure Pin (Target : Type) where
  path : String
  target : Target
  expiresAt : ℕ
deriving DecidableEq, Repr

structure RegistryOptions where
  maxEntries : ℕ
  ttlMs : ℕ

abbrev RouteRegistry (Target : Type) :=
  Table (Pin.path : Pin Target → String)

namespace RouteRegistry

variable {Target : Type}

section Model

def purge (now : ℕ) (r : RouteRegistry Target) : RouteRegistry Target :=
  r.filter fun pin => now < pin.expiresAt

def delete (key : String) (r : RouteRegistry Target) : RouteRegistry Target :=
  r.filter fun pin => pin.path ≠ key

def evicted (maxEntries : ℕ) (r : RouteRegistry Target) : List String :=
  (r.rows.take (r.rows.length + 1 - maxEntries)).map Pin.path

/-- What `set` finds once the expired entries and the entry of the key itself are gone. -/
def cleared (now : ℕ) (key : String) (r : RouteRegistry Target) : RouteRegistry Target :=
  delete key (purge now r)

/-- `set`, or `none` where it throws. -/
def set (options : RegistryOptions) (now : ℕ) (path : String) (target : Target)
    (r : RouteRegistry Target) : Option (RouteRegistry Target) :=
  match normalizedNarPath path with
  | none => none
  | some key =>
    let kept := cleared now key r
    let room := kept.filter fun pin => pin.path ∉ evicted options.maxEntries kept
    some (room.insertOrReplace ⟨key, target, now + options.ttlMs⟩)

/-- `WinnerRouteRegistry.get`. -/
def get (now : ℕ) (path : String) (r : RouteRegistry Target) :
    RouteRegistry Target × Option Target :=
  match normalizedNarPath path with
  | none => (r, none)
  | some key =>
    match r.find? key with
    | none => (r, none)
    | some pin => if pin.expiresAt ≤ now then (r.delete key, none) else (r, some pin.target)

/-- `SignerRouteRegistry.take`: the entry goes with the answer. -/
def take (now : ℕ) (path : String) (r : RouteRegistry Target) :
    RouteRegistry Target × Option Target :=
  match normalizedNarPath path with
  | none => (r, none)
  | some key =>
    match r.find? key with
    | none => (r, none)
    | some pin => (r.delete key, if pin.expiresAt ≤ now then none else some pin.target)

end Model

section Pins

variable {options : RegistryOptions} {now : ℕ} {r u : RouteRegistry Target} {pin : Pin Target}
  {path key : String} {target : Target}

theorem find?_purge (h : r.find? path = some pin) (hlive : now < pin.expiresAt) :
    (purge now r).find? path = some pin := by
  rw [purge, Table.find?_filter, h]
  simp [hlive]

theorem find?_delete (h : r.find? path = some pin) (hne : key ≠ path) :
    (delete key r).find? path = some pin := by
  have hpath := (Table.find?_eq_some.mp h).2
  rw [delete, Table.find?_filter, h]
  simp [hpath, hne.symm]

theorem find?_cleared (h : r.find? path = some pin) (hlive : now < pin.expiresAt)
    (hne : key ≠ path) : (cleared now key r).find? path = some pin :=
  find?_delete (find?_purge h hlive) hne

theorem set_pins (h : set options now path target r = some u) :
    ∃ key, normalizedNarPath path = some key ∧
      u.find? key = some ⟨key, target, now + options.ttlMs⟩ := by
  unfold set at h
  cases hpath : normalizedNarPath path with
  | none => simp [hpath] at h
  | some key =>
    simp only [hpath, Option.some.injEq] at h
    refine ⟨key, rfl, ?_⟩
    rw [← h, Table.find?_insertOrReplace, if_pos rfl]

theorem set_keeps (h : set options now path target r = some u)
    (hkey : normalizedNarPath path = some key) {other : String} (hpin : r.find? other = some pin)
    (hlive : now < pin.expiresAt) (hne : key ≠ other)
    (hevicted : other ∉ evicted options.maxEntries (cleared now key r)) :
    u.find? other = some pin := by
  have hpath := (Table.find?_eq_some.mp hpin).2
  simp only [set, hkey, Option.some.injEq] at h
  rw [← h, Table.find?_insertOrReplace, if_neg hne, Table.find?_filter,
    find?_cleared hpin hlive hne]
  simp [hpath, hevicted]

theorem get_held (hkey : normalizedNarPath path = some path) (hpin : r.find? path = some pin)
    (hlive : now < pin.expiresAt) : get now path r = (r, some pin.target) := by
  simp [get, hkey, hpin, hlive]

theorem take_held (hkey : normalizedNarPath path = some path) (hpin : r.find? path = some pin)
    (hlive : now < pin.expiresAt) : (take now path r).2 = some pin.target := by
  simp [take, hkey, hpin, hlive]

theorem get_keeps (hpin : r.find? path = some pin) (hlive : now < pin.expiresAt) (asked : String) :
    (get now asked r).1.find? path = some pin := by
  unfold get
  split
  · exact hpin
  · next key hkey =>
    split
    · exact hpin
    · next found hfound =>
      split_ifs with hexpired
      · apply find?_delete hpin
        rintro rfl
        rw [hpin] at hfound
        cases hfound
        omega
      · exact hpin

theorem take_keeps (hpin : r.find? path = some pin) {asked : String}
    (hne : normalizedNarPath asked ≠ some path) : (take now asked r).1.find? path = some pin := by
  unfold take
  split
  · exact hpin
  · next key hkey =>
    split
    · exact hpin
    · apply find?_delete hpin
      rintro rfl
      exact hne hkey

end Pins

end RouteRegistry

inductive Method where
  | get
  | head
deriving DecidableEq, Repr

structure SignerOverlaySnapshot where
  generation : ℕ
  routes : List String
deriving DecidableEq, Repr

inductive Provider (Publication : Type) where
  | overlay (snapshot : SignerOverlaySnapshot)
  | publication (publication : Publication)
deriving DecidableEq, Repr

/-- What resolving a path in a tree comes to. -/
inductive Resolution (Value : Type) where
  | found (value : Value)
  | absent
  | failed (deadline : Bool)
deriving DecidableEq, Repr

/-- What is found, or the status that `mapped` answers with. -/
def Resolution.mapped {Value : Type} : Resolution Value → Except ℕ Value
  | .found value => .ok value
  | .absent => .error 404
  | .failed deadline => .error (if deadline then 504 else 502)

/-- What the environment lets a request read, tree by tree. -/
abbrev Reads (Publication Value : Type) :=
  Provider Publication → Resolution Value

/-- The resolver of the overlay reads the entries of its generation only. -/
def resolve {Publication Value : Type} (reads : Reads Publication Value) (path : String) :
    Provider Publication → Resolution Value
  | .overlay snapshot => if path ∈ snapshot.routes then reads (.overlay snapshot) else .absent
  | .publication publication => reads (.publication publication)

/-- Where a narinfo is read, as the handler has looked it up at the start of the request. -/
inductive NarInfoSource (Publication : Type) where
  | overlay (snapshot : SignerOverlaySnapshot)
  | merged (snapshot : List Publication)

structure NarInfoRequest (Publication : Type) where
  id : ℕ
  method : Method
  path : String
  source : NarInfoSource Publication

inductive NarSource (Publication : Type) where
  | pinned (provider : Provider Publication)
  | current (snapshot : SignerOverlaySnapshot)
  | fallback (snapshot : List Publication)

inductive HandlerResponse (Publication : Type) where
  | error (status : ℕ)
  /-- The narinfo, with the URL of its record. -/
  | narInfo (method : Method) (url : String) (provider : Provider Publication)
  /-- The size of the NAR or the status, and the tree it was resolved in. -/
  | nar (method : Method) (path : String) (provider : Option (Provider Publication))
      (size : Except ℕ ℕ)
deriving DecidableEq

structure HandlerOptions where
  signer : RegistryOptions
  winner : RegistryOptions

structure NixHandler (Publication : Type) where
  selection : List Publication
  overlay : Option SignerOverlaySnapshot
  signerRoutes : RouteRegistry SignerOverlaySnapshot
  routes : RouteRegistry Publication
  /-- The narinfo requests that wait for what they read. -/
  reading : Table (NarInfoRequest.id : NarInfoRequest Publication → ℕ)
  writable : Bool
  closed : Bool
  now : ℕ

namespace NixHandler

variable {Publication : Type}

section Model

def initial : NixHandler Publication where
  selection := []
  overlay := none
  signerRoutes := .empty
  routes := .empty
  reading := .empty
  writable := false
  closed := false
  now := 0

def overlayWith (s : NixHandler Publication) (path : String) : Option SignerOverlaySnapshot :=
  s.overlay.filter fun snapshot => path ∈ snapshot.routes

/-- The status of a request that is not looked up: nothing serves its path, or nothing can. -/
def refusal (s : NixHandler Publication) (matched : Bool) (path : String) : Option ℕ :=
  if s.closed then some 503
  else if matched = false then some 404
  else if s.selection.isEmpty ∧ s.overlayWith path = none then some (if s.writable then 404 else 503)
  else none

/-- A request for a narinfo, up to its first wait. -/
def narInfo (s : NixHandler Publication) (id : ℕ) (method : Method) (hash : String) :
    NixHandler Publication × Option (HandlerResponse Publication) :=
  let path := narInfoRoute hash
  match s.refusal (isStorePathHash hash) path with
  | some status => (s, some (.error status))
  | none =>
    let source := match s.overlayWith path with
      | some snapshot => .overlay snapshot
      | none => .merged s.selection
    match s.reading.insert? ⟨id, method, path, source⟩ with
    | none => (s, none)
    | some reading => ({ s with reading := reading }, none)

/-- The records that `resolveMergedNarInfo` finds, in the order of the selection. -/
def foundRecords (reads : Reads Publication String) :
    List Publication → Except ℕ (List (String × Publication))
  | [] => .ok []
  | publication :: rest =>
    match reads (.publication publication) with
    | .found url => (foundRecords reads rest).map ((url, publication) :: ·)
    | .absent => foundRecords reads rest
    | .failed deadline => (Resolution.failed deadline : Resolution (List _)).mapped

/-- The URL of the record that a request is answered with, and the tree that has it. -/
def recordOf (request : NarInfoRequest Publication) (reads : Reads Publication String) :
    Except ℕ (String × Provider Publication) :=
  match request.source with
  | .overlay snapshot =>
    (resolve reads request.path (.overlay snapshot)).mapped.map fun url => (url, .overlay snapshot)
  | .merged snapshot =>
    match foundRecords reads snapshot with
    | .error status => .error status
    | .ok [] => .error 404
    | .ok ((url, winner) :: _) => .ok (url, .publication winner)

/-- The URL is pinned to the tree, unless the registry throws. -/
def pin (options : HandlerOptions) (s : NixHandler Publication) (url : String) :
    Provider Publication → Option (NixHandler Publication)
  | .overlay snapshot =>
    if s.closed then none
    else (RouteRegistry.set options.signer s.now url snapshot s.signerRoutes).map fun signerRoutes =>
      { s with signerRoutes := signerRoutes }
  | .publication winner =>
    (RouteRegistry.set options.winner s.now url winner s.routes).map fun routes =>
      { s with routes := routes }

/-- A request for a narinfo has read what it waited for. -/
def answer (options : HandlerOptions) (s : NixHandler Publication)
    (request : NarInfoRequest Publication) (reads : Reads Publication String) :
    NixHandler Publication × Option (HandlerResponse Publication) :=
  let s := { s with reading := s.reading.filter fun other => other.id ≠ request.id }
  match recordOf request reads with
  | .error status => (s, some (.error status))
  | .ok (url, provider) =>
    match s.pin options url provider with
    | none => (s, some (.error 502))
    | some t => (t, some (.narInfo request.method url provider))

/-- From where a NAR is served: the pin of the overlay, the current overlay, the pinned winner, or
the first publication that has it. -/
def narSource (s : NixHandler Publication) (path : String) :
    NixHandler Publication × NarSource Publication :=
  match RouteRegistry.take s.now path s.signerRoutes with
  | (signerRoutes, some snapshot) =>
    ({ s with signerRoutes := signerRoutes }, .pinned (.overlay snapshot))
  | (signerRoutes, none) =>
    match s.overlayWith path with
    | some snapshot => ({ s with signerRoutes := signerRoutes }, .current snapshot)
    | none =>
      match RouteRegistry.get s.now path s.routes with
      | (routes, some winner) =>
        ({ s with signerRoutes := signerRoutes, routes := routes }, .pinned (.publication winner))
      | (routes, none) =>
        ({ s with signerRoutes := signerRoutes, routes := routes }, .fallback s.selection)

def firstWith (reads : Reads Publication ℕ) :
    List Publication → Option (Provider Publication) × Except ℕ ℕ
  | [] => (none, .error 404)
  | publication :: rest =>
    match reads (.publication publication) with
    | .absent => firstWith reads rest
    | resolution => (some (.publication publication), resolution.mapped)

def readNar (reads : Reads Publication ℕ) (path : String) :
    NarSource Publication → Option (Provider Publication) × Except ℕ ℕ
  | .pinned provider => (some provider, (resolve reads path provider).mapped)
  | .current snapshot => (some (.overlay snapshot), (resolve reads path (.overlay snapshot)).mapped)
  | .fallback snapshot => firstWith reads snapshot

def nar (s : NixHandler Publication) (method : Method) (path : String)
    (reads : Reads Publication ℕ) : NixHandler Publication × Option (HandlerResponse Publication) :=
  match s.refusal (normalizedNarPath path = some path) path with
  | some status => (s, some (.error status))
  | none =>
    let (t, source) := s.narSource path
    let (provider, size) := readNar reads path source
    (t, some (.nar method path provider size))

inductive Event (Publication : Type) where
  | narInfo (id : ℕ) (method : Method) (hash : String)
  | answer (id : ℕ) (reads : Reads Publication String)
  | nar (method : Method) (path : String) (reads : Reads Publication ℕ)
  /-- The handler asks the winners again once the overlay has been read. -/
  | askWinner (path : String)
  | commitOverlay (snapshot : SignerOverlaySnapshot)
  | select (publications : List Publication)
  | ready (writable : Bool)
  | clock (now : ℕ)
  /-- The timer of the registry of the overlay. -/
  | purge
  | close

def handle (options : HandlerOptions) (s : NixHandler Publication) :
    Event Publication → NixHandler Publication × Option (HandlerResponse Publication)
  | .narInfo id method hash => s.narInfo id method hash
  | .answer id reads =>
    match s.reading.find? id with
    | none => (s, none)
    | some request => s.answer options request reads
  | .nar method path reads => s.nar method path reads
  | .askWinner path => ({ s with routes := (RouteRegistry.get s.now path s.routes).1 }, none)
  | .commitOverlay snapshot => ({ s with overlay := some snapshot }, none)
  | .select publications => ({ s with selection := publications }, none)
  | .ready writable => ({ s with writable := writable }, none)
  | .clock now => ({ s with now := now }, none)
  | .purge => ({ s with signerRoutes := RouteRegistry.purge s.now s.signerRoutes }, none)
  | .close => ({ s with closed := true, signerRoutes := .empty, routes := .empty }, none)

def step (options : HandlerOptions) (s : NixHandler Publication) (e : Event Publication) :
    NixHandler Publication :=
  (s.handle options e).1

def response (options : HandlerOptions) (s : NixHandler Publication) (e : Event Publication) :
    Option (HandlerResponse Publication) :=
  (s.handle options e).2

end Model

section Coherence

variable {options : HandlerOptions} {s t : NixHandler Publication} {path : String} {deadline : ℕ}
  {provider : Provider Publication}

def Held (s : NixHandler Publication) (path : String) (deadline : ℕ) : Provider Publication → Prop
  | .overlay snapshot => s.signerRoutes.find? path = some ⟨path, snapshot, deadline⟩
  | .publication winner => s.routes.find? path = some ⟨path, winner, deadline⟩

def registryOf (options : HandlerOptions) : Provider Publication → RegistryOptions
  | .overlay _ => options.signer
  | .publication _ => options.winner

def Event.getsNar (path : String) : Event Publication → Bool
  | .nar .get asked _ => asked = path
  | _ => false

def Event.closes : Event Publication → Bool
  | .close => true
  | _ => false

def namesWith (method : Method) (path : String) : HandlerResponse Publication → Bool
  | .narInfo m url _ => m = method ∧ normalizedNarPath url = some path
  | _ => false

/-- The response pins another path, and the registry drops the pin of this one for it. -/
def evicts (options : HandlerOptions) (s : NixHandler Publication) (path : String) :
    Provider Publication → HandlerResponse Publication → Bool
  | .overlay _, .narInfo _ url (.overlay _) => (normalizedNarPath url).any fun key =>
      path ∈ RouteRegistry.evicted options.signer.maxEntries
        (RouteRegistry.cleared s.now key s.signerRoutes)
  | .publication _, .narInfo _ url (.publication _) => (normalizedNarPath url).any fun key =>
      path ∈ RouteRegistry.evicted options.winner.maxEntries
        (RouteRegistry.cleared s.now key s.routes)
  | _, _ => false

/-- Neither expiry, nor eviction, nor a shutdown, nor another request that fetches a narinfo of the
path or the NAR itself. -/
def Quiet (options : HandlerOptions) (path : String) (deadline : ℕ)
    (provider : Provider Publication) (s : NixHandler Publication) (e : Event Publication) : Prop :=
  s.now < deadline ∧ e.closes = false ∧ e.getsNar path = false ∧
    ∀ r ∈ s.response options e, namesWith .get path r = false ∧ evicts options s path provider r = false

instance (options : HandlerOptions) (path : String) (deadline : ℕ) (provider : Provider Publication)
    (s : NixHandler Publication) (e : Event Publication) :
    Decidable (Quiet options path deadline provider s e) :=
  inferInstanceAs (Decidable (_ ∧ _ ∧ _ ∧ ∀ r ∈ s.response options e, _))

/-- A request for the headers of the NAR, which takes the pin of an overlay. -/
def takesHead (path : String) : Provider Publication → Event Publication → Bool
  | .overlay _, .nar .head asked _ => asked = path
  | _, _ => false

/-- No request for headers takes or replaces the pin. -/
def HeadsAside (options : HandlerOptions) (path : String) (provider : Provider Publication)
    (s : NixHandler Publication) (e : Event Publication) : Prop :=
  takesHead path provider e = false ∧ ∀ r ∈ s.response options e, namesWith .head path r = false

instance (options : HandlerOptions) (path : String) (provider : Provider Publication)
    (s : NixHandler Publication) (e : Event Publication) :
    Decidable (HeadsAside options path provider s e) :=
  inferInstanceAs (Decidable (_ ∧ ∀ r ∈ s.response options e, _))

def Foremost (s : NixHandler Publication) (path : String) : Provider Publication → Prop
  | .overlay _ => True
  | .publication _ => (RouteRegistry.take s.now path s.signerRoutes).2 = none ∧ s.overlayWith path = none

instance [DecidableEq Publication] (s : NixHandler Publication) (path : String) :
    (provider : Provider Publication) → Decidable (Foremost s path provider)
  | .overlay _ => isTrue trivial
  | .publication _ => inferInstanceAs (Decidable (_ ∧ _))

theorem pin_held {url : String} (h : s.pin options url provider = some t) :
    ∃ key, normalizedNarPath url = some key ∧
      Held t key (s.now + (registryOf options provider).ttlMs) provider := by
  cases provider with
  | overlay snapshot =>
    simp only [pin, Option.ite_none_left_eq_some, Option.map_eq_some_iff] at h
    obtain ⟨-, signerRoutes, hset, rfl⟩ := h
    exact RouteRegistry.set_pins hset
  | publication winner =>
    obtain ⟨routes, hset, rfl⟩ := Option.map_eq_some_iff.mp h
    exact RouteRegistry.set_pins hset

theorem pin_now {url : String} (h : s.pin options url provider = some t) :
    t.now = s.now ∧ t.closed = s.closed := by
  cases provider with
  | overlay snapshot =>
    simp only [pin, Option.ite_none_left_eq_some, Option.map_eq_some_iff] at h
    obtain ⟨-, signerRoutes, hset, rfl⟩ := h
    exact ⟨rfl, rfl⟩
  | publication winner =>
    obtain ⟨routes, hset, rfl⟩ := Option.map_eq_some_iff.mp h
    exact ⟨rfl, rfl⟩

theorem pin_keeps {url key : String} {other : Provider Publication} (method : Method)
    (h : s.pin options url other = some t) (hkey : normalizedNarPath url = some key)
    (hne : key ≠ path) (hheld : Held s path deadline provider) (hlive : s.now < deadline)
    (hevicts : evicts options s path provider (.narInfo method url other) = false) :
    Held t path deadline provider := by
  cases other with
  | overlay snapshot =>
    simp only [pin, Option.ite_none_left_eq_some, Option.map_eq_some_iff] at h
    obtain ⟨-, signerRoutes, hset, rfl⟩ := h
    cases provider with
    | overlay held =>
      exact RouteRegistry.set_keeps hset hkey hheld hlive hne (by simpa [evicts, hkey] using hevicts)
    | publication held => exact hheld
  | publication winner =>
    obtain ⟨routes, hset, rfl⟩ := Option.map_eq_some_iff.mp h
    cases provider with
    | overlay held => exact hheld
    | publication held =>
      exact RouteRegistry.set_keeps hset hkey hheld hlive hne (by simpa [evicts, hkey] using hevicts)

theorem answer_cases (options : HandlerOptions) (s : NixHandler Publication)
    (request : NarInfoRequest Publication) (reads : Reads Publication String) :
    let left := { s with reading := s.reading.filter fun other => other.id ≠ request.id }
    (∃ status, s.answer options request reads = (left, some (.error status))) ∨
      ∃ url provider t, left.pin options url provider = some t ∧
        s.answer options request reads = (t, some (.narInfo request.method url provider)) := by
  intro left
  unfold answer
  dsimp only
  cases recordOf request reads with
  | error status => exact Or.inl ⟨status, rfl⟩
  | ok record =>
    obtain ⟨url, provider⟩ := record
    dsimp only
    cases hpin : left.pin options url provider with
    | none => exact Or.inl ⟨502, by simp [left]⟩
    | some t => exact Or.inr ⟨url, provider, t, hpin, rfl⟩

theorem narInfo_unpinned (s : NixHandler Publication) (id : ℕ) (method : Method) (hash : String) :
    ∃ reading, (s.narInfo id method hash).1 = { s with reading := reading } ∧
      ∀ m url p, (s.narInfo id method hash).2 ≠ some (.narInfo m url p) := by
  unfold narInfo
  dsimp only
  split
  · exact ⟨s.reading, rfl, by simp⟩
  · split
    · exact ⟨s.reading, rfl, by simp⟩
    · exact ⟨_, rfl, by simp⟩

theorem narSource_rest (s : NixHandler Publication) (path : String) :
    ∃ routes, (s.narSource path).1 =
        { s with signerRoutes := (RouteRegistry.take s.now path s.signerRoutes).1, routes := routes } ∧
      (routes = s.routes ∨ routes = (RouteRegistry.get s.now path s.routes).1) := by
  unfold narSource
  split
  · next signerRoutes snapshot htake =>
    exact ⟨s.routes, by rw [htake], Or.inl rfl⟩
  · next signerRoutes htake =>
    rw [htake]
    split
    · exact ⟨s.routes, rfl, Or.inl rfl⟩
    · split
      · next routes winner hget => exact ⟨routes, rfl, Or.inr (by rw [hget])⟩
      · next routes hget => exact ⟨routes, rfl, Or.inr (by rw [hget])⟩

theorem narSource_of_take {snapshot : SignerOverlaySnapshot}
    (h : (RouteRegistry.take s.now path s.signerRoutes).2 = some snapshot) :
    (s.narSource path).2 = .pinned (.overlay snapshot) := by
  unfold narSource
  split
  · next htake => simpa [htake] using h
  · next htake => simp [htake] at h

theorem narSource_of_current {snapshot : SignerOverlaySnapshot}
    (htake : (RouteRegistry.take s.now path s.signerRoutes).2 = none)
    (h : s.overlayWith path = some snapshot) : (s.narSource path).2 = .current snapshot := by
  unfold narSource
  split
  · next hpinned => simp [hpinned] at htake
  · rw [h]

theorem narSource_of_get {winner : Publication}
    (htake : (RouteRegistry.take s.now path s.signerRoutes).2 = none)
    (hcurrent : s.overlayWith path = none)
    (h : (RouteRegistry.get s.now path s.routes).2 = some winner) :
    (s.narSource path).2 = .pinned (.publication winner) := by
  unfold narSource
  split
  · next hpinned => simp [hpinned] at htake
  · rw [hcurrent]
    dsimp only
    split
    · next hget => simpa [hget] using h
    · next hget => simp [hget] at h

theorem nar_cases (s : NixHandler Publication) (method : Method) (asked : String)
    (reads : Reads Publication ℕ) :
    (s.nar method asked reads).1 = s ∨
      normalizedNarPath asked = some asked ∧ (s.nar method asked reads).1 = (s.narSource asked).1 := by
  unfold nar
  split
  · exact Or.inl rfl
  · next hrefusal =>
    refine Or.inr ⟨?_, rfl⟩
    by_contra hne
    simp only [refusal, hne, decide_false, if_true] at hrefusal
    split_ifs at hrefusal

theorem narSource_keeps (hheld : Held s path deadline provider) (hlive : s.now < deadline)
    {asked : String} (htakes : ∀ snapshot, provider = .overlay snapshot → asked ≠ path)
    (hasked : normalizedNarPath asked = some asked) :
    Held (s.narSource asked).1 path deadline provider := by
  obtain ⟨routes, hsource, hroutes⟩ := narSource_rest s asked
  rw [hsource]
  cases provider with
  | overlay snapshot =>
    apply RouteRegistry.take_keeps hheld
    rw [hasked]
    simpa using htakes snapshot rfl
  | publication winner =>
    rcases hroutes with rfl | rfl
    · exact hheld
    · exact RouteRegistry.get_keeps hheld hlive asked

theorem handle_closed (e : Event Publication) (hcloses : e.closes = false) :
    (s.step options e).closed = s.closed := by
  cases e with
  | narInfo id method hash =>
    obtain ⟨reading, hstep, -⟩ := narInfo_unpinned s id method hash
    rw [step, handle, hstep]
  | answer id reads =>
    simp only [step, handle]
    split
    · rfl
    · next request hrequest =>
      rcases answer_cases options s request reads with ⟨status, h⟩ | ⟨url, provider, t, hpin, h⟩
      · rw [h]
      · rw [h]
        exact (pin_now hpin).2
  | nar method asked reads =>
    simp only [step, handle]
    rcases nar_cases s method asked reads with h | ⟨-, h⟩
    · rw [h]
    · obtain ⟨routes, hsource, -⟩ := narSource_rest s asked
      rw [h, hsource]
  | close => cases hcloses
  | _ => rfl

theorem step_keeps (hheld : Held s path deadline provider) (e : Event Publication)
    (hquiet : Quiet options path deadline provider s e)
    (hheads : HeadsAside options path provider s e) :
    Held (s.step options e) path deadline provider := by
  obtain ⟨hlive, hcloses, hgets, hresponse⟩ := hquiet
  obtain ⟨htakes, hnamed⟩ := hheads
  cases e with
  | narInfo id method hash =>
    obtain ⟨reading, hstep, -⟩ := narInfo_unpinned s id method hash
    rw [step, handle, hstep]
    cases provider <;> exact hheld
  | answer id reads =>
    simp only [step, handle, response] at hresponse hnamed ⊢
    split
    · exact hheld
    · next request hrequest =>
      rw [hrequest] at hresponse hnamed
      dsimp only at hresponse hnamed
      have hleft : Held { s with reading := s.reading.filter fun other => other.id ≠ request.id }
          path deadline provider := by
        cases provider <;> exact hheld
      rcases answer_cases options s request reads with ⟨status, h⟩ | ⟨url, other, t, hpin, h⟩
      · rw [h]
        exact hleft
      · rw [h] at hresponse hnamed ⊢
        obtain ⟨key, hkey, -⟩ := pin_held hpin
        obtain ⟨hget, hevicts⟩ := hresponse _ rfl
        have hhead := hnamed _ rfl
        have hne : key ≠ path := by
          rintro rfl
          cases hmethod : request.method with
          | get => simp [namesWith, hmethod, hkey] at hget
          | head => simp [namesWith, hmethod, hkey] at hhead
        refine pin_keeps request.method hpin hkey hne hleft hlive ?_
        cases provider <;> cases other <;> exact hevicts
  | nar method asked reads =>
    simp only [step, handle]
    rcases nar_cases s method asked reads with h | ⟨hasked, h⟩
    · rw [h]
      exact hheld
    · rw [h]
      apply narSource_keeps hheld hlive _ hasked
      rintro snapshot rfl rfl
      cases method with
      | get => simp [Event.getsNar] at hgets
      | head => simp [takesHead] at htakes
  | askWinner asked =>
    cases provider with
    | overlay snapshot => exact hheld
    | publication winner => exact RouteRegistry.get_keeps hheld hlive asked
  | purge =>
    cases provider with
    | overlay snapshot => exact RouteRegistry.find?_purge hheld hlive
    | publication winner => exact hheld
  | close => cases hcloses
  | commitOverlay _ | select _ | ready _ | clock _ => cases provider <;> exact hheld

theorem run_keeps (hopen : s.closed = false) (hheld : Held s path deadline provider)
    {events : List (Event Publication)}
    (hquiet : Always (step options) (Quiet options path deadline provider) s events)
    (hheads : Always (step options) (HeadsAside options path provider) s events) :
    (run (step options) s events).closed = false ∧
      Held (run (step options) s events) path deadline provider := by
  induction events generalizing s with
  | nil => exact ⟨hopen, hheld⟩
  | cons e rest ih =>
    obtain ⟨hquiet, hquietRest⟩ := hquiet
    obtain ⟨hheads, hheadsRest⟩ := hheads
    have hclosed : (s.step options e).closed = s.closed := handle_closed e hquiet.2.1
    exact ih (hclosed.trans hopen) (step_keeps hheld e hquiet hheads) hquietRest hheadsRest

theorem response_held {e : Event Publication} {method : Method} {url : String}
    (h : s.response options e = some (.narInfo method url provider)) :
    ∃ key, normalizedNarPath url = some key ∧
      Held (s.step options e) key (s.now + (registryOf options provider).ttlMs) provider ∧
      (s.step options e).closed = s.closed := by
  cases e with
  | narInfo id m hash =>
    obtain ⟨-, -, hresponse⟩ := narInfo_unpinned s id m hash
    exact absurd h (hresponse method url provider)
  | answer id reads =>
    simp only [response, step, handle] at h ⊢
    split at h
    · cases h
    · next request hrequest =>
      rcases answer_cases options s request reads with ⟨status, heq⟩ | ⟨url', other, t, hpin, heq⟩
      · rw [heq] at h
        cases h
      · rw [heq] at h ⊢
        cases h
        obtain ⟨key, hkey, hheld⟩ := pin_held hpin
        exact ⟨key, hkey, hheld, (pin_now hpin).2⟩
  | nar m asked reads =>
    simp only [response, handle, nar] at h
    split at h
    · cases h
    · cases h
  | _ => cases h

/-- A narinfo has been answered, and then nothing has touched its pin: the NAR is served from the same
tree exactly when the path is looked up at all and, for a publication, neither a pin of the overlay
nor the current overlay has it. -/
theorem nar_served_from_pin (hopen : s.closed = false) {e : Event Publication} {url : String}
    (hanswered : s.response options e = some (.narInfo .get url provider))
    (hpath : normalizedNarPath url = some path) (events : List (Event Publication))
    (hquiet : Always (step options)
      (Quiet options path (s.now + (registryOf options provider).ttlMs) provider)
      (s.step options e) events)
    (hheads : Always (step options) (HeadsAside options path provider) (s.step options e) events)
    (reads : Reads Publication ℕ) :
    let t := run (step options) (s.step options e) events
    t.now < s.now + (registryOf options provider).ttlMs →
      (t.response options (.nar .get path reads) =
          some (.nar .get path (some provider) (resolve reads path provider).mapped) ↔
        (t.selection ≠ [] ∨ t.overlayWith path ≠ none) ∧ Foremost t path provider) := by
  intro t hlive
  obtain ⟨key, hkey, hheld, hclosed⟩ := response_held hanswered
  obtain rfl := Option.some.inj (hkey.symm.trans hpath)
  have hkey := normalizedNarPath_idem hkey
  obtain ⟨hopen, hheld⟩ := run_keeps (hclosed.trans hopen) hheld hquiet hheads
  change t.closed = false at hopen
  change Held t key _ provider at hheld
  have hrefusal : t.refusal (normalizedNarPath key = some key) key = none ↔
      (t.selection ≠ [] ∨ t.overlayWith key ≠ none) := by
    simp only [refusal, hopen, hkey]
    simp [Classical.or_iff_not_imp_left]
  simp only [response, handle, nar]
  cases hstatus : t.refusal (normalizedNarPath key = some key) key with
  | some status =>
    rw [hstatus] at hrefusal
    simpa using fun h => absurd (hrefusal.mpr h) (by simp)
  | none =>
    rw [← hrefusal, hstatus]
    cases provider with
    | overlay snapshot =>
      have hsource := narSource_of_take (RouteRegistry.take_held hkey hheld hlive)
      simp [hsource, readNar, Foremost]
    | publication winner =>
      constructor
      · intro h
        refine ⟨rfl, ?_⟩
        by_contra hforemost
        cases htake : (RouteRegistry.take t.now key t.signerRoutes).2 with
        | some snapshot => simp [narSource_of_take htake, readNar] at h
        | none =>
          cases hcurrent : t.overlayWith key with
          | some snapshot => simp [narSource_of_current htake hcurrent, readNar] at h
          | none => exact hforemost ⟨htake, hcurrent⟩
      · rintro ⟨-, htake, hcurrent⟩
        have hget := RouteRegistry.get_held hkey hheld hlive
        have hsource := narSource_of_get htake hcurrent (by rw [hget])
        simp [hsource, readNar]

end Coherence

section Samples

def sampleOptions : HandlerOptions :=
  ⟨⟨2, 10⟩, ⟨2, 10⟩⟩

/-- A narinfo of the publication `1`, which names `nar/x`, is about to be answered. -/
def sampleWaiting : NixHandler ℕ :=
  run (step sampleOptions) initial [.select [1], .narInfo 7 .get (StagingArea.sampleHash 'a')]

def sampleAnswer : Event ℕ :=
  .answer 7 fun _ => .found "nar/x"

theorem sampleWaiting_open : sampleWaiting.closed = false := by
  decide +kernel

theorem sampleAnswer_response :
    sampleWaiting.response sampleOptions sampleAnswer =
      some (.narInfo .get "nar/x" (.publication 1)) := by
  decide +kernel

/-- The selection changes before the NAR is fetched. -/
theorem nar_served_from_replaced_winner :
    let t := run (step sampleOptions) (sampleWaiting.step sampleOptions sampleAnswer)
      [.clock 3, .select [2], .nar .get "nar/y" fun _ => .absent]
    t.response sampleOptions (.nar .get "nar/x" fun _ => .found 5) =
      some (.nar .get "nar/x" (some (.publication 1)) (.ok 5)) :=
  (nar_served_from_pin sampleWaiting_open sampleAnswer_response (by decide +kernel) _
    (by decide +kernel) (by decide +kernel) _ (by decide +kernel)).mpr (by decide +kernel)

/-- The overlay commits the URL before the NAR is fetched: the pin of the winner is not asked. -/
theorem nar_served_from_overlay :
    let events : List (Event ℕ) := [.commitOverlay ⟨1, ["nar/x"]⟩]
    let t := run (step sampleOptions) (sampleWaiting.step sampleOptions sampleAnswer) events
    Always (step sampleOptions) (Quiet sampleOptions "nar/x" 10 (.publication 1))
        (sampleWaiting.step sampleOptions sampleAnswer) events ∧ t.now < 10 ∧
      t.response sampleOptions (.nar .get "nar/x" fun _ => .found 5) =
        some (.nar .get "nar/x" (some (.overlay ⟨1, ["nar/x"]⟩)) (.ok 5)) := by
  decide +kernel

end Samples

end NixHandler

end NixstrCache.Nix

import NixstrCache.Blossom.BlobFetcher
import Mathlib.Data.List.DropRight

/-!
The plan of the servers that a blob is asked from.

The servers of the event come first, then those of BUD-03, then the extra servers of the
configuration.  A server is known by its base URL; the first server with a base URL takes its place in
the plan, and an extra server that comes again hands the place its own trust.  The parser of URLs is a
parameter.
-/

namespace NixstrCache.Blossom

section Model

def Web (protocol : String) : Prop :=
  protocol = "http:" ∨ protocol = "https:"

instance (protocol : String) : Decidable (Web protocol) :=
  inferInstanceAs (Decidable (_ ∨ _))

/-- A URL as the platform parses it.  The host is written with its port. -/
structure WebUrl where
  protocol : String
  username : String
  password : String
  host : String
  pathname : String
  query : Option String
  fragment : Option String
  host_clean : '/' ∉ host.toList
  pathname_slash : Web protocol → pathname.toList.head? = some '/'

/-- A server as `new URL` takes it: a text, or a URL that stands for its text. -/
inductive ServerValue where
  | text (value : String)
  | url (value : WebUrl)

structure SourcePlanInput where
  extras : Option (List ServerValue)
  event : Option (List String)
  bud03 : Option (List String)
  isQuarantined : Option (String → Bool)

namespace WebUrl

def search (url : WebUrl) : String :=
  match url.query with
  | none => ""
  | some query => if query = "" then "" else "?" ++ query

def hash (url : WebUrl) : String :=
  match url.fragment with
  | none => ""
  | some fragment => if fragment = "" then "" else "#" ++ fragment

/-- The origin of a URL of HTTP. -/
def origin (url : WebUrl) : String :=
  url.protocol ++ "//" ++ url.host

def credentials (url : WebUrl) : String :=
  if url.username = "" ∧ url.password = "" then ""
  else url.username ++ (if url.password = "" then "" else ":" ++ url.password) ++ "@"

/-- An empty query or fragment keeps its mark here, other than in `search` and `hash`. -/
def href (url : WebUrl) : String :=
  url.protocol ++ "//" ++ url.credentials ++ url.host ++ url.pathname ++
    (match url.query with | none => "" | some query => "?" ++ query) ++
    (match url.fragment with | none => "" | some fragment => "#" ++ fragment)

/-- Setting a pathname that is part of one: a slash is put in front where there is none. -/
def setPathname (url : WebUrl) (path : String) : WebUrl :=
  { url with
    pathname := if path.toList.head? = some '/' then path else "/" ++ path
    pathname_slash := by
      intro _
      split
      · assumption
      · simp }

end WebUrl

def ServerValue.href : ServerValue → String
  | .text value => value
  | .url value => value.href

/-- `replace(/\/+$/, "")` -/
def withoutSlashes (text : String) : String :=
  String.ofList (text.toList.rdropWhile (· = '/'))

/-- `replace(/\/$/, "")` -/
def withoutSlash (text : String) : String :=
  if text.toList.getLast? = some '/' then String.ofList text.toList.dropLast else text

variable (newUrl : String → Option WebUrl)

def candidate (value : ServerValue) (trust : SourceTrust) (role : SourceRole) :
    Option SourceCandidate :=
  match newUrl value.href with
  | none => none
  | some url =>
    if ¬Web url.protocol ∨ url.username ≠ "" ∨ url.password ≠ "" ∨ url.search ≠ "" ∨ url.hash ≠ "" then
      none
    else
      let url := url.setPathname (withoutSlashes url.pathname)
      some ⟨withoutSlash url.href, url.origin, trust, role⟩

/-- `input.isQuarantined?.(origin)` -/
def SourcePlanInput.quarantines (input : SourcePlanInput) (origin : String) : Bool :=
  match input.isQuarantined with
  | none => false
  | some isQuarantined => isQuarantined origin

def SourcePlanInput.ordered (input : SourcePlanInput) : List (ServerValue × SourceTrust × SourceRole) :=
  (input.event.getD []).map (fun value : String =>
      (ServerValue.text value, SourceTrust.publisher, SourceRole.publisher)) ++
    (input.bud03.getD []).map (fun value : String =>
      (ServerValue.text value, SourceTrust.publisher, SourceRole.publisher)) ++
    (input.extras.getD []).map (fun value : ServerValue =>
      (value, SourceTrust.configured, SourceRole.publisher))

/-- The plan so far.  `seen` has the place of each base URL in the result. -/
structure SourcePlan where
  seen : List (String × ℕ)
  result : List SourceCandidate
  seen_iff : ∀ base i, seen.lookup base = some i ↔ (result.map (·.baseUrl))[i]? = some base

theorem placed_concat {α : Type*} (l : List α) (x y : α) (i : ℕ) :
    (l ++ [x])[i]? = some y ↔ l[i]? = some y ∨ i = l.length ∧ x = y := by
  rcases Nat.lt_trichotomy i l.length with low | rfl | high
  · rw [List.getElem?_append_left low]
    have : i ≠ l.length := by omega
    simp [this]
  · simp
  · have none_there : (l ++ [x])[i]? = none := by
      rw [List.getElem?_eq_none_iff, List.length_append, List.length_singleton]
      omega
    have : i ≠ l.length := by omega
    have none_here : l[i]? = none := List.getElem?_eq_none_iff.mpr (by omega)
    simp [none_there, none_here, this]

namespace SourcePlan

def empty : SourcePlan :=
  ⟨[], [], by simp⟩

theorem seen_lt (plan : SourcePlan) {base : String} {i : ℕ} (h : plan.seen.lookup base = some i) :
    i < plan.result.length := by
  have placed := (plan.seen_iff base i).mp h
  have := (List.getElem?_eq_some_iff.mp placed).1
  simpa using this

theorem seen_none (plan : SourcePlan) {base : String} :
    plan.seen.lookup base = none ↔ base ∉ plan.result.map (·.baseUrl) := by
  constructor
  · intro absent held
    obtain ⟨i, placed⟩ := List.mem_iff_getElem?.mp held
    have := (plan.seen_iff base i).mpr placed
    simp [absent] at this
  · intro absent
    cases found : plan.seen.lookup base with
    | none => rfl
    | some i => exact absurd (List.mem_of_getElem? ((plan.seen_iff base i).mp found)) absent

def entry (plan : SourcePlan) {base : String} {i : ℕ} (h : plan.seen.lookup base = some i) :
    SourceCandidate :=
  plan.result.get ⟨i, plan.seen_lt h⟩

theorem set_bases (plan : SourcePlan) (item : SourceCandidate) {i : ℕ}
    (h : plan.seen.lookup item.baseUrl = some i) :
    (plan.result.set i item).map (·.baseUrl) = plan.result.map (·.baseUrl) := by
  have placed := (plan.seen_iff _ i).mp h
  rw [List.map_set]
  obtain ⟨bound, value⟩ := List.getElem?_eq_some_iff.mp placed
  rw [← value]
  exact List.set_getElem_self bound

/-- `result[existing] = item` -/
def replace (plan : SourcePlan) (item : SourceCandidate) {i : ℕ}
    (h : plan.seen.lookup item.baseUrl = some i) : SourcePlan :=
  { plan with
    result := plan.result.set i item
    seen_iff := by
      rw [plan.set_bases item h]
      exact plan.seen_iff }

def push (plan : SourcePlan) (item : SourceCandidate) (h : plan.seen.lookup item.baseUrl = none) :
    SourcePlan where
  seen := (item.baseUrl, plan.result.length) :: plan.seen
  result := plan.result ++ [item]
  seen_iff := by
    intro base i
    have fresh := plan.seen_none.mp h
    rw [List.lookup_cons, List.map_append, List.map_cons, List.map_nil, placed_concat]
    by_cases same : base = item.baseUrl
    · subst same
      have absent : (plan.result.map (·.baseUrl))[i]? ≠ some item.baseUrl :=
        fun placed => fresh (List.mem_of_getElem? placed)
      simp only [beq_self_eq_true, Option.some.injEq, absent, false_or, List.length_map, and_true]
      exact eq_comm
    · have other : (base == item.baseUrl) = false := by simpa using same
      simp only [other, plan.seen_iff base i]
      simp [Ne.symm same]

/-- One server of the loop, that is no candidate or has none that is quarantined. -/
def add (plan : SourcePlan) (item : SourceCandidate) : SourcePlan :=
  match h : plan.seen.lookup item.baseUrl with
  | some _ =>
    if item.trust = .configured ∧ (plan.entry h).trust ≠ .configured then plan.replace item h
    else plan
  | none => plan.push item h

end SourcePlan

def SourcePlanInput.visit (input : SourcePlanInput) (plan : SourcePlan)
    (server : ServerValue × SourceTrust × SourceRole) : SourcePlan :=
  match candidate newUrl server.1 server.2.1 server.2.2 with
  | none => plan
  | some item => if input.quarantines item.origin then plan else plan.add item

def buildSourcePlan (input : SourcePlanInput) : List SourceCandidate :=
  (input.ordered.foldl (input.visit newUrl) .empty).result

/-- The servers in the order in which they are asked. -/
def SourcePlanInput.servers (input : SourcePlanInput) : List ServerValue :=
  (input.event.getD []).map .text ++ (input.bud03.getD []).map .text ++ input.extras.getD []

/-- The canonical base URL of a server, if it is a valid one. -/
def canonicalBaseUrl (value : ServerValue) : Option String :=
  (candidate newUrl value .publisher .publisher).map (·.baseUrl)

/-- The canonical base URL of a valid server whose origin is not quarantined. -/
def SourcePlanInput.admitted (input : SourcePlanInput) (value : ServerValue) : Option String :=
  (candidate newUrl value .publisher .publisher).bind fun item =>
    if input.quarantines item.origin then none else some item.baseUrl

end Model

section Candidates

theorem slash_split {x y t u : List Char} (hx : '/' ∉ x) (hy : '/' ∉ y)
    (ht : t = [] ∨ t.head? = some '/') (hu : u = [] ∨ u.head? = some '/') (h : x ++ t = y ++ u) :
    x = y ∧ t = u := by
  have stop : ∀ {a : Char} {z v w : List Char}, '/' ∉ a :: z → (v = [] ∨ v.head? = some '/') →
      a :: z ++ w ≠ v := by
    intro a z v w clean open_slash joined
    subst joined
    rcases open_slash with nothing | first
    · simp at nothing
    · simp only [List.cons_append, List.head?_cons, Option.some.injEq] at first
      exact clean (first ▸ List.mem_cons_self)
  induction x generalizing y with
  | nil =>
    cases y with
    | nil => exact ⟨rfl, h⟩
    | cons b y => exact absurd h.symm (stop hy ht)
  | cons a x ih =>
    cases y with
    | nil => exact absurd h (stop hx hu)
    | cons b y =>
      simp only [List.cons_append, List.cons.injEq] at h
      have hx' : '/' ∉ x := fun held => hx (List.mem_cons_of_mem _ held)
      have hy' : '/' ∉ y := fun held => hy (List.mem_cons_of_mem _ held)
      obtain ⟨rest, tails⟩ := ih hx' hy' h.2
      exact ⟨by rw [h.1, rest], tails⟩

theorem Web.clean {protocol : String} (h : Web protocol) : '/' ∉ protocol.toList := by
  rcases h with rfl | rfl <;> decide

theorem withoutSlash_append {text : String} {x t : List Char} (h : text.toList = x ++ t)
    (ht : t.head? = some '/') :
    ∃ u, (withoutSlash text).toList = x ++ u ∧ (u = [] ∨ u.head? = some '/') := by
  unfold withoutSlash
  split
  · cases t with
    | nil => simp at ht
    | cons a rest =>
      refine ⟨(a :: rest).dropLast, ?_, ?_⟩
      · rw [h, String.toList_ofList, List.dropLast_append_of_ne_nil (List.cons_ne_nil a rest)]
      · cases rest with
        | nil => exact .inl rfl
        | cons b rest => exact .inr ht
  · exact ⟨t, h, .inr ht⟩

theorem base_origin (url : WebUrl) (web : Web url.protocol) (user : url.username = "")
    (password : url.password = "") :
    ∃ tail, (withoutSlash url.href).toList =
      url.protocol.toList ++ ('/' :: '/' :: (url.host.toList ++ tail)) ∧
        (tail = [] ∨ tail.head? = some '/') := by
  obtain ⟨rest, spelled⟩ : ∃ rest : List Char, url.href.toList =
      (url.protocol.toList ++ ('/' :: '/' :: url.host.toList)) ++ (url.pathname.toList ++ rest) := by
    refine ⟨(match url.query with | none => "" | some query => "?" ++ query).toList ++
      (match url.fragment with | none => "" | some fragment => "#" ++ fragment).toList, ?_⟩
    simp [WebUrl.href, WebUrl.credentials, user, password, String.toList_append, List.append_assoc]
  have slashed : (url.pathname.toList ++ rest).head? = some '/' := by
    rw [List.head?_append, url.pathname_slash web]
    rfl
  obtain ⟨tail, base, shape⟩ := withoutSlash_append spelled slashed
  refine ⟨tail, ?_, shape⟩
  rw [base, List.append_assoc]
  rfl

variable {newUrl : String → Option WebUrl} {value value' : ServerValue} {trust trust' : SourceTrust}
variable {role role' : SourceRole} {item item' : SourceCandidate}

theorem candidate_some (h : candidate newUrl value trust role = some item) :
    ∃ url : WebUrl, Web url.protocol ∧ url.username = "" ∧ url.password = "" ∧
      item = ⟨withoutSlash url.href, url.origin, trust, role⟩ := by
  unfold candidate at h
  split at h
  · cases h
  next url _ =>
    split at h
    · cases h
    next accepted =>
      push Not at accepted
      obtain ⟨web, user, password, -, -⟩ := accepted
      have found := (Option.some.inj h).symm
      generalize withoutSlashes url.pathname = path at found
      exact ⟨url.setPathname path, web, user, password, found⟩

theorem candidate_trust (h : candidate newUrl value trust role = some item) : item.trust = trust := by
  obtain ⟨url, -, -, -, rfl⟩ := candidate_some h
  rfl

theorem candidate_origin (h : candidate newUrl value trust role = some item)
    (h' : candidate newUrl value' trust' role' = some item') (same : item.baseUrl = item'.baseUrl) :
    item.origin = item'.origin := by
  obtain ⟨url, web, user, password, rfl⟩ := candidate_some h
  obtain ⟨url', web', user', password', rfl⟩ := candidate_some h'
  obtain ⟨tail, base, shape⟩ := base_origin url web user password
  obtain ⟨tail', base', shape'⟩ := base_origin url' web' user' password'
  have texts : (withoutSlash url.href).toList = (withoutSlash url'.href).toList := congrArg _ same
  rw [base, base'] at texts
  obtain ⟨protocols, rests⟩ := slash_split web.clean web'.clean (.inr rfl) (.inr rfl) texts
  simp only [List.cons.injEq, true_and] at rests
  obtain ⟨hosts, -⟩ := slash_split url.host_clean url'.host_clean shape shape' rests
  change url.protocol ++ "//" ++ url.host = url'.protocol ++ "//" ++ url'.host
  rw [String.toList_inj.mp protocols, String.toList_inj.mp hosts]

theorem candidate_retrust (trust : SourceTrust) (role : SourceRole) :
    candidate newUrl value trust role =
      (candidate newUrl value .publisher .publisher).map fun item => { item with trust, role } := by
  unfold candidate
  cases newUrl value.href with
  | none => rfl
  | some url =>
    dsimp only
    split <;> rfl

end Candidates

namespace SourcePlan

variable {plan : SourcePlan} {item entry : SourceCandidate} {items : List SourceCandidate}

def bases (plan : SourcePlan) : List String :=
  plan.result.map (·.baseUrl)

/-- The base URL has a place in the plan that is held with the trust of the configuration. -/
def Configured (plan : SourcePlan) (base : String) : Prop :=
  ∃ entry ∈ plan.result, entry.baseUrl = base ∧ entry.trust = .configured

theorem bases_nodup (plan : SourcePlan) : plan.bases.Nodup := by
  rw [List.nodup_iff_getElem?_ne_getElem?]
  intro i j before bound same
  obtain ⟨base, placed⟩ : ∃ base, plan.bases[j]? = some base := ⟨_, List.getElem?_eq_getElem bound⟩
  have first := (plan.seen_iff base i).mpr (same.trans placed)
  have second := (plan.seen_iff base j).mpr placed
  rw [first, Option.some.injEq] at second
  omega

theorem entry_unique {other : SourceCandidate} (h : entry ∈ plan.result) (h' : other ∈ plan.result)
    (same : entry.baseUrl = other.baseUrl) : entry = other :=
  List.inj_on_of_nodup_map plan.bases_nodup h h' same

theorem entry_mem {base : String} {i : ℕ} (h : plan.seen.lookup base = some i) :
    plan.entry h ∈ plan.result ∧ (plan.entry h).baseUrl = base := by
  refine ⟨List.get_mem _ _, ?_⟩
  have placed := (plan.seen_iff base i).mp h
  obtain ⟨bound, value⟩ := List.getElem?_eq_some_iff.mp placed
  simpa [SourcePlan.entry] using value

theorem add_cases (plan : SourcePlan) (item : SourceCandidate) :
    (∃ entry ∈ plan.result, entry.baseUrl = item.baseUrl ∧ plan.add item = plan ∧
      (item.trust = .configured → entry.trust = .configured)) ∨
    (∃ (i : ℕ) (h : plan.seen.lookup item.baseUrl = some i), item.trust = .configured ∧
      plan.add item = plan.replace item h) ∨
    (item.baseUrl ∉ plan.bases ∧ (plan.add item).result = plan.result ++ [item]) := by
  unfold add
  split
  next i h =>
    obtain ⟨held, base⟩ := entry_mem h
    split
    next upgrade => exact .inr (.inl ⟨i, h, upgrade.1, rfl⟩)
    next stays =>
      push Not at stays
      exact .inl ⟨plan.entry h, held, base, rfl, stays⟩
  next h => exact .inr (.inr ⟨plan.seen_none.mp h, rfl⟩)

theorem add_bases (plan : SourcePlan) (item : SourceCandidate) :
    (plan.add item).bases =
      if item.baseUrl ∈ plan.bases then plan.bases else plan.bases ++ [item.baseUrl] := by
  rcases plan.add_cases item with ⟨entry, held, base, same, -⟩ | ⟨i, h, -, same⟩ | ⟨fresh, last⟩
  · rw [same, if_pos (base ▸ List.mem_map_of_mem held)]
  · have listed : item.baseUrl ∈ plan.bases := List.mem_of_getElem? ((plan.seen_iff _ i).mp h)
    rw [same, if_pos listed]
    exact plan.set_bases item h
  · rw [if_neg fresh, bases, last, List.map_append]
    rfl

theorem add_result (h : entry ∈ (plan.add item).result) : entry ∈ plan.result ∨ entry = item := by
  rcases plan.add_cases item with ⟨-, -, -, same, -⟩ | ⟨i, found, -, same⟩ | ⟨-, last⟩
  · exact .inl (same ▸ h)
  · rw [same] at h
    exact List.mem_or_eq_of_mem_set h
  · rw [last, List.mem_append, List.mem_singleton] at h
    exact h

theorem replace_result {i : ℕ} (found : plan.seen.lookup item.baseUrl = some i) :
    item ∈ (plan.replace item found).result ∧ ∀ entry ∈ plan.result,
      entry.baseUrl ≠ item.baseUrl → entry ∈ (plan.replace item found).result := by
  have bound := plan.seen_lt found
  refine ⟨List.mem_set bound item, ?_⟩
  intro entry held other
  obtain ⟨j, placed⟩ := List.mem_iff_getElem?.mp held
  have apart : i ≠ j := by
    rintro rfl
    have there := (plan.seen_iff _ i).mp found
    rw [List.getElem?_map, placed] at there
    exact other (Option.some.inj there)
  have kept : (plan.result.set i item)[j]? = some entry := by
    rw [List.getElem?_set_ne apart, placed]
  exact List.mem_of_getElem? kept

theorem add_configured (plan : SourcePlan) (item : SourceCandidate) (base : String) :
    (plan.add item).Configured base ↔
      plan.Configured base ∨ (item.trust = .configured ∧ item.baseUrl = base) := by
  constructor
  · rintro ⟨entry, held, rfl, configured⟩
    rcases add_result held with old | rfl
    · exact .inl ⟨entry, old, rfl, configured⟩
    · exact .inr ⟨configured, rfl⟩
  rcases plan.add_cases item with ⟨entry, held, here, same, kept⟩ | ⟨i, found, upgrade, same⟩ |
    ⟨-, last⟩
  · rw [same]
    rintro (old | ⟨configured, rfl⟩)
    · exact old
    · exact ⟨entry, held, here, kept configured⟩
  · rw [same]
    obtain ⟨taken, others⟩ := replace_result found
    rintro (⟨entry, held, rfl, configured⟩ | ⟨configured, rfl⟩)
    · by_cases here : entry.baseUrl = item.baseUrl
      · exact ⟨item, taken, here.symm, upgrade⟩
      · exact ⟨entry, others entry held here, rfl, configured⟩
    · exact ⟨item, taken, rfl, configured⟩
  · rintro (⟨entry, held, here, configured⟩ | ⟨configured, here⟩)
    · exact ⟨entry, last ▸ List.mem_append_left _ held, here, configured⟩
    · exact ⟨item, by simp [last], here, configured⟩

theorem eraseDups_concat (l : List String) (x : String) :
    (l ++ [x]).eraseDups = if x ∈ l.eraseDups then l.eraseDups else l.eraseDups ++ [x] := by
  rw [List.eraseDups_append]
  by_cases old : x ∈ l
  · simp [List.removeAll, old]
  · simp [List.removeAll, old, List.eraseDups_cons]

theorem adds_bases (items : List SourceCandidate) :
    (items.foldl add empty).bases = (items.map (·.baseUrl)).eraseDups := by
  induction items using List.reverseRecOn with
  | nil => rfl
  | append_singleton items item ih =>
    rw [List.foldl_append, List.foldl_cons, List.foldl_nil, add_bases, ih, List.map_append]
    exact (eraseDups_concat _ _).symm

theorem adds_result (h : entry ∈ (items.foldl add empty).result) : entry ∈ items := by
  induction items using List.reverseRecOn with
  | nil => exact h
  | append_singleton items item ih =>
    rw [List.foldl_append] at h
    rcases add_result h with old | rfl
    · exact List.mem_append_left _ (ih old)
    · simp

theorem adds_configured (items : List SourceCandidate) (base : String) :
    (items.foldl add empty).Configured base ↔
      ∃ item ∈ items, item.trust = .configured ∧ item.baseUrl = base := by
  induction items using List.reverseRecOn with
  | nil => simp [Configured, empty]
  | append_singleton items item ih =>
    rw [List.foldl_append, List.foldl_cons, List.foldl_nil, add_configured, ih]
    simp only [List.mem_append, List.mem_singleton]
    constructor
    · rintro (⟨other, held, configured⟩ | configured)
      · exact ⟨other, .inl held, configured⟩
      · exact ⟨item, .inr rfl, configured⟩
    · rintro ⟨other, held | rfl, configured⟩
      · exact .inl ⟨other, held, configured⟩
      · exact .inr configured

end SourcePlan

section Plans

variable (newUrl : String → Option WebUrl) (input : SourcePlanInput)

def SourcePlanInput.accepted (server : ServerValue × SourceTrust × SourceRole) : Option SourceCandidate :=
  (candidate newUrl server.1 server.2.1 server.2.2).filter fun item => !input.quarantines item.origin

theorem buildSourcePlan_adds :
    buildSourcePlan newUrl input =
      ((input.ordered.filterMap (input.accepted newUrl)).foldl SourcePlan.add .empty).result := by
  rw [buildSourcePlan, List.foldl_filterMap]
  congr 1
  apply List.foldl_ext
  intro plan server _
  unfold SourcePlanInput.visit SourcePlanInput.accepted
  cases candidate newUrl server.1 server.2.1 server.2.2 with
  | none => rfl
  | some item => cases held : input.quarantines item.origin <;> simp [Option.filter, held]

variable {newUrl input}

theorem accepted_some {server : ServerValue × SourceTrust × SourceRole} {item : SourceCandidate} :
    input.accepted newUrl server = some item ↔
      candidate newUrl server.1 server.2.1 server.2.2 = some item ∧
        input.quarantines item.origin = false := by
  simp [SourcePlanInput.accepted, Option.filter_eq_some_iff]

theorem accepted_base (server : ServerValue × SourceTrust × SourceRole) :
    (input.accepted newUrl server).map (·.baseUrl) = input.admitted newUrl server.1 := by
  rw [SourcePlanInput.accepted, candidate_retrust, SourcePlanInput.admitted]
  cases candidate newUrl server.1 .publisher .publisher with
  | none => rfl
  | some item => cases held : input.quarantines item.origin <;> simp [Option.filter, held]

theorem ordered_servers : input.ordered.map Prod.fst = input.servers := by
  simp [SourcePlanInput.ordered, SourcePlanInput.servers, Function.comp_def]

theorem accepted_bases :
    (input.ordered.filterMap (input.accepted newUrl)).map (·.baseUrl) =
      input.servers.filterMap (input.admitted newUrl) := by
  rw [List.map_filterMap, ← ordered_servers, List.filterMap_map]
  congr 1
  funext server
  exact accepted_base server

theorem ordered_extra {value : ServerValue} {role : SourceRole}
    (h : (value, SourceTrust.configured, role) ∈ input.ordered) : value ∈ input.extras.getD [] := by
  simp only [SourcePlanInput.ordered, List.mem_append, List.mem_map, Prod.mk.injEq] at h
  rcases h with (⟨_, _, _, wrong, _⟩ | ⟨_, _, _, wrong, _⟩) | ⟨extra, held, same, _⟩
  · cases wrong
  · cases wrong
  · exact same ▸ held

theorem buildSourcePlan_accepted {entry : SourceCandidate} (h : entry ∈ buildSourcePlan newUrl input) :
    ∃ server ∈ input.ordered, input.accepted newUrl server = some entry := by
  rw [buildSourcePlan_adds] at h
  exact List.mem_filterMap.mp (SourcePlan.adds_result h)

theorem buildSourcePlan_configured {entry : SourceCandidate} (h : entry ∈ buildSourcePlan newUrl input) :
    entry.trust = .configured ↔
      ∃ value ∈ input.extras.getD [], canonicalBaseUrl newUrl value = some entry.baseUrl := by
  have settled := SourcePlan.adds_configured (input.ordered.filterMap (input.accepted newUrl))
    entry.baseUrl
  obtain ⟨server, -, accepted⟩ := buildSourcePlan_accepted h
  obtain ⟨own, free⟩ := accepted_some.mp accepted
  rw [buildSourcePlan_adds] at h
  constructor
  · intro configured
    obtain ⟨item, held, trusted, same⟩ := settled.mp ⟨entry, h, rfl, configured⟩
    obtain ⟨⟨value, trust, role⟩, listed, found⟩ := List.mem_filterMap.mp held
    have candidate_found := (accepted_some.mp found).1
    have configured_server : trust = .configured := (candidate_trust candidate_found).symm.trans trusted
    subst configured_server
    refine ⟨value, ordered_extra listed, ?_⟩
    rw [candidate_retrust] at candidate_found
    obtain ⟨plain, parsed, rfl⟩ := Option.map_eq_some_iff.mp candidate_found
    rw [canonicalBaseUrl, parsed, ← same]
    rfl
  · rintro ⟨value, held, canonical⟩
    obtain ⟨plain, parsed, base⟩ := Option.map_eq_some_iff.mp canonical
    have found : candidate newUrl value .configured .publisher =
        some { plain with trust := .configured, role := .publisher } := by
      rw [candidate_retrust, parsed]
      rfl
    have origin : plain.origin = entry.origin := candidate_origin parsed own base
    have listed : (value, SourceTrust.configured, SourceRole.publisher) ∈ input.ordered := by
      refine List.mem_append_right _ (List.mem_map_of_mem held)
    obtain ⟨holder, placed, same, configured⟩ := settled.mpr
      ⟨_, List.mem_filterMap.mpr ⟨_, listed, accepted_some.mpr ⟨found, origin ▸ free⟩⟩, rfl, base⟩
    rwa [SourcePlan.entry_unique placed h same] at configured

/-- The plan has the base URLs of the servers that are valid and not quarantined, each once and in the
order in which they first come, and trusts those of the configuration. -/
theorem buildSourcePlan_plan (newUrl : String → Option WebUrl) (input : SourcePlanInput) :
    (buildSourcePlan newUrl input).map (·.baseUrl) =
        (input.servers.filterMap (input.admitted newUrl)).eraseDups ∧
      ((buildSourcePlan newUrl input).map (·.baseUrl)).Nodup ∧
      (∀ base, base ∈ (buildSourcePlan newUrl input).map (·.baseUrl) ↔
        ∃ value ∈ input.servers, input.admitted newUrl value = some base) ∧
      ∀ entry ∈ buildSourcePlan newUrl input, input.quarantines entry.origin = false ∧
        (entry.trust = .configured ↔
          ∃ value ∈ input.extras.getD [], canonicalBaseUrl newUrl value = some entry.baseUrl) := by
  have bases : (buildSourcePlan newUrl input).map (·.baseUrl) =
      (input.servers.filterMap (input.admitted newUrl)).eraseDups := by
    rw [buildSourcePlan_adds, ← accepted_bases]
    exact SourcePlan.adds_bases _
  have nodup : ((buildSourcePlan newUrl input).map (·.baseUrl)).Nodup := by
    rw [buildSourcePlan]
    exact (input.ordered.foldl (input.visit newUrl) .empty).bases_nodup
  refine ⟨bases, nodup, ?_, ?_⟩
  · intro base
    rw [bases, List.mem_eraseDups, List.mem_filterMap]
  · intro entry held
    obtain ⟨server, -, accepted⟩ := buildSourcePlan_accepted held
    exact ⟨(accepted_some.mp accepted).2, buildSourcePlan_configured held⟩

/-- The URLs of HTTPS without a query and a fragment. -/
def plainUrl (text : String) : Option WebUrl :=
  if text.startsWith "https://" then
    let rest := text.toList.drop 8
    some
      { protocol := "https:"
        username := ""
        password := ""
        host := String.ofList (rest.takeWhile (· ≠ '/'))
        pathname := "/" ++ String.ofList ((rest.dropWhile (· ≠ '/')).drop 1)
        query := none
        fragment := none
        host_clean := by
          rw [String.toList_ofList]
          exact fun hslash => by simpa using List.mem_takeWhile_imp hslash
        pathname_slash := by simp }
  else none

/-- A server comes once, an extra server of the configuration has its trust, and a text that is no such URL
is left out. -/
example :
    (buildSourcePlan plainUrl
        { event := some ["https://a.example/files/", "ftp://c.example"]
          bud03 := some ["https://a.example/files"]
          extras := some [.text "https://b.example/"]
          isQuarantined := none }).map (fun entry => (entry.baseUrl, entry.trust)) =
      [("https://a.example/files", .publisher), ("https://b.example", .configured)] := by
  decide +kernel

end Plans

end NixstrCache.Blossom

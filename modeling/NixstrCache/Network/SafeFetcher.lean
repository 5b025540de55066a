import NixstrCache.Network.AddressPolicy

/-!
One request of the fetcher, hop by hop.

Every hop resolves the name of its URL again, approves all answers and connects to the first of them.
Resolver and peers are functions of the number of the hop, so that they may answer differently each
time, and a `Location` header is whatever the platform reads as a URL.
-/

namespace NixstrCache.Network

inductive SourceTrust where
  | publisher
  | configured
deriving DecidableEq, Repr

inductive FetchMethod where
  | get
  | head
  | put
deriving DecidableEq, Repr

structure FetchUrl where
  protocol : String
  username : String
  password : String
  hostname : String
  port : Option ℕ
  origin : String
deriving DecidableEq, Repr

inductive FetchError where
  | policy (message : String)
  /-- `new URL` throws. -/
  | invalidUrl
  /-- The resolver or the transport throws, a deadline included. -/
  | failed (message : String)
deriving DecidableEq, Repr

structure ApprovedTarget where
  url : FetchUrl
  hostname : String
  address : String
  port : ℕ
deriving DecidableEq, Repr

/-- The status and the `Location` of a response, and whether its body can be cancelled. -/
structure PinnedResponse where
  status : ℕ
  location : Option String
  cancels : Bool
deriving DecidableEq, Repr

/-- The platform, the resolver and the peers. -/
structure FetchEnv where
  parseUrl : String → Option FetchUrl → Option FetchUrl
  resolver : ℕ → String → Except FetchError (List String)
  transport : ℕ → ApprovedTarget → FetchMethod → Except FetchError PinnedResponse

structure AddressPolicy where
  configuredOrigins : List String

structure SafeFetcher where
  policy : AddressPolicy
  maxRedirects : ℕ

structure Fetched where
  connections : List ApprovedTarget
  result : Except FetchError PinnedResponse

def redirectStatuses : List ℕ :=
  [301, 302, 303, 307, 308]

/-- `defaultResolver`: a literal stands for itself, a name for what both lookups have found. -/
def defaultResolver (dns : String → List String × List String) (hostname : String) :
    Except FetchError (List String) :=
  if (ipv4Parts hostname.toList).isSome ∨ ':' ∈ hostname.toList then .ok [hostname]
  else .ok ((dns hostname).1 ++ (dns hostname).2)

namespace AddressPolicy

def configuredLocal (policy : AddressPolicy) (url : FetchUrl) (trust : SourceTrust) : Bool :=
  trust = .configured ∧ url.origin ∈ policy.configuredOrigins

def portOf (url : FetchUrl) : ℕ :=
  url.port.getD (if url.protocol = "https:" then 443 else 80)

def approve (policy : AddressPolicy) (resolver : String → Except FetchError (List String))
    (url : FetchUrl) (trust : SourceTrust) : Except FetchError ApprovedTarget :=
  if ¬(url.protocol = "http:" ∨ url.protocol = "https:") then
    .error (.policy "only HTTP(S) targets are allowed")
  else if url.username ≠ "" ∨ url.password ≠ "" then
    .error (.policy "target userinfo is forbidden")
  else if trust = .configured ∧ policy.configuredLocal url trust = false then
    .error (.policy "configured trust applies only to the configured origin")
  else
    match resolver url.hostname with
    | .error e => .error e
    | .ok found =>
      match found.eraseDups with
      | [] => .error (.policy "target hostname returned no addresses")
      | address :: others =>
        if policy.configuredLocal url trust = false ∧ (address :: others).any isForbiddenAddress then
          .error (.policy "target DNS answer set contains a forbidden address")
        else .ok ⟨url, url.hostname, address, portOf url⟩

end AddressPolicy

namespace SafeFetcher

section Model

variable (fetcher : SafeFetcher) (env : FetchEnv) (trust : SourceTrust) (method : FetchMethod)

def next (url : FetchUrl) (response : PinnedResponse) : Except FetchError FetchUrl :=
  if response.cancels = false then .error (.failed "the body cannot be cancelled")
  else
    match response.location with
    | none | some "" => .error (.policy "redirect response has no Location header")
    | some location =>
      if method ≠ .get then .error (.policy "upload redirects are forbidden")
      else
        match env.parseUrl location (some url) with
        | none => .error .invalidUrl
        | some redirect => .ok redirect

/-- The hops from one on, with the number of those that are left. -/
def hops : ℕ → ℕ → FetchUrl → Fetched
  | 0, _, _ => ⟨[], .error (.policy "redirect limit exceeded")⟩
  | left + 1, hop, url =>
    match fetcher.policy.approve (env.resolver hop) url trust with
    | .error e => ⟨[], .error e⟩
    | .ok target =>
      match env.transport hop target method with
      | .error e => ⟨[target], .error e⟩
      | .ok response =>
        if response.status ∉ redirectStatuses then ⟨[target], .ok response⟩
        else
          match next env method url response with
          | .error e => ⟨[target], .error e⟩
          | .ok redirect =>
            let rest := hops left (hop + 1) redirect
            ⟨target :: rest.connections, rest.result⟩

def request (input : String) : Fetched :=
  match env.parseUrl input none with
  | none => ⟨[], .error .invalidUrl⟩
  | some url => hops fetcher env trust method (fetcher.maxRedirects + 1) 0 url

end Model

section Safety

variable {fetcher : SafeFetcher} {env : FetchEnv} {trust : SourceTrust} {method : FetchMethod}

/-- The target is one of the answers to its lookup, of which none is forbidden, or it belongs to an
origin that is configured and trusted so. -/
structure Admitted (policy : AddressPolicy) (trust : SourceTrust) (answers : List String)
    (target : ApprovedTarget) : Prop where
  answered : target.address ∈ answers
  allowed : (∀ address ∈ answers, isForbiddenAddress address = false) ∨
    trust = .configured ∧ target.url.origin ∈ policy.configuredOrigins

theorem approve_admitted {policy : AddressPolicy}
    {resolver : String → Except FetchError (List String)} {url : FetchUrl} {target : ApprovedTarget}
    (h : policy.approve resolver url trust = .ok target) :
    ∃ answers, resolver target.hostname = .ok answers ∧ Admitted policy trust answers target := by
  unfold AddressPolicy.approve at h
  split_ifs at h with hprotocol huser hconfigured
  cases hanswers : resolver url.hostname with
  | error e => simp [hanswers] at h
  | ok answers =>
    simp only [hanswers] at h
    split at h
    · cases h
    · next address others herase =>
      split_ifs at h with hforbidden
      obtain rfl := Except.ok.inj h
      have hmem : ∀ a, a ∈ answers ↔ a ∈ address :: others := by
        intro a
        rw [← herase, List.mem_eraseDups]
      refine ⟨answers, hanswers, (hmem address).mpr (by simp), ?_⟩
      by_cases hlocal : policy.configuredLocal url trust = true
      · right
        simpa [AddressPolicy.configuredLocal] using hlocal
      · left
        intro a ha
        have hany := not_and.mp hforbidden (by simpa using hlocal)
        rw [List.any_eq_true, not_exists] at hany
        have := hany a
        simpa [(hmem a).mp ha] using this

theorem approve_literal {policy : AddressPolicy} {dns : String → List String × List String}
    {url : FetchUrl} {target : ApprovedTarget}
    (hliteral : (ipv4Parts url.hostname.toList).isSome ∨ ':' ∈ url.hostname.toList)
    (h : policy.approve (defaultResolver dns) url .publisher = .ok target) :
    target.address = url.hostname ∧ isForbiddenAddress url.hostname = false := by
  obtain ⟨answers, hanswers, hadmitted⟩ := approve_admitted h
  have hhostname : target.hostname = url.hostname := by
    unfold AddressPolicy.approve at h
    split_ifs at h
    split at h
    · cases h
    · split at h
      · cases h
      · split_ifs at h
        cases h
        rfl
  rw [hhostname, defaultResolver, if_pos hliteral] at hanswers
  obtain rfl := Except.ok.inj hanswers
  refine ⟨List.mem_singleton.mp hadmitted.answered, ?_⟩
  rcases hadmitted.allowed with hall | ⟨hconfigured, -⟩
  · exact hall _ (by simp)
  · cases hconfigured

/-- The loopback address as a URL spells it. -/
example : isForbiddenAddress "[::1]" = true := by
  decide +kernel

theorem next_get {url redirect : FetchUrl} {response : PinnedResponse}
    (h : next env method url response = .ok redirect) : method = .get := by
  by_contra hmethod
  unfold next at h
  simp only [if_pos hmethod] at h
  split_ifs at h
  split at h
  · cases h
  · cases h
  · cases h

variable (fetcher env trust method) in
/-- One hop: no connection, one connection that ends the request, or one that a `GET` follows. -/
theorem hops_cases (left hop : ℕ) (url : FetchUrl) :
    let fetched := hops fetcher env trust method (left + 1) hop url
    (fetched.connections = [] ∧ ∃ e, fetched.result = .error e) ∨
      ∃ target, fetcher.policy.approve (env.resolver hop) url trust = .ok target ∧
        ((fetched.connections = [target] ∧
            ∀ response, fetched.result = .ok response → response.status ∉ redirectStatuses) ∨
          method = .get ∧ ∃ redirect,
            fetched = ⟨target :: (hops fetcher env trust method left (hop + 1) redirect).connections,
              (hops fetcher env trust method left (hop + 1) redirect).result⟩) := by
  intro fetched
  simp only [fetched, hops]
  cases happrove : fetcher.policy.approve (env.resolver hop) url trust with
  | error e => exact Or.inl ⟨rfl, e, rfl⟩
  | ok target =>
    refine Or.inr ⟨target, rfl, ?_⟩
    dsimp only
    cases env.transport hop target method with
    | error e => exact Or.inl ⟨rfl, by simp⟩
    | ok response =>
      dsimp only
      by_cases hstatus : response.status ∉ redirectStatuses
      · rw [if_pos hstatus]
        refine Or.inl ⟨rfl, ?_⟩
        rintro _ ⟨⟩
        exact hstatus
      · rw [if_neg hstatus]
        cases hnext : next env method url response with
        | error e => exact Or.inl ⟨rfl, by simp⟩
        | ok redirect => exact Or.inr ⟨next_get hnext, redirect, rfl⟩

theorem hops_admitted (left hop : ℕ) (url : FetchUrl) (i : ℕ) (target : ApprovedTarget)
    (h : (hops fetcher env trust method left hop url).connections[i]? = some target) :
    ∃ answers, env.resolver (hop + i) target.hostname = .ok answers ∧
      Admitted fetcher.policy trust answers target := by
  induction left generalizing hop url i with
  | zero => simp [hops] at h
  | succ left ih =>
    rcases hops_cases fetcher env trust method left hop url with
      ⟨hnone, -⟩ | ⟨first, happrove, ⟨hsingle, -⟩ | ⟨-, redirect, hmore⟩⟩
    · simp [hnone] at h
    · rw [hsingle] at h
      obtain ⟨rfl, rfl⟩ : 0 = i ∧ first = target := by simpa [List.getElem?_singleton, eq_comm] using h
      exact approve_admitted happrove
    · rw [hmore] at h
      cases i with
      | zero =>
        obtain rfl : first = target := by simpa using h
        exact approve_admitted happrove
      | succ i =>
        have hrest := ih (hop + 1) redirect i (by simpa using h)
        rwa [Nat.add_assoc, Nat.add_comm 1 i] at hrest

theorem hops_length (left hop : ℕ) (url : FetchUrl) :
    (hops fetcher env trust method left hop url).connections.length ≤ left := by
  induction left generalizing hop url with
  | zero => simp [hops]
  | succ left ih =>
    rcases hops_cases fetcher env trust method left hop url with
      ⟨hnone, -⟩ | ⟨first, happrove, ⟨hsingle, -⟩ | ⟨-, redirect, hmore⟩⟩
    · simp [hnone]
    · simp [hsingle]
    · rw [hmore]
      simpa using ih (hop + 1) redirect

/-- A request that is no `GET` ends with its first response, and not with a redirect. -/
theorem hops_single (hmethod : method ≠ .get) (left hop : ℕ) (url : FetchUrl) :
    let fetched := hops fetcher env trust method left hop url
    fetched.connections.length ≤ 1 ∧
      ∀ response, fetched.result = .ok response → response.status ∉ redirectStatuses := by
  cases left with
  | zero => simp [hops]
  | succ left =>
    rcases hops_cases fetcher env trust method left hop url with
      ⟨hnone, e, herror⟩ | ⟨first, happrove, ⟨hsingle, hresult⟩ | ⟨hget, -⟩⟩
    · simp [hnone, herror]
    · exact ⟨by simp [hsingle], hresult⟩
    · exact absurd hget hmethod

/-- Whatever the resolver answers at each hop and wherever the responses redirect to, every connection
of a request goes to an answer of the lookup of its own hop. -/
theorem connections_safe (fetcher : SafeFetcher) (env : FetchEnv) (trust : SourceTrust)
    (method : FetchMethod) (input : String) :
    let fetched := fetcher.request env trust method input
    (∀ hop target, fetched.connections[hop]? = some target →
        ∃ answers, env.resolver hop target.hostname = .ok answers ∧
          Admitted fetcher.policy trust answers target) ∧
      fetched.connections.length ≤ fetcher.maxRedirects + 1 ∧
      (method ≠ .get → fetched.connections.length ≤ 1 ∧
        ∀ response, fetched.result = .ok response → response.status ∉ redirectStatuses) := by
  unfold request
  split
  · simp
  · next url hurl =>
    refine ⟨?_, hops_length _ _ _, fun hmethod => hops_single hmethod _ _ _⟩
    intro hop target htarget
    have hadmitted := hops_admitted _ _ _ hop target htarget
    rwa [Nat.zero_add] at hadmitted

end Safety

end SafeFetcher

end NixstrCache.Network

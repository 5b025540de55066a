import NixstrCache.Protocol.ManifestCodec

/-!
The descent of the path resolver.

A store gives the verified manifest of a hash and says what it takes to fetch it.  The resolver goes
down from the root under a budget: in a directory it looks for the name of the segment, in a fanout for
the first link whose bounds contain the segment.  It compares texts by their UTF-16 units, while the
decoder has checked the bounds by bytes.  Deadlines are left out.
-/

namespace NixstrCache.Hashtree

open NixstrCache.Protocol

section Budget

structure Node where
  validated : ValidatedManifest
  attempts : ℕ
  transferred : ℕ

abbrev Store := List UInt8 → Option Node

structure TraversalLimits where
  maxDepth : ℕ
  maxLinks : ℕ
  maxUniqueNodes : ℕ
  maxDecodedBytes : ℕ
  maxAttempts : ℕ
  maxBlobTransferBytes : ℕ
  maxTransferredBytes : ℕ

structure RequestBudget where
  links : ℕ
  nodes : List (List UInt8)
  decoded : ℕ
  attempts : ℕ
  transferred : ℕ

def RequestBudget.initial : RequestBudget := ⟨0, [], 0, 0, 0⟩

inductive ResolveError where
  | budgetExceeded (message : String)
  | verifiedAbsent (path : String)
  | failed (message : String)
deriving DecidableEq, Repr

variable (limits : TraversalLimits) (store : Store)

def debitLinks (count : ℕ) (budget : RequestBudget) : Except ResolveError RequestBudget :=
  if limits.maxLinks < budget.links + count then .error (.budgetExceeded "link budget exceeded")
  else .ok { budget with links := budget.links + count }

/-- `#fetch` of a manifest and the debit of its decoded bytes. -/
def fetchManifest (hash : List UInt8) (budget : RequestBudget) :
    Except ResolveError (Manifest × RequestBudget) :=
  match store hash with
  | none => .error (.failed "blob fetch failed")
  | some node =>
    if limits.maxAttempts < budget.attempts + node.attempts then
      .error (.budgetExceeded "source-attempt budget exceeded")
    else if limits.maxTransferredBytes ≤ budget.transferred ∨
        limits.maxTransferredBytes < budget.transferred + node.transferred ∨
        limits.maxBlobTransferBytes < node.transferred then
      .error (.budgetExceeded "request transfer budget exceeded")
    else if limits.maxDecodedBytes < budget.decoded + node.validated.decodedBytes then
      .error (.budgetExceeded "decoded-byte budget exceeded")
    else .ok (node.validated.manifest,
      { budget with
        attempts := budget.attempts + node.attempts
        transferred := budget.transferred + node.transferred
        decoded := budget.decoded + node.validated.decodedBytes })

/-- `#manifest`.  What has been visited in this request is at hand. -/
def manifestOf (hash : List UInt8) (budget : RequestBudget) :
    Except ResolveError (Manifest × RequestBudget) :=
  if hash ∈ budget.nodes then
    match store hash with
    | none => .error (.failed "blob fetch failed")
    | some node => .ok (node.validated.manifest, budget)
  else if limits.maxUniqueNodes ≤ budget.nodes.length then
    .error (.budgetExceeded "unique-node budget exceeded")
  else fetchManifest limits store hash { budget with nodes := hash :: budget.nodes }

end Budget

section Descent

/-- The bounds that the metadata of a fanout link gives. -/
def boundsOf (link : ManifestLink) : Option Bounds :=
  match link.metadata with
  | none => none
  | some metadata =>
    match metadata.lookup "first", metadata.lookup "last" with
    | some (.text first), some (.text last) => some ⟨first, last⟩
    | _, _ => none

/-- `segment >= m.first && segment <= m.last`: the platform compares UTF-16 units. -/
def unitsWithin (bounds : Bounds) (segment : String) : Bool :=
  utf16 bounds.first ≤ utf16 segment ∧ utf16 segment ≤ utf16 bounds.last

def bytesWithin (bounds : Bounds) (segment : String) : Bool :=
  utf8 bounds.first ≤ utf8 segment ∧ utf8 segment ≤ utf8 bounds.last

def childFor (within : Bounds → String → Bool) (links : List ManifestLink) (segment : String) :
    Option ManifestLink :=
  links.find? fun link => (boundsOf link).any fun bounds => within bounds segment

def entryNamed (links : List ManifestLink) (segment : String) : Option ManifestLink :=
  links.find? fun link => link.name = some segment

def isTree (type : LinkType) : Bool :=
  type = .directory ∨ type = .fanout

def typeMatches (expected : LinkType) (type : ManifestType) : Bool :=
  (expected = .directory ∧ type = .directory) ∨ (expected = .fanout ∧ type = .fanout)

variable (limits : TraversalLimits) (store : Store) (path : String)

/-- The descent of `resolve` to the link of the last segment, with the depth that is left. -/
def descend : ℕ → List UInt8 → LinkType → List String → RequestBudget →
    Except ResolveError (ManifestLink × RequestBudget)
  | 0, _, _, _, _ => .error (.budgetExceeded "traversal depth exceeded")
  | depth + 1, hash, expected, segments, budget => do
    let (manifest, budget) ← manifestOf limits store hash budget
    if typeMatches expected manifest.type = false then
      .error (.failed "linked manifest type does not match authenticated link")
    else do
      let budget ← debitLinks limits manifest.links.length budget
      match segments with
      | [] => .error (.verifiedAbsent path)
      | segment :: rest =>
        if manifest.type = .fanout then
          match childFor unitsWithin manifest.links segment with
          | none => .error (.verifiedAbsent path)
          | some link => descend depth link.hash link.type (segment :: rest) budget
        else
          match entryNamed manifest.links segment with
          | none => .error (.verifiedAbsent path)
          | some link =>
            if rest = [] then .ok (link, budget)
            else if isTree link.type then descend depth link.hash link.type rest budget
            else .error (.verifiedAbsent path)

def segmentsOf (path : String) : List String :=
  ((path.toList.splitOn '/').map String.ofList).filter (· ≠ "")

def locate (root : List UInt8) : Except ResolveError ManifestLink :=
  if segmentsOf path = [] then .error (.verifiedAbsent path)
  else (descend limits store path limits.maxDepth root .directory (segmentsOf path) .initial).map
    Prod.fst

/-- What follows the descent: a blob and a file are served, with other errors when that fails. -/
def serveLink {α : Type} (serve : ManifestLink → Except String α) (link : ManifestLink) :
    Except ResolveError α :=
  if isTree link.type then .error (.failed "GET of a directory is unsupported")
  else match serve link with
    | .ok a => .ok a
    | .error message => .error (.failed message)

def resolve {α : Type} (serve : ManifestLink → Except String α) (root : List UInt8) :
    Except ResolveError α :=
  locate limits store path root >>= serveLink serve

end Descent

section Trees

variable (lib : MessagePack) (store : Store)

/-- The entries of a directory, or of the directories below a fanout.  The number bounds the height. -/
def entries : ℕ → List UInt8 → List ManifestLink
  | 0, _ => []
  | height + 1, hash =>
    match store hash with
    | none => []
    | some node =>
      if node.validated.manifest.type = .fanout then
        node.validated.manifest.links.flatMap fun link => entries height link.hash
      else node.validated.manifest.links

/-- The linear search by name through the directories of a path. -/
def search (height : ℕ) : List UInt8 → List String → Option ManifestLink
  | _, [] => none
  | hash, segment :: rest =>
    match entryNamed (entries store height hash) segment with
    | none => none
    | some link =>
      if rest = [] then some link
      else if isTree link.type then search height link.hash rest
      else none

def Accepted (lib : MessagePack) (validated : ValidatedManifest) : Prop :=
  ∃ wire limits, decodeValidatedManifest lib wire limits = .ok validated

/-- The bounds are the least and the greatest of the names, in the order of the bytes. -/
structure Bounding (bounds : Bounds) (names : List String) : Prop where
  first : bounds.first ∈ names
  last : bounds.last ∈ names
  least : ∀ name ∈ names, utf8 bounds.first ≤ utf8 name
  greatest : ∀ name ∈ names, utf8 name ≤ utf8 bounds.last

def namesOf (links : List ManifestLink) : List String :=
  links.filterMap ManifestLink.name

/-- A tree of accepted manifests of at most this height, of the types that their links say, with the
bounds of the names below in every fanout link. -/
def Sound : ℕ → List UInt8 → LinkType → Prop
  | 0, _, _ => False
  | height + 1, hash, type => ∃ node, store hash = some node ∧ Accepted lib node.validated ∧
    typeMatches type node.validated.manifest.type = true ∧
    (∀ link ∈ node.validated.manifest.links, isTree link.type = true → Sound height link.hash link.type) ∧
    (node.validated.manifest.type = .fanout → ∀ link ∈ node.validated.manifest.links,
      ∃ bounds, boundsOf link = some bounds ∧
        Bounding bounds (namesOf (entries store height link.hash)))

end Trees

section Fanouts

variable {lib : MessagePack} {links : List ManifestLink} {segment : String}

/-- The names of the first link are before those of the second one. -/
def Apart (a b : ManifestLink) : Prop :=
  ∀ x ∈ boundsOf a, ∀ y ∈ boundsOf b, utf8 x.last < utf8 y.first

theorem lt_of_lt_of_le {a b c : List UInt8} (hab : a < b) (hbc : b ≤ c) : a < c := by
  by_contra hac
  exact List.not_lt.mpr hbc (List.lt_of_le_of_lt (List.not_lt.mp hac) hab)

theorem fanoutBounds_eq_ok {prior : Option String} {metadata : List (String × Value)} {bounds : Bounds}
    {link : ManifestLink} (hmetadata : link.metadata = some metadata)
    (h : fanoutBounds prior metadata = .ok bounds) : boundsOf link = some bounds ∧
      utf8 bounds.first ≤ utf8 bounds.last ∧ ∀ p ∈ prior, utf8 p < utf8 bounds.first := by
  obtain ⟨_, -, h⟩ := bind_eq_ok.mp h
  obtain ⟨count, -, h⟩ := bind_eq_ok.mp h
  split at h
  · next first last hfirst hlast =>
    split_ifs at h with hbad
    cases h
    push Not at hbad
    obtain ⟨-, hordered, hprior⟩ := hbad
    refine ⟨by simp [boundsOf, hmetadata, hfirst, hlast], List.not_lt.mp hordered, fun p hp => ?_⟩
    obtain rfl : prior = some p := hp
    simpa [byteLess] using hprior
  · cases h

theorem checkFanout_eq_ok {prior : Option String} (h : checkFanout prior links = .ok ()) :
    (∀ link ∈ links, isTree link.type = true ∧ ∃ bounds, boundsOf link = some bounds ∧
      ∀ p ∈ prior, utf8 p < utf8 bounds.first) ∧ links.Pairwise Apart := by
  induction links generalizing prior with
  | nil => exact ⟨fun link hlink => absurd hlink List.not_mem_nil, List.Pairwise.nil⟩
  | cons link links ih =>
    rw [checkFanout] at h
    split at h
    · next metadata hname hmetadata =>
      split_ifs at h with htype
      obtain ⟨bounds, hbounds, h⟩ := bind_eq_ok.mp h
      obtain ⟨hof, hordered, hprior⟩ := fanoutBounds_eq_ok hmetadata hbounds
      obtain ⟨hlinks, hapart⟩ := ih h
      have htree : isTree link.type = true := by
        rw [isTree, decide_eq_true_iff]
        tauto
      have hlater : ∀ other ∈ links, ∀ x ∈ boundsOf other, utf8 bounds.last < utf8 x.first := by
        intro other hother x hx
        obtain ⟨-, y, hy, hafter⟩ := hlinks other hother
        obtain rfl : y = x := Option.some.inj (hy.symm.trans hx)
        exact hafter _ rfl
      refine ⟨List.forall_mem_cons.mpr ⟨⟨htree, bounds, hof, hprior⟩, fun other hother => ?_⟩,
        List.pairwise_cons.mpr ⟨fun other hother x hx y hy => ?_, hapart⟩⟩
      · obtain ⟨hothertree, x, hx, -⟩ := hlinks other hother
        refine ⟨hothertree, x, hx, fun p hp => ?_⟩
        exact List.lt_trans (lt_of_lt_of_le (hprior p hp) hordered) (hlater other hother x hx)
      · obtain rfl : bounds = x := Option.some.inj (hof.symm.trans hx)
        exact hlater other hother y hy
    · cases h

theorem Accepted.fanout {validated : ValidatedManifest} (h : Accepted lib validated)
    (htype : validated.manifest.type = .fanout) :
    (∀ link ∈ validated.manifest.links, isTree link.type = true) ∧
      validated.manifest.links.Pairwise Apart := by
  obtain ⟨wire, limits, h⟩ := h
  have hdecoded : decodeManifest lib wire limits = .ok validated.manifest := by
    rw [decodeManifest, h]
    rfl
  obtain ⟨-, raw, -, -, -, hraw⟩ := (decodeManifest_eq_ok lib).mp hdecoded
  obtain ⟨fields, items, -, -, -, -, -, -, hchecked⟩ := readManifest_eq_ok.mp hraw
  rw [htype] at hchecked
  obtain ⟨hlinks, hapart⟩ := checkFanout_eq_ok hchecked
  exact ⟨fun link hlink => (hlinks link hlink).1, hapart⟩

theorem entryNamed_eq_some {link : ManifestLink} (h : entryNamed links segment = some link) :
    link ∈ links ∧ segment ∈ namesOf links := by
  have hlink := List.mem_of_find?_eq_some h
  have hname : link.name = some segment := by simpa using List.find?_some h
  exact ⟨hlink, List.mem_filterMap.mpr ⟨link, hlink, hname⟩⟩

theorem childFor_eq_some {within : Bounds → String → Bool} {link : ManifestLink}
    (h : childFor within links segment = some link) :
    link ∈ links ∧ ∃ bounds ∈ boundsOf link, within bounds segment = true := by
  refine ⟨List.mem_of_find?_eq_some h, ?_⟩
  have hany := List.find?_some h
  cases hbounds : boundsOf link with
  | none => simp [hbounds] at hany
  | some bounds => exact ⟨bounds, rfl, by simpa [hbounds] using hany⟩

theorem childFor_unique {link : ManifestLink} {bounds : Bounds} (hapart : links.Pairwise Apart)
    (hlink : link ∈ links) (hbounds : boundsOf link = some bounds)
    (hwithin : bytesWithin bounds segment = true) :
    childFor bytesWithin links segment = some link := by
  induction links with
  | nil => exact absurd hlink List.not_mem_nil
  | cons head links ih =>
    obtain ⟨hhead, hrest⟩ := List.pairwise_cons.mp hapart
    rw [childFor, List.find?_cons]
    cases hany : (boundsOf head).any fun bounds => bytesWithin bounds segment with
    | true =>
      rcases List.mem_cons.mp hlink with rfl | hlink
      · rfl
      · exfalso
        obtain ⟨x, hx, hxwithin⟩ := (Option.any_eq_true _ _).mp hany
        simp only [bytesWithin, decide_eq_true_eq] at hxwithin hwithin
        have hlt := hhead link hlink x hx bounds hbounds
        exact List.lt_irrefl _ (lt_of_lt_of_le hlt (List.le_trans hwithin.1 hxwithin.2))
    | false =>
      rcases List.mem_cons.mp hlink with rfl | hlink
      · simp [hbounds, hwithin] at hany
      · exact ih hrest hlink

theorem entryNamed_flatMap {below : ManifestLink → List ManifestLink} (hapart : links.Pairwise Apart)
    (hbounds : ∀ link ∈ links, ∃ bounds, boundsOf link = some bounds ∧
      ∀ name ∈ namesOf (below link), bytesWithin bounds name = true) :
    entryNamed (links.flatMap below) segment =
      (childFor bytesWithin links segment).bind fun link => entryNamed (below link) segment := by
  have hfound : ∀ link ∈ links, ∀ entry, entryNamed (below link) segment = some entry →
      childFor bytesWithin links segment = some link := by
    intro link hlink entry hentry
    obtain ⟨bounds, hof, hnames⟩ := hbounds link hlink
    exact childFor_unique hapart hlink hof (hnames segment (entryNamed_eq_some hentry).2)
  cases hchild : childFor bytesWithin links segment with
  | none =>
    refine List.find?_eq_none.mpr fun entry hentry hname => ?_
    obtain ⟨link, hlink, hbelow⟩ := List.mem_flatMap.mp hentry
    have hsome : (entryNamed (below link) segment).isSome = true :=
      List.find?_isSome.mpr ⟨entry, hbelow, hname⟩
    obtain ⟨other, hother⟩ := Option.isSome_iff_exists.mp hsome
    exact absurd ((hfound link hlink other hother).symm.trans hchild) (by simp)
  | some child =>
    rw [Option.bind_some, entryNamed, List.find?_flatMap]
    cases hfind : links.findSome? fun link => (below link).find? fun entry => entry.name = some segment with
    | none =>
      exact (List.findSome?_eq_none_iff.mp hfind child (childFor_eq_some hchild).1).symm
    | some entry =>
      obtain ⟨earlier, link, later, rfl, hentry, -⟩ := List.findSome?_eq_some_iff.mp hfind
      have hsame := hfound link (by simp) entry hentry
      obtain rfl : child = link := Option.some.inj (hchild.symm.trans hsame)
      exact hentry.symm

end Fanouts

section Search

variable {lib : MessagePack} {store : Store} {height : ℕ} {hash : List UInt8} {type : LinkType}
variable {segment : String} {rest segments : List String} {link : ManifestLink}

theorem Bounding.within {bounds : Bounds} {names : List String} (h : Bounding bounds names) :
    ∀ name ∈ names, bytesWithin bounds name = true := by
  intro name hname
  rw [bytesWithin, decide_eq_true_iff]
  exact ⟨h.least name hname, h.greatest name hname⟩

theorem Sound.entries_eq (h : Sound lib store height hash type) {n : ℕ} (hn : height ≤ n) :
    entries store n hash = entries store height hash := by
  induction height generalizing n hash type with
  | zero => exact h.elim
  | succ height ih =>
    obtain ⟨node, hnode, haccepted, -, hlinks, -⟩ := h
    obtain ⟨n, rfl⟩ := Nat.exists_eq_add_of_le' (Nat.one_le_of_lt hn)
    simp only [entries, hnode]
    split_ifs with hfanout
    · refine List.flatMap_congr fun link hlink => ?_
      exact ih (hlinks link hlink ((haccepted.fanout hfanout).1 link hlink)) (by omega)
    · rfl

theorem search_fanout (h : Sound lib store (height + 1) hash type) {n : ℕ} (hn : height < n)
    {node : Node} (hnode : store hash = some node) (hfanout : node.validated.manifest.type = .fanout) :
    search store n hash (segment :: rest) =
      (childFor bytesWithin node.validated.manifest.links segment).bind fun link =>
        search store n link.hash (segment :: rest) := by
  obtain ⟨other, hother, haccepted, -, hlinks, hbounds⟩ := h
  obtain rfl : node = other := Option.some.inj (hnode.symm.trans hother)
  obtain ⟨htrees, hapart⟩ := haccepted.fanout hfanout
  obtain ⟨n, rfl⟩ := Nat.exists_eq_add_of_le' (Nat.one_le_of_lt hn)
  have hbelow : ∀ link ∈ node.validated.manifest.links,
      entries store n link.hash = entries store height link.hash ∧
        entries store (n + 1) link.hash = entries store height link.hash := by
    intro link hlink
    have hsound := hlinks link hlink (htrees link hlink)
    exact ⟨hsound.entries_eq (by omega), hsound.entries_eq (by omega)⟩
  have hflat : entries store (n + 1) hash =
      node.validated.manifest.links.flatMap fun link => entries store height link.hash := by
    simp only [entries, hnode, if_pos hfanout]
    exact List.flatMap_congr fun link hlink => (hbelow link hlink).1
  have hwithin : ∀ link ∈ node.validated.manifest.links, ∃ bounds, boundsOf link = some bounds ∧
      ∀ name ∈ namesOf (entries store height link.hash), bytesWithin bounds name = true := by
    intro link hlink
    obtain ⟨bounds, hof, hbounding⟩ := hbounds hfanout link hlink
    exact ⟨bounds, hof, hbounding.within⟩
  have hnamed := @entryNamed_flatMap _ segment _ hapart hwithin
  rw [search, hflat, hnamed]
  cases hchild : childFor bytesWithin node.validated.manifest.links segment with
  | none => rfl
  | some child =>
    rw [Option.bind_some, Option.bind_some, search, (hbelow child (childFor_eq_some hchild).1).2]

theorem search_directory {n : ℕ} (hn : height < n) {node : Node} (hnode : store hash = some node)
    (hdirectory : node.validated.manifest.type ≠ .fanout) :
    search store n hash (segment :: rest) =
      match entryNamed node.validated.manifest.links segment with
      | none => none
      | some link =>
        if rest = [] then some link
        else if isTree link.type then search store n link.hash rest
        else none := by
  obtain ⟨n, rfl⟩ := Nat.exists_eq_add_of_le' (Nat.one_le_of_lt hn)
  have hentries : entries store (n + 1) hash = node.validated.manifest.links := by
    simp only [entries, hnode, if_neg hdirectory]
  rw [search, hentries]

def walk (within : Bounds → String → Bool) (store : Store) :
    ℕ → List UInt8 → List String → Option ManifestLink
  | 0, _, _ | _, _, [] => none
  | height + 1, hash, segment :: rest =>
    match store hash with
    | none => none
    | some node =>
      if node.validated.manifest.type = .fanout then
        (childFor within node.validated.manifest.links segment).bind fun link =>
          walk within store height link.hash (segment :: rest)
      else
        match entryNamed node.validated.manifest.links segment with
        | none => none
        | some link =>
          if rest = [] then some link
          else if isTree link.type then walk within store height link.hash rest
          else none

theorem childFor_of_search (h : Sound lib store (height + 1) hash type) {n : ℕ} (hn : height < n)
    {node : Node} (hnode : store hash = some node) (hfanout : node.validated.manifest.type = .fanout)
    {child : ManifestLink} (hchild : child ∈ node.validated.manifest.links)
    (hfound : search store n child.hash (segment :: rest) = some link) :
    childFor bytesWithin node.validated.manifest.links segment = some child := by
  obtain ⟨other, hother, haccepted, -, hlinks, hbounds⟩ := h
  obtain rfl : node = other := Option.some.inj (hnode.symm.trans hother)
  obtain ⟨htrees, hapart⟩ := haccepted.fanout hfanout
  obtain ⟨bounds, hof, hbounding⟩ := hbounds hfanout child hchild
  have hname : segment ∈ namesOf (entries store n child.hash) := by
    rw [search] at hfound
    split at hfound
    · cases hfound
    · next entry hentry => exact (entryNamed_eq_some hentry).2
  rw [(hlinks child hchild (htrees child hchild)).entries_eq (by omega)] at hname
  exact childFor_unique hapart hchild hof (hbounding.within segment hname)

theorem search_of_walk {within : Bounds → String → Bool} (h : Sound lib store height hash type) {n : ℕ}
    (hn : height ≤ n) (hwalk : walk within store height hash segments = some link) :
    search store n hash segments = some link := by
  induction height generalizing hash type segments with
  | zero => exact h.elim
  | succ height ih =>
    obtain ⟨node, hnode, haccepted, -, hlinks, -⟩ := id h
    match segments with
    | [] => simp [walk] at hwalk
    | segment :: rest =>
      simp only [walk, hnode] at hwalk
      by_cases hfanout : node.validated.manifest.type = .fanout
      · rw [if_pos hfanout] at hwalk
        obtain ⟨child, hchild, hwalk⟩ := Option.bind_eq_some_iff.mp hwalk
        have hmem := (childFor_eq_some hchild).1
        have hsound := hlinks child hmem ((haccepted.fanout hfanout).1 child hmem)
        have hfound := ih hsound (by omega) hwalk
        rw [search_fanout h hn hnode hfanout, childFor_of_search h hn hnode hfanout hmem hfound]
        exact hfound
      · rw [if_neg hfanout] at hwalk
        rw [search_directory hn hnode hfanout]
        cases hentry : entryNamed node.validated.manifest.links segment with
        | none => simp [hentry] at hwalk
        | some entry =>
          simp only [hentry] at hwalk ⊢
          split_ifs at hwalk ⊢ with hlast htree
          · exact hwalk
          · exact ih (hlinks entry (entryNamed_eq_some hentry).1 htree) (by omega) hwalk

/-- Every fanout on the way of the search has the same link for the segment in both orders. -/
def OrdersAgree (store : Store) : ℕ → List UInt8 → List String → Prop
  | 0, _, _ | _, _, [] => True
  | height + 1, hash, segment :: rest =>
    ∀ node, store hash = some node →
      if node.validated.manifest.type = .fanout then
        childFor unitsWithin node.validated.manifest.links segment =
          childFor bytesWithin node.validated.manifest.links segment ∧
        ∀ link, childFor bytesWithin node.validated.manifest.links segment = some link →
          OrdersAgree store height link.hash (segment :: rest)
      else
        ∀ link, entryNamed node.validated.manifest.links segment = some link → rest ≠ [] →
          OrdersAgree store height link.hash rest

theorem walk_eq_some_iff (h : Sound lib store height hash type) {n : ℕ} (hn : height ≤ n)
    (hsearch : search store n hash segments = some link) :
    walk unitsWithin store height hash segments = some link ↔
      OrdersAgree store height hash segments := by
  induction height generalizing hash type segments with
  | zero => exact h.elim
  | succ height ih =>
    obtain ⟨node, hnode, haccepted, -, hlinks, -⟩ := id h
    match segments with
    | [] => simp [search] at hsearch
    | segment :: rest =>
      have hagree : OrdersAgree store (height + 1) hash (segment :: rest) ↔
          if node.validated.manifest.type = .fanout then
            childFor unitsWithin node.validated.manifest.links segment =
              childFor bytesWithin node.validated.manifest.links segment ∧
            ∀ link, childFor bytesWithin node.validated.manifest.links segment = some link →
              OrdersAgree store height link.hash (segment :: rest)
          else
            ∀ link, entryNamed node.validated.manifest.links segment = some link → rest ≠ [] →
              OrdersAgree store height link.hash rest := by
        simp [OrdersAgree, hnode]
      rw [hagree]
      simp only [walk, hnode]
      by_cases hfanout : node.validated.manifest.type = .fanout
      · rw [search_fanout h hn hnode hfanout] at hsearch
        obtain ⟨child, hchild, hfound⟩ := Option.bind_eq_some_iff.mp hsearch
        have htree : ∀ other ∈ node.validated.manifest.links, Sound lib store height other.hash other.type :=
          fun other hother => hlinks other hother ((haccepted.fanout hfanout).1 other hother)
        have hbelow := ih (htree child (childFor_eq_some hchild).1) (by omega) hfound
        rw [if_pos hfanout, if_pos hfanout, Option.bind_eq_some_iff]
        constructor
        · rintro ⟨other, hother, hwalk⟩
          have hmem := (childFor_eq_some hother).1
          have hsame := childFor_of_search h hn hnode hfanout hmem
            (search_of_walk (htree other hmem) (by omega) hwalk)
          obtain rfl : child = other := Option.some.inj (hchild.symm.trans hsame)
          refine ⟨hother.trans hchild.symm, fun link hlink => ?_⟩
          obtain rfl : child = link := Option.some.inj (hchild.symm.trans hlink)
          exact hbelow.mp hwalk
        · rintro ⟨hsame, hall⟩
          exact ⟨child, hsame.trans hchild, hbelow.mpr (hall child hchild)⟩
      · rw [search_directory hn hnode hfanout] at hsearch
        rw [if_neg hfanout, if_neg hfanout]
        cases hentry : entryNamed node.validated.manifest.links segment with
        | none => simp [hentry] at hsearch
        | some entry =>
          simp only [hentry, Option.some.injEq, forall_eq'] at hsearch ⊢
          split_ifs at hsearch ⊢ with hlast htree
          · simp [hlast, hsearch]
          · have hsound := hlinks entry (entryNamed_eq_some hentry).1 htree
            rw [ih hsound (by omega) hsearch]
            exact ⟨fun h _ => h, fun h => h hlast⟩

end Search

section Limits

/-- The second limits are as large as the first ones. -/
structure TraversalLimits.Within (needed limits : TraversalLimits) : Prop where
  depth : needed.maxDepth ≤ limits.maxDepth
  links : needed.maxLinks ≤ limits.maxLinks
  nodes : needed.maxUniqueNodes ≤ limits.maxUniqueNodes
  decoded : needed.maxDecodedBytes ≤ limits.maxDecodedBytes
  attempts : needed.maxAttempts ≤ limits.maxAttempts
  blob : needed.maxBlobTransferBytes ≤ limits.maxBlobTransferBytes
  transferred : needed.maxTransferredBytes ≤ limits.maxTransferredBytes

def TraversalLimits.sup (a b : TraversalLimits) : TraversalLimits where
  maxDepth := max a.maxDepth b.maxDepth
  maxLinks := max a.maxLinks b.maxLinks
  maxUniqueNodes := max a.maxUniqueNodes b.maxUniqueNodes
  maxDecodedBytes := max a.maxDecodedBytes b.maxDecodedBytes
  maxAttempts := max a.maxAttempts b.maxAttempts
  maxBlobTransferBytes := max a.maxBlobTransferBytes b.maxBlobTransferBytes
  maxTransferredBytes := max a.maxTransferredBytes b.maxTransferredBytes

theorem TraversalLimits.Within.of_sup {a b limits : TraversalLimits} (h : (a.sup b).Within limits) :
    a.Within limits ∧ b.Within limits := by
  obtain ⟨hdepth, hlinks, hnodes, hdecoded, hattempts, hblob, htransferred⟩ := h
  simp only [TraversalLimits.sup, max_le_iff] at *
  exact ⟨⟨hdepth.1, hlinks.1, hnodes.1, hdecoded.1, hattempts.1, hblob.1, htransferred.1⟩,
    ⟨hdepth.2, hlinks.2, hnodes.2, hdecoded.2, hattempts.2, hblob.2, htransferred.2⟩⟩

variable {lib : MessagePack} {store : Store} {height : ℕ} {hash : List UInt8} {type : LinkType}
variable {segments : List String}

theorem manifestOf_eq_ok {node : Node} (hnode : store hash = some node) (budget : RequestBudget) :
    ∃ needed after, ∀ limits, TraversalLimits.Within needed limits →
      manifestOf limits store hash budget = .ok (node.validated.manifest, after) := by
  by_cases hvisited : hash ∈ budget.nodes
  · refine ⟨⟨0, 0, 0, 0, 0, 0, 0⟩, budget, fun limits _ => ?_⟩
    simp [manifestOf, hvisited, hnode]
  · refine ⟨⟨0, 0, budget.nodes.length + 1, budget.decoded + node.validated.decodedBytes,
      budget.attempts + node.attempts, node.transferred, budget.transferred + node.transferred + 1⟩,
      ⟨budget.links, hash :: budget.nodes, budget.decoded + node.validated.decodedBytes,
        budget.attempts + node.attempts, budget.transferred + node.transferred⟩, fun limits h => ?_⟩
    obtain ⟨-, -, hnodes, hdecoded, hattempts, hblob, htransferred⟩ := h
    simp only at hnodes hdecoded hattempts hblob htransferred
    rw [manifestOf, if_neg hvisited, if_neg (by omega), fetchManifest, hnode]
    simp only
    rw [if_neg (by omega), if_neg (by omega), if_neg (by omega)]

theorem descend_succ {limits : TraversalLimits} {path : String} {manifest : Manifest}
    {budget after debited : RequestBudget}
    (hmanifest : manifestOf limits store hash budget = .ok (manifest, after))
    (htype : typeMatches type manifest.type = true)
    (hdebit : debitLinks limits manifest.links.length after = .ok debited) (depth : ℕ) :
    descend limits store path (depth + 1) hash type segments budget =
      match segments with
      | [] => .error (.verifiedAbsent path)
      | segment :: rest =>
        if manifest.type = .fanout then
          match childFor unitsWithin manifest.links segment with
          | none => .error (.verifiedAbsent path)
          | some link => descend limits store path depth link.hash link.type (segment :: rest) debited
        else
          match entryNamed manifest.links segment with
          | none => .error (.verifiedAbsent path)
          | some link =>
            if rest = [] then .ok (link, debited)
            else if isTree link.type then
              descend limits store path depth link.hash link.type rest debited
            else .error (.verifiedAbsent path) := by
  rw [descend, hmanifest]
  simp only [bind, Except.bind, htype, Bool.true_eq_false, if_false, hdebit]

theorem descend_eq_walk (h : Sound lib store height hash type) (path : String)
    (budget : RequestBudget) : ∃ needed, ∀ limits, TraversalLimits.Within needed limits →
      ∀ depth, height ≤ depth →
        (descend limits store path depth hash type segments budget).map Prod.fst =
          match walk unitsWithin store height hash segments with
          | none => .error (.verifiedAbsent path)
          | some link => .ok link := by
  induction height generalizing hash type segments budget with
  | zero => exact h.elim
  | succ height ih =>
    obtain ⟨node, hnode, haccepted, htype, hlinks, -⟩ := h
    obtain ⟨needed, after, hmanifest⟩ := manifestOf_eq_ok hnode budget
    let debited : RequestBudget :=
      { after with links := after.links + node.validated.manifest.links.length }
    -- what the node itself needs, and then its links
    let own : TraversalLimits :=
      needed.sup ⟨0, after.links + node.validated.manifest.links.length, 0, 0, 0, 0, 0⟩
    have hown : ∀ limits, own.Within limits →
        manifestOf limits store hash budget = .ok (node.validated.manifest, after) ∧
          debitLinks limits node.validated.manifest.links.length after = .ok debited := by
      intro limits hlimits
      obtain ⟨hneeded, hrest⟩ := hlimits.of_sup
      refine ⟨hmanifest limits hneeded, ?_⟩
      have hle := hrest.links
      rw [debitLinks, if_neg (by simpa using hle)]
    have hstop {segments : List String} {result : Except ResolveError ManifestLink}
        (hresult : ∀ limits, own.Within limits → ∀ depth,
          (descend limits store path (depth + 1) hash type segments budget).map Prod.fst = result) :
        ∃ needed, ∀ limits, TraversalLimits.Within needed limits → ∀ depth, height + 1 ≤ depth →
          (descend limits store path depth hash type segments budget).map Prod.fst = result := by
      refine ⟨own, fun limits hlimits depth hdepth => ?_⟩
      obtain ⟨depth, rfl⟩ := Nat.exists_eq_add_of_le' (Nat.one_le_of_lt hdepth)
      exact hresult limits hlimits depth
    have hgo {segments below : List String} {link : ManifestLink}
        (hsound : Sound lib store height link.hash link.type)
        (hnext : ∀ limits, own.Within limits → ∀ depth,
          descend limits store path (depth + 1) hash type segments budget =
            descend limits store path depth link.hash link.type below debited) :
        ∃ needed, ∀ limits, TraversalLimits.Within needed limits → ∀ depth, height + 1 ≤ depth →
          (descend limits store path depth hash type segments budget).map Prod.fst =
            match walk unitsWithin store height link.hash below with
            | none => .error (.verifiedAbsent path)
            | some link => .ok link := by
      obtain ⟨later, hlater⟩ : ∃ needed, ∀ limits, TraversalLimits.Within needed limits →
          ∀ depth, height ≤ depth →
            (descend limits store path depth link.hash link.type below debited).map Prod.fst =
              match walk unitsWithin store height link.hash below with
              | none => .error (.verifiedAbsent path)
              | some link => .ok link := ih hsound debited
      refine ⟨own.sup later, fun limits hlimits depth hdepth => ?_⟩
      obtain ⟨hownLimits, hlaterLimits⟩ := hlimits.of_sup
      obtain ⟨depth, rfl⟩ := Nat.exists_eq_add_of_le' (Nat.one_le_of_lt hdepth)
      rw [hnext limits hownLimits depth]
      exact hlater limits hlaterLimits depth (by omega)
    match segments with
    | [] =>
      refine hstop fun limits hlimits depth => ?_
      rw [descend_succ (hown limits hlimits).1 htype (hown limits hlimits).2]
      rfl
    | segment :: rest =>
      simp only [walk, hnode]
      by_cases hfanout : node.validated.manifest.type = .fanout
      · rw [if_pos hfanout]
        cases hchild : childFor unitsWithin node.validated.manifest.links segment with
        | none =>
          refine hstop fun limits hlimits depth => ?_
          rw [descend_succ (hown limits hlimits).1 htype (hown limits hlimits).2]
          simp only [if_pos hfanout, hchild]
          rfl
        | some child =>
          have hmem := (childFor_eq_some hchild).1
          refine hgo (hlinks child hmem ((haccepted.fanout hfanout).1 child hmem)) ?_
          intro limits hlimits depth
          rw [descend_succ (hown limits hlimits).1 htype (hown limits hlimits).2]
          simp only [if_pos hfanout, hchild]
      · rw [if_neg hfanout]
        cases hentry : entryNamed node.validated.manifest.links segment with
        | none =>
          refine hstop fun limits hlimits depth => ?_
          rw [descend_succ (hown limits hlimits).1 htype (hown limits hlimits).2]
          simp only [if_neg hfanout, hentry]
          rfl
        | some entry =>
          by_cases hlast : rest = []
          · refine hstop fun limits hlimits depth => ?_
            rw [descend_succ (hown limits hlimits).1 htype (hown limits hlimits).2]
            simp only [if_neg hfanout, hentry, if_pos hlast]
            rfl
          · by_cases htree : isTree entry.type = true
            · simp only [if_neg hlast, if_pos htree]
              refine hgo (hlinks entry (entryNamed_eq_some hentry).1 htree) ?_
              intro limits hlimits depth
              rw [descend_succ (hown limits hlimits).1 htype (hown limits hlimits).2]
              simp only [if_neg hfanout, hentry, if_neg hlast, if_pos htree]
            · simp only [if_neg hlast, if_neg htree]
              refine hstop fun limits hlimits depth => ?_
              rw [descend_succ (hown limits hlimits).1 htype (hown limits hlimits).2]
              simp only [if_neg hfanout, hentry, if_neg hlast, if_neg htree]
              rfl

theorem locate_eq_walk {root : List UInt8} (h : Sound lib store height root .directory)
    (path : String) : ∃ needed, ∀ limits, TraversalLimits.Within needed limits →
      locate limits store path root =
        match walk unitsWithin store height root (segmentsOf path) with
        | none => .error (.verifiedAbsent path)
        | some link => .ok link := by
  obtain ⟨needed, hneeded⟩ := @descend_eq_walk _ _ _ _ _ (segmentsOf path) h path .initial
  refine ⟨needed.sup ⟨height, 0, 0, 0, 0, 0, 0⟩, fun limits hlimits => ?_⟩
  obtain ⟨hlimits, hdepth⟩ := hlimits.of_sup
  rw [locate]
  split_ifs with hempty
  · rw [hempty]
    cases height <;> rfl
  · exact hneeded limits hlimits _ hdepth.depth

theorem serveLink_present {α : Type} (serve : ManifestLink → Except String α) (link : ManifestLink)
    (path : String) : serveLink serve link ≠ .error (.verifiedAbsent path) := by
  unfold serveLink
  split_ifs
  · simp
  · split <;> simp

/-- Under limits that are large enough, the resolver serves in a sound tree the link that the linear
search finds, and reports an absence exactly where there is none, if and only if there is none or the
orders agree on the way. -/
theorem fanout_lookup {α : Type} (serve : ManifestLink → Except String α) (height : ℕ)
    (root : List UInt8) (h : Sound lib store height root .directory) (path : String) :
    ∃ needed, ∀ limits, TraversalLimits.Within needed limits →
      (((∀ link, search store height root (segmentsOf path) = some link →
          resolve limits store path serve root = serveLink serve link) ∧
        (resolve limits store path serve root = .error (.verifiedAbsent path) ↔
          search store height root (segmentsOf path) = none)) ↔
      (search store height root (segmentsOf path) = none ∨
        OrdersAgree store height root (segmentsOf path))) := by
  obtain ⟨needed, hneeded⟩ := locate_eq_walk h path
  refine ⟨needed, fun limits hlimits => ?_⟩
  have hresolve : resolve limits store path serve root =
      match walk unitsWithin store height root (segmentsOf path) with
      | none => .error (.verifiedAbsent path)
      | some link => serveLink serve link := by
    rw [resolve, hneeded limits hlimits]
    cases walk unitsWithin store height root (segmentsOf path) <;> rfl
  rw [hresolve]
  cases hsearch : search store height root (segmentsOf path) with
  | none =>
    have hwalk : walk unitsWithin store height root (segmentsOf path) = none := by
      by_contra hsome
      obtain ⟨link, hlink⟩ := Option.ne_none_iff_exists'.mp hsome
      simpa [hsearch] using search_of_walk h le_rfl hlink
    simp [hwalk]
  | some link =>
    rw [← walk_eq_some_iff h le_rfl hsearch]
    cases hwalk : walk unitsWithin store height root (segmentsOf path) with
    | none => simp
    | some found =>
      have hfound := search_of_walk h le_rfl hwalk
      obtain rfl : link = found := Option.some.inj (hsearch.symm.trans hfound)
      simp [serveLink_present]

end Limits

section Sample

def sampleHash (n : ℕ) : List UInt8 :=
  List.replicate 32 (UInt8.ofNat n)

def sampleRoot : Manifest :=
  ⟨.directory, [⟨sampleHash 2, none, none, some "d", 0, .fanout⟩]⟩

def sampleFanout (first last : String) : Manifest :=
  ⟨.fanout, [⟨sampleHash 3, none,
    some [("count", .number (.integer 2)), ("first", .text first), ("last", .text last)], none, 0,
    .directory⟩]⟩

def sampleFiles (first last : String) : Manifest :=
  ⟨.directory, [⟨sampleHash 4, none, none, some first, 1, .blob⟩,
    ⟨sampleHash 5, none, none, some last, 1, .blob⟩]⟩

def sampleNode (manifest : Manifest) : Node :=
  ⟨⟨manifest, decodedCost (manifestValue manifest)⟩, 1, 100⟩

def sampleWire (manifest : Manifest) : List UInt8 :=
  (pack (manifestValue manifest)).toOption.getD []

/-- A directory `d` behind a fanout with one link, with two files. -/
def sampleStore (first last : String) : Store := fun hash =>
  if hash = sampleHash 1 then some (sampleNode sampleRoot)
  else if hash = sampleHash 2 then some (sampleNode (sampleFanout first last))
  else if hash = sampleHash 3 then some (sampleNode (sampleFiles first last))
  else none

def halfwidth : String := String.ofList [Char.ofNat 0xff61]

def emoji : String := String.ofList [Char.ofNat 0x1f600]

section

set_option maxRecDepth 4000

theorem sampleRoot_accepted : Accepted smallMessagePack (sampleNode sampleRoot).validated :=
  ⟨sampleWire sampleRoot, sampleLimits, rfl⟩

theorem sampleFanout_accepted :
    Accepted smallMessagePack (sampleNode (sampleFanout "a" "b")).validated ∧
      Accepted smallMessagePack (sampleNode (sampleFanout halfwidth emoji)).validated :=
  ⟨⟨sampleWire (sampleFanout "a" "b"), sampleLimits, rfl⟩,
    ⟨sampleWire (sampleFanout halfwidth emoji), sampleLimits, rfl⟩⟩

theorem sampleFiles_accepted :
    Accepted smallMessagePack (sampleNode (sampleFiles "a" "b")).validated ∧
      Accepted smallMessagePack (sampleNode (sampleFiles halfwidth emoji)).validated :=
  ⟨⟨sampleWire (sampleFiles "a" "b"), sampleLimits, rfl⟩,
    ⟨sampleWire (sampleFiles halfwidth emoji), sampleLimits, rfl⟩⟩

end

theorem sampleStore_sound {first last : String}
    (hfanout : Accepted smallMessagePack (sampleNode (sampleFanout first last)).validated)
    (hfiles : Accepted smallMessagePack (sampleNode (sampleFiles first last)).validated)
    (hordered : utf8 first ≤ utf8 last) :
    Sound smallMessagePack (sampleStore first last) 3 (sampleHash 1) .directory := by
  have hdirectory : Sound smallMessagePack (sampleStore first last) 1 (sampleHash 3) .directory := by
    refine ⟨sampleNode (sampleFiles first last), rfl, hfiles, rfl, ?_, ?_⟩
    · intro link hlink htree
      simp only [sampleNode, sampleFiles, List.mem_cons, List.not_mem_nil, or_false] at hlink
      rcases hlink with rfl | rfl <;> cases htree
    · intro h
      cases h
  have hbelow : Sound smallMessagePack (sampleStore first last) 2 (sampleHash 2) .fanout := by
    refine ⟨sampleNode (sampleFanout first last), rfl, hfanout, rfl, ?_, ?_⟩
    · intro link hlink _
      obtain rfl := List.mem_singleton.mp hlink
      exact hdirectory
    · intro _ link hlink
      obtain rfl := List.mem_singleton.mp hlink
      have hnames : namesOf (entries (sampleStore first last) 1 (sampleHash 3)) = [first, last] := rfl
      refine ⟨⟨first, last⟩, rfl, ?_⟩
      rw [hnames]
      refine ⟨by simp, by simp, fun name hname => ?_, fun name hname => ?_⟩
      · rcases List.mem_pair.mp hname with rfl | rfl
        · exact List.le_refl _
        · exact hordered
      · rcases List.mem_pair.mp hname with rfl | rfl
        · exact hordered
        · exact List.le_refl _
  refine ⟨sampleNode sampleRoot, rfl, sampleRoot_accepted, rfl, ?_, ?_⟩
  · intro link hlink _
    obtain rfl := List.mem_singleton.mp hlink
    exact hbelow
  · intro h
    cases h

theorem fanout_lookup_of_file : ∃ needed, ∀ limits, TraversalLimits.Within needed limits →
    resolve limits (sampleStore "a" "b") "d/a" (fun link => .ok link.hash) (sampleHash 1) =
      .ok (sampleHash 4) := by
  have hsound := sampleStore_sound sampleFanout_accepted.1 sampleFiles_accepted.1 (by decide +kernel)
  have hfound : ∃ link, search (sampleStore "a" "b") 3 (sampleHash 1) (segmentsOf "d/a") = some link ∧
      walk unitsWithin (sampleStore "a" "b") 3 (sampleHash 1) (segmentsOf "d/a") = some link ∧
      link.hash = sampleHash 4 ∧ link.type = .blob := ⟨_, rfl, rfl, rfl, rfl⟩
  obtain ⟨link, hlink, hwalk, hhash, htype⟩ := hfound
  have hagree : OrdersAgree (sampleStore "a" "b") 3 (sampleHash 1) (segmentsOf "d/a") :=
    (walk_eq_some_iff hsound le_rfl hlink).mp hwalk
  obtain ⟨needed, hneeded⟩ := fanout_lookup (fun link => .ok link.hash) 3 (sampleHash 1) hsound "d/a"
  refine ⟨needed, fun limits hlimits => ?_⟩
  rw [((hneeded limits hlimits).mpr (.inr hagree)).1 link hlink, serveLink, htype, hhash]
  rfl

/-- The file is there, and the resolver reports under all large limits that it is absent. -/
theorem fanout_hides_file : ∃ lib store height root path,
    Sound lib store height root .directory ∧
      (∃ link, search store height root (segmentsOf path) = some link) ∧
      ∃ needed, ∀ limits, TraversalLimits.Within needed limits →
        ∀ serve : ManifestLink → Except String Unit,
          resolve limits store path serve root = .error (.verifiedAbsent path) := by
  have hsound := sampleStore_sound sampleFanout_accepted.2 sampleFiles_accepted.2 (by decide +kernel)
  have hfound : (search (sampleStore halfwidth emoji) 3 (sampleHash 1)
      (segmentsOf ("d/" ++ halfwidth))).isSome = true := by decide +kernel
  have hwalk : walk unitsWithin (sampleStore halfwidth emoji) 3 (sampleHash 1)
      (segmentsOf ("d/" ++ halfwidth)) = none := by decide +kernel
  obtain ⟨needed, hneeded⟩ := locate_eq_walk hsound ("d/" ++ halfwidth)
  refine ⟨_, _, _, _, _, hsound, Option.isSome_iff_exists.mp hfound, needed, fun limits hlimits serve => ?_⟩
  rw [resolve, hneeded limits hlimits, hwalk]
  rfl

end Sample

end NixstrCache.Hashtree

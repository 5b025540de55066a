import NixstrCache.Lib.Programs
import NixstrCache.Protocol.ManifestCodec

/-!
The collapse of a long list of links into a tree of manifests.

While there are more links than a manifest may have, the writer groups them, writes a manifest for each
group and goes on with the links to these manifests.  `written` lists the manifests that a collapse has
written; the program never reads it.
-/

namespace NixstrCache.Hashtree.Writer

open Protocol Programs

inductive LinkListKind where
  | file
  | directory
deriving DecidableEq, Repr

inductive WriterError where
  | rangeError (message : String)
  | error (message : String)
  | store (cause : String)
  | library (cause : String)
  /-- The loop has not come to its end. -/
  | unfinished
deriving DecidableEq, Repr

structure WriterLimits where
  maxLinks : ℕ
  maxInventoryBlobs : ℕ
  maxInventoryBytes : ℕ

structure WriterState where
  /-- The blobs of the candidate. -/
  inventory : List (List UInt8)
  written : List Manifest

abbrev Program (α : Type) :=
  EStateM WriterError WriterState α

structure Built where
  hash : List UInt8
  logicalSize : ℕ
  type : LinkType
  count : ℕ
  first : Option String
  last : Option String

/-- What the writer is built on: the codec, the digest, and whether the blob store takes a blob. -/
structure Platform where
  lib : MessagePack
  digest : List UInt8 → List UInt8
  admission : List UInt8 → Except String Unit

variable (p : Platform) (limits : WriterLimits)

section Model

def persist (bytes : List UInt8) : Program (List UInt8) := do
  let s ← get
  match s.inventory.find? fun blob => p.digest blob = p.digest bytes with
  | some existing =>
    if existing.length = bytes.length then pure (p.digest bytes)
    else throw (.error "candidate blob identity changed")
  | none =>
    if limits.maxInventoryBlobs < s.inventory.length + 1 ∨
        limits.maxInventoryBytes < (s.inventory.map List.length).sum + bytes.length then
      throw (.rangeError "candidate inventory ceiling exceeded")
    else
      match p.admission bytes with
      | .error cause => throw (.store cause)
      | .ok () => do
        set { s with inventory := s.inventory ++ [bytes] }
        pure (p.digest bytes)

def writeManifest (manifest : Manifest) : Program (List UInt8) := do
  match encodeManifest p.lib manifest with
  | .error cause => throw (.library cause)
  | .ok bytes => do
    let hash ← persist p limits bytes
    modify fun s => { s with written := s.written ++ [manifest] }
    pure hash

/-- The loop of `logicalSize` from the given total. -/
def logicalSizeFrom : ℕ → List ManifestLink → Program ℕ
  | total, [] => pure total
  | total, link :: links =>
    if total + link.size ≤ 9007199254740991 then logicalSizeFrom (total + link.size) links
    else throw (.rangeError "logical size is not a safe integer")

def logicalSize (links : List ManifestLink) : Program ℕ :=
  logicalSizeFrom 0 links

def storedLink (link : ManifestLink) : ManifestLink :=
  { link with key := none }

def manifestKind (kind : LinkListKind) (level : ℕ) : ManifestType :=
  match kind with
  | .file => .file
  | .directory => if level = 0 then .directory else .fanout

/-- `metadata?.[key]`. -/
def metadataField (key : String) (link : ManifestLink) : Option Value :=
  link.metadata.bind fun metadata => metadata.lookup key

/-- `Number(metadata?.count ?? 1)`. -/
def linkCount (link : ManifestLink) : ℕ :=
  match metadataField "count" link with
  | some (.number (.integer n)) => n.toNat
  | _ => 1

def linkBound (key : String) (link : ManifestLink) : Option Value :=
  (metadataField key link).or (link.name.map .text)

def linksCount (links : List ManifestLink) : ℕ :=
  (links.map linkCount).sum

def firstOf (links : List ManifestLink) : Option Value :=
  links.head?.bind (linkBound "first")

def lastOf (links : List ManifestLink) : Option Value :=
  links.getLast?.bind (linkBound "last")

/-- The metadata of the link to a group; a field without a value is not stored. -/
def groupMetadata (links : List ManifestLink) : List (String × Value) :=
  ("count", .number (.integer (linksCount links))) ::
    ((firstOf links).map fun first => ("first", first)).toList ++
    ((lastOf links).map fun last => ("last", last)).toList

def groupType (kind : LinkListKind) (level : ℕ) : LinkType :=
  match kind with
  | .file => .file
  | .directory => if manifestKind kind level = .directory then .directory else .fanout

/-- `flushGroup`: the link to a group once its manifest is written. -/
def flushGroup (kind : LinkListKind) (level : ℕ) (links : List ManifestLink) :
    Program ManifestLink := do
  let hash ← writeManifest p limits ⟨manifestKind kind level, links⟩
  let representedBytes ← logicalSize links
  pure (storedLink
    ⟨hash, none, if kind = .file then none else some (groupMetadata links), none, representedBytes,
      groupType kind level⟩)

/-- The loop over the rows of a level, with the group that is being filled. -/
def collapseLevel (kind : LinkListKind) (level : ℕ) :
    List ManifestLink → List ManifestLink → Program (List ManifestLink)
  | group, [] =>
    if group.isEmpty then pure []
    else do
      let link ← flushGroup p limits kind level group
      pure [link]
  | group, row :: rows =>
    if (group ++ [row]).length < limits.maxLinks then collapseLevel kind level (group ++ [row]) rows
    else do
      let link ← flushGroup p limits kind level (group ++ [row])
      let links ← collapseLevel kind level [] rows
      pure (link :: links)

/-- `String(value ?? "")` of a text. -/
def boundText : Option Value → String
  | some (.text s) => s
  | _ => ""

def finishCollapse (kind : LinkListKind) (level : ℕ) (links : List ManifestLink) :
    Program Built := do
  let hash ← writeManifest p limits ⟨manifestKind kind level, links⟩
  let size ← logicalSize links
  pure
    { hash := hash
      logicalSize := size
      type := groupType kind level
      count := if kind = .file then 1 else linksCount links
      first := if kind = .file then none else some (boundText (firstOf links))
      last := if kind = .file then none else some (boundText (lastOf links)) }

def collapseFrom (kind : LinkListKind) : ℕ → ℕ → List ManifestLink → Program Built
  | 0, _, _ => throw .unfinished
  | fuel + 1, level, links =>
    if links.length ≤ limits.maxLinks then finishCollapse p limits kind level links
    else do
      let next ← collapseLevel p limits kind level [] links
      collapseFrom kind fuel (level + 1) next

/-- `collapse` of the links that have been put into the work list. -/
def collapse (kind : LinkListKind) (links : List ManifestLink) : Program Built :=
  collapseFrom p limits kind (links.length + 1) 0 (links.map storedLink)

/-- The manifest under a hash, as a reader decodes it. -/
def storedManifest (readLimits : ManifestLimits) (inventory : List (List UInt8))
    (hash : List UInt8) : Option Manifest :=
  (inventory.find? fun blob => p.digest blob = hash).bind fun blob =>
    (decodeManifest p.lib blob readLimits).toOption

/-- An entry of a directory or a blob of a file, not a further manifest of the tree. -/
def isEntry (type : ManifestType) (link : ManifestLink) : Bool :=
  type = .directory ∨ type = .file ∧ link.type = .blob

/-- The entries of a tree from left to right. -/
def readTree (readLimits : ManifestLimits) (inventory : List (List UInt8)) :
    ℕ → Manifest → Option (List ManifestLink)
  | 0, _ => none
  | fuel + 1, manifest =>
    (manifest.links.mapM fun link =>
      if isEntry manifest.type link then some [link]
      else (storedManifest p readLimits inventory link.hash).bind
        (readTree readLimits inventory fuel)).map List.flatten

end Model

section Trees

variable {kind : LinkListKind} {level : ℕ} {link : ManifestLink}
variable {links part entries : List ManifestLink} {parts : List (List ManifestLink)}
variable {written later : List Manifest}

def nameOf (link : ManifestLink) : String :=
  link.name.getD ""

/-- The links that the writer puts into a work list. -/
structure Entries (kind : LinkListKind) (entries : List ManifestLink) : Prop where
  hash : ∀ link ∈ entries, link.hash.length = 32
  plain : ∀ link ∈ entries, link.key = none ∧ link.metadata = none
  size : (entries.map ManifestLink.size).sum ≤ 9007199254740991
  count : entries.length ≤ 9007199254740991
  file : kind = .file → ∀ link ∈ entries, link.name = none ∧ link.type = .blob
  named : kind = .directory → ∀ link ∈ entries, ∃ name, link.name = some name ∧
    unsafeName name = false
  sorted : kind = .directory → entries.Pairwise fun a b => byteLess (nameOf a) (nameOf b)

/-- What a link to a group says of the entries below it. -/
structure Represents (kind : LinkListKind) (level : ℕ) (link : ManifestLink)
    (part : List ManifestLink) : Prop where
  filled : part ≠ []
  key : link.key = none
  name : link.name = none
  size : link.size = (part.map ManifestLink.size).sum
  type : link.type = groupType kind level
  bare : kind = .file → link.metadata = none
  bounds : kind = .directory → ∃ first ∈ part.head?, ∃ last ∈ part.getLast?,
    link.metadata = some [("count", .number (.integer part.length)), ("first", .text (nameOf first)),
      ("last", .text (nameOf last))]

/-- A link of a level of the work list holds a part of the entries. -/
def Holds (kind : LinkListKind) (written : List Manifest) :
    ℕ → ManifestLink → List ManifestLink → Prop
  | 0, link, part => part = [link]
  | level + 1, link, part => ∃ manifest ∈ written, ∃ wire parts,
      encodeManifest p.lib manifest = .ok wire ∧ link.hash = p.digest wire ∧
      manifest.type = manifestKind kind level ∧
      List.Forall₂ (Holds kind written level) manifest.links parts ∧ part = parts.flatten ∧
      Represents kind level link part

variable {p}

theorem Holds.mono (hsub : written ⊆ later) {level : ℕ} {link : ManifestLink}
    {part : List ManifestLink} (h : Holds p kind written level link part) :
    Holds p kind later level link part := by
  induction level generalizing link part with
  | zero => exact h
  | succ level ih =>
    obtain ⟨manifest, hmem, wire, parts, hwire, hhash, htype, hlinks, hpart, hrepresents⟩ := h
    exact ⟨manifest, hsub hmem, wire, parts, hwire, hhash, htype, hlinks.imp fun _ _ => ih, hpart,
      hrepresents⟩

theorem Entries.of_infix (h : Entries kind entries) (hpart : part <:+: entries) : Entries kind part where
  hash link hlink := h.hash link (hpart.subset hlink)
  plain link hlink := h.plain link (hpart.subset hlink)
  size := by
    obtain ⟨before, after, rfl⟩ := hpart
    have hsize := h.size
    simp only [List.map_append, List.sum_append] at hsize
    omega
  count := hpart.length_le.trans h.count
  file hkind link hlink := h.file hkind link (hpart.subset hlink)
  named hkind link hlink := h.named hkind link (hpart.subset hlink)
  sorted hkind := (h.sorted hkind).sublist hpart.sublist

/-- What the writer reads off a link, whatever its level. -/
structure Summed (kind : LinkListKind) (link : ManifestLink) (part : List ManifestLink) : Prop where
  filled : part ≠ []
  size : link.size = (part.map ManifestLink.size).sum
  count : kind = .directory → linkCount link = part.length
  first : kind = .directory → ∃ first ∈ part.head?, linkBound "first" link = some (.text (nameOf first))
  last : kind = .directory → ∃ last ∈ part.getLast?, linkBound "last" link = some (.text (nameOf last))

theorem Holds.summed (h : Holds p kind written level link part) (hpart : Entries kind part) :
    Summed kind link part := by
  cases level with
  | zero =>
    obtain rfl : part = [link] := h
    have hplain := (hpart.plain link (by simp)).2
    have hbound (hkind : kind = .directory) (key : String) :
        linkBound key link = some (.text (nameOf link)) := by
      obtain ⟨name, hname, -⟩ := hpart.named hkind link (by simp)
      simp [linkBound, metadataField, hplain, hname, nameOf]
    refine ⟨by simp, by simp, fun _ => ?_, fun hkind => ⟨link, rfl, hbound hkind _⟩,
      fun hkind => ⟨link, rfl, hbound hkind _⟩⟩
    simp [linkCount, metadataField, hplain]
  | succ level =>
    obtain ⟨manifest, -, wire, parts, -, -, -, -, -, hrepresents⟩ := h
    refine ⟨hrepresents.filled, hrepresents.size, fun hkind => ?_, fun hkind => ?_, fun hkind => ?_⟩
    all_goals obtain ⟨first, hfirst, last, hlast, hmetadata⟩ := hrepresents.bounds hkind
    · simp [linkCount, metadataField, hmetadata]
    · exact ⟨first, hfirst, by simp [linkBound, metadataField, hmetadata, List.lookup_cons]⟩
    · exact ⟨last, hlast, by simp [linkBound, metadataField, hmetadata, List.lookup_cons]⟩

theorem sizes_summed (h : List.Forall₂ (Summed kind) links parts) :
    (links.map ManifestLink.size).sum = (parts.flatten.map ManifestLink.size).sum := by
  induction h with
  | nil => rfl
  | cons hlink _ ih => simp [hlink.size, ih]

theorem linksCount_summed (hkind : kind = .directory) (h : List.Forall₂ (Summed kind) links parts) :
    linksCount links = parts.flatten.length := by
  induction h with
  | nil => rfl
  | cons hlink _ ih =>
    rw [linksCount, List.map_cons, List.sum_cons, hlink.count hkind, ← linksCount, ih]
    simp

theorem firstOf_summed (hkind : kind = .directory) (h : List.Forall₂ (Summed kind) links parts)
    (hlinks : links ≠ []) :
    ∃ first ∈ parts.flatten.head?, firstOf links = some (.text (nameOf first)) := by
  cases h with
  | nil => exact absurd rfl hlinks
  | @cons link part links parts hlink hrest =>
    obtain ⟨first, hfirst, hbound⟩ := hlink.first hkind
    refine ⟨first, ?_, hbound⟩
    rw [List.flatten_cons, List.head?_append_of_ne_nil _ hlink.filled]
    exact hfirst

theorem lastOf_summed (hkind : kind = .directory) (h : List.Forall₂ (Summed kind) links parts)
    (hlinks : links ≠ []) :
    ∃ last ∈ parts.flatten.getLast?, lastOf links = some (.text (nameOf last)) := by
  induction h with
  | nil => exact absurd rfl hlinks
  | @cons link part links parts hlink hrest ih =>
    cases hrest with
    | nil => simpa [lastOf] using hlink.last hkind
    | @cons next nextPart rest restParts hnext hrest =>
      obtain ⟨last, hlast, hbound⟩ := ih (List.cons_ne_nil next rest)
      refine ⟨last, ?_, by simpa [lastOf] using hbound⟩
      rw [List.flatten_cons, List.getLast?_append, Option.mem_def.mp hlast]
      rfl

end Trees

section Writing

variable {p : Platform} {limits : WriterLimits} {kind : LinkListKind} {level : ℕ}
variable {links entries group rows : List ManifestLink}
variable {parts groupParts rowParts : List (List ManifestLink)}
variable {s t : WriterState} {manifest : Manifest}

/-- Why a blob is not taken into a candidate: another one has its digest, there is no room for it, or the
store refuses it. -/
inductive Refused (p : Platform) (limits : WriterLimits) (s : WriterState) (bytes : List UInt8) :
    WriterError → Prop
  | identity {existing : List UInt8} (hmem : existing ∈ s.inventory)
      (hdigest : p.digest existing = p.digest bytes) (hlength : existing.length ≠ bytes.length) :
      Refused p limits s bytes (.error "candidate blob identity changed")
  | ceiling (hfull : limits.maxInventoryBlobs < s.inventory.length + 1 ∨
        limits.maxInventoryBytes < (s.inventory.map List.length).sum + bytes.length) :
      Refused p limits s bytes (.rangeError "candidate inventory ceiling exceeded")
  | store {cause : String} (hadmission : p.admission bytes = .error cause) :
      Refused p limits s bytes (.store cause)

/-- Why a manifest is not written: the codec refuses it, or its bytes are not taken. -/
inductive Unwritten (p : Platform) (limits : WriterLimits) (s : WriterState) (manifest : Manifest) :
    WriterError → Prop
  | library {cause : String} (hwire : encodeManifest p.lib manifest = .error cause) :
      Unwritten p limits s manifest (.library cause)
  | refused {bytes : List UInt8} {e : WriterError} (hwire : encodeManifest p.lib manifest = .ok bytes)
      (hrefused : Refused p limits s bytes e) : Unwritten p limits s manifest e

def Placed (p : Platform) (limits : WriterLimits) (kind : LinkListKind)
    (entries : List ManifestLink) (written : List Manifest) (manifest : Manifest) : Prop :=
  ∃ level parts, manifest.type = manifestKind kind level ∧
    manifest.links.length ≤ limits.maxLinks ∧
    List.Forall₂ (Holds p kind written level) manifest.links parts ∧ parts.flatten <:+: entries

/-- A collapse fails at a manifest of its tree that is not written. -/
def Stuck (p : Platform) (limits : WriterLimits) (kind : LinkListKind) (entries : List ManifestLink)
    (t : WriterState) (e : WriterError) : Prop :=
  ∃ manifest, Placed p limits kind entries t.written manifest ∧ Unwritten p limits t manifest e

/-- Every manifest that has been written is stored and has its place in the tree. -/
structure Wrote (p : Platform) (limits : WriterLimits) (kind : LinkListKind)
    (entries : List ManifestLink) (s : WriterState) : Prop where
  stored : ∀ manifest ∈ s.written, ∃ wire, encodeManifest p.lib manifest = .ok wire ∧
    ∃ blob ∈ s.inventory, p.digest blob = p.digest wire
  placed : ∀ manifest ∈ s.written, Placed p limits kind entries s.written manifest

theorem Placed.mono {written later : List Manifest} (hsub : written ⊆ later)
    (h : Placed p limits kind entries written manifest) :
    Placed p limits kind entries later manifest := by
  obtain ⟨level, parts, htype, hcount, hlinks, hpart⟩ := h
  exact ⟨level, parts, htype, hcount, hlinks.imp fun _ _ => Holds.mono hsub, hpart⟩

theorem persist_meets (bytes : List UInt8) :
    Meets (persist p limits bytes) s
      (fun hash t => hash = p.digest bytes ∧ t.written = s.written ∧ s.inventory ⊆ t.inventory ∧
        ∃ blob ∈ t.inventory, p.digest blob = p.digest bytes)
      (fun e t => Refused p limits s bytes e ∧ t = s) := by
  unfold persist
  apply Meets.bind
  change Meets (match s.inventory.find? fun blob => decide (p.digest blob = p.digest bytes) with
    | some _ => _
    | none => _) s _ _
  cases hfound : s.inventory.find? fun blob => decide (p.digest blob = p.digest bytes) with
  | some existing =>
    have hmem : existing ∈ s.inventory := List.mem_of_find?_eq_some hfound
    have hdigest : p.digest existing = p.digest bytes := by simpa using List.find?_some hfound
    dsimp only
    split_ifs with hlength
    · exact ⟨rfl, rfl, List.Subset.refl _, existing, hmem, hdigest⟩
    · exact ⟨.identity hmem hdigest hlength, rfl⟩
  | none =>
    dsimp only
    split_ifs with hfull
    · exact ⟨.ceiling hfull, rfl⟩
    · cases hadmission : p.admission bytes with
      | error cause => exact ⟨.store hadmission, rfl⟩
      | ok _ => exact ⟨rfl, rfl, List.subset_append_left _ _, bytes, by simp, rfl⟩

theorem writeManifest_meets (hs : Wrote p limits kind entries s)
    (hmanifest : Placed p limits kind entries s.written manifest) :
    Meets (writeManifest p limits manifest) s
      (fun hash t => Wrote p limits kind entries t ∧ s.written ⊆ t.written ∧ manifest ∈ t.written ∧
        ∃ wire, encodeManifest p.lib manifest = .ok wire ∧ hash = p.digest wire)
      (fun e t => Stuck p limits kind entries t e ∧ Wrote p limits kind entries t) := by
  unfold writeManifest
  cases hwire : encodeManifest p.lib manifest with
  | error cause => exact ⟨⟨manifest, hmanifest, .library hwire⟩, hs⟩
  | ok bytes =>
    apply Meets.bind
    have hpersist : Meets (persist p limits bytes) s _ _ := persist_meets bytes
    refine hpersist.mono ?_ ?_
    · rintro hash t ⟨hhash, hwritten, hinventory, hblob⟩
      have hsub : s.written ⊆ t.written ++ [manifest] := by simp [hwritten]
      refine ⟨⟨?_, ?_⟩, hsub, by simp, bytes, rfl, hhash⟩
      · intro other hother
        rcases List.mem_append.mp hother with hold | hnew
        · obtain ⟨wire, hencoded, blob, hmem, hdigest⟩ := hs.stored other (hwritten ▸ hold)
          exact ⟨wire, hencoded, blob, hinventory hmem, hdigest⟩
        · obtain rfl := List.mem_singleton.mp hnew
          exact ⟨bytes, hwire, hblob⟩
      · intro other hother
        rcases List.mem_append.mp hother with hold | hnew
        · exact (hs.placed other (hwritten ▸ hold)).mono hsub
        · obtain rfl := List.mem_singleton.mp hnew
          exact hmanifest.mono hsub
    · rintro e t ⟨he, rfl⟩
      exact ⟨⟨manifest, hmanifest, .refused hwire he⟩, hs⟩

theorem logicalSizeFrom_eq (total : ℕ)
    (hsize : total + (links.map ManifestLink.size).sum ≤ 9007199254740991) :
    logicalSizeFrom total links s = .ok (total + (links.map ManifestLink.size).sum) s := by
  induction links generalizing total with
  | nil => rfl
  | cons link links ih =>
    rw [List.map_cons, List.sum_cons] at hsize
    rw [logicalSizeFrom, if_pos (by omega), ih _ (by omega), List.map_cons, List.sum_cons, Nat.add_assoc]

/-- The links of a level with their parts, which are consecutive parts of the entries. -/
structure Level (p : Platform) (kind : LinkListKind) (entries : List ManifestLink)
    (written : List Manifest) (level : ℕ) (links : List ManifestLink)
    (parts : List (List ManifestLink)) : Prop where
  lawful : Entries kind entries
  holds : List.Forall₂ (Holds p kind written level) links parts
  whole : parts.flatten <:+: entries

theorem Level.summed {written : List Manifest} (h : Level p kind entries written level links parts) :
    List.Forall₂ (Summed kind) links parts := by
  obtain ⟨hentries, hholds, hparts⟩ := h
  induction hholds with
  | nil => exact .nil
  | @cons link part links parts hlink hrest ih =>
    have hpart : part <:+: entries := (List.infix_append' [] part parts.flatten).trans (by simpa using hparts)
    have hflat : parts.flatten <:+: entries := (List.suffix_append part parts.flatten).isInfix.trans hparts
    exact .cons (hlink.summed (hentries.of_infix hpart)) (ih hflat)

theorem Level.split {written : List Manifest} {front back : List ManifestLink}
    (h : Level p kind entries written level (front ++ back) parts) :
    ∃ frontParts backParts, parts = frontParts ++ backParts ∧
      Level p kind entries written level front frontParts ∧
      Level p kind entries written level back backParts := by
  obtain ⟨hlawful, hholds, hwhole⟩ := h
  have hfront := List.forall₂_take_append parts front back hholds.flip
  have hback := List.forall₂_drop_append parts front back hholds.flip
  have hparts := List.take_append_drop front.length parts
  have hflat : (parts.take front.length).flatten ++ (parts.drop front.length).flatten <:+: entries := by
    rwa [← List.flatten_append, hparts]
  exact ⟨_, _, hparts.symm, ⟨hlawful, hfront.flip, (List.prefix_append _ _).isInfix.trans hflat⟩,
    ⟨hlawful, hback.flip, (List.suffix_append _ _).isInfix.trans hflat⟩⟩

theorem Level.represents {written : List Manifest}
    (h : Level p kind entries written level links parts) (hlinks : links ≠ []) (hash : List UInt8) :
    Represents kind level
      (storedLink ⟨hash, none, if kind = .file then none else some (groupMetadata links), none,
        (links.map ManifestLink.size).sum, groupType kind level⟩) parts.flatten := by
  have hsummed := h.summed
  refine ⟨?_, rfl, rfl, sizes_summed hsummed, rfl, fun hkind => if_pos hkind, fun hkind => ?_⟩
  · cases hsummed with
    | nil => exact absurd rfl hlinks
    | cons hlink _ => simp [hlink.filled]
  · obtain ⟨first, hfirst, hfirstOf⟩ := firstOf_summed hkind hsummed hlinks
    obtain ⟨last, hlast, hlastOf⟩ := lastOf_summed hkind hsummed hlinks
    refine ⟨first, hfirst, last, hlast, ?_⟩
    simp [storedLink, hkind, groupMetadata, hfirstOf, hlastOf, linksCount_summed hkind hsummed]

theorem flushGroup_meets (hs : Wrote p limits kind entries s)
    (hlevel : Level p kind entries s.written level links parts) (hlinks : links ≠ [])
    (hcount : links.length ≤ limits.maxLinks) :
    Meets (flushGroup p limits kind level links) s
      (fun link t => Wrote p limits kind entries t ∧ s.written ⊆ t.written ∧
        Holds p kind t.written (level + 1) link parts.flatten)
      (fun e t => Stuck p limits kind entries t e ∧ Wrote p limits kind entries t) := by
  unfold flushGroup
  refine (writeManifest_meets hs ⟨level, parts, rfl, hcount, hlevel.holds, hlevel.whole⟩).andThen ?_
  rintro hash t ⟨ht, hsub, hmem, wire, hwire, rfl⟩
  have hsize : 0 + (links.map ManifestLink.size).sum ≤ 9007199254740991 := by
    rw [Nat.zero_add, sizes_summed hlevel.summed]
    exact (hlevel.lawful.of_infix hlevel.whole).size
  apply Meets.bind
  rw [Meets, logicalSize, logicalSizeFrom_eq 0 hsize]
  refine ⟨ht, hsub, _, hmem, wire, parts, hwire, rfl, rfl, ?_, rfl, ?_⟩
  · exact hlevel.holds.imp fun _ _ => Holds.mono hsub
  · rw [Nat.zero_add]
    exact hlevel.represents hlinks _

theorem collapseLevel_meets (hlimit : 2 ≤ limits.maxLinks) (hs : Wrote p limits kind entries s)
    (hgroup : Level p kind entries s.written level (group ++ rows) parts)
    (hfree : group.length < limits.maxLinks) :
    Meets (collapseLevel p limits kind level group rows) s
      (fun next t => Wrote p limits kind entries t ∧ s.written ⊆ t.written ∧
        2 * next.length ≤ group.length + rows.length + 1 ∧
        ∃ nextParts, nextParts.flatten = parts.flatten ∧
          Level p kind entries t.written (level + 1) next nextParts)
      (fun e t => Stuck p limits kind entries t e ∧ Wrote p limits kind entries t) := by
  induction rows generalizing group parts s with
  | nil =>
    unfold collapseLevel
    cases group with
    | nil =>
      obtain rfl := List.forall₂_nil_left_iff.mp hgroup.holds
      exact ⟨hs, List.Subset.refl _, Nat.zero_le _, [], rfl, hgroup.lawful, .nil, hgroup.whole⟩
    | cons first group =>
      rw [List.append_nil] at hgroup
      refine (flushGroup_meets hs hgroup (List.cons_ne_nil _ _) hfree.le).andThen ?_
      rintro link t ⟨ht, hsub, hlink⟩
      refine ⟨ht, hsub, ?_, [parts.flatten], by simp, hgroup.lawful, .cons hlink .nil, ?_⟩
      · simp only [List.length_cons, List.length_nil]
        omega
      · simpa using hgroup.whole
  | cons row rows ih =>
    rw [List.append_cons] at hgroup
    unfold collapseLevel
    split_ifs with hfilling
    · refine (ih hs hgroup hfilling).mono ?_ fun _ _ he => he
      rintro next t ⟨ht, hsub, hlength, hparts⟩
      refine ⟨ht, hsub, ?_, hparts⟩
      simp only [List.length_append, List.length_cons, List.length_nil] at hlength ⊢
      omega
    · obtain ⟨frontParts, backParts, rfl, hfront, hback⟩ := hgroup.split
      have hfull : (group ++ [row]).length ≤ limits.maxLinks := by
        rw [List.length_append, List.length_singleton]
        omega
      refine (flushGroup_meets hs hfront (by simp) hfull).andThen ?_
      rintro link t ⟨ht, hsub, hlink⟩
      have hrest : Level p kind entries t.written level ([] ++ rows) backParts :=
        ⟨hback.lawful, hback.holds.imp fun _ _ => Holds.mono hsub, hback.whole⟩
      refine (ih ht hrest (by simpa using by omega)).andThen ?_
      rintro links u ⟨hu, hlater, hlength, nextParts, hflatten, hnext⟩
      refine ⟨hu, List.Subset.trans hsub hlater, ?_, frontParts.flatten :: nextParts, ?_, hnext.lawful,
        .cons (hlink.mono hlater) hnext.holds, ?_⟩
      · simp only [List.length_append, List.length_cons, List.length_nil] at hlength hfilling ⊢
        omega
      · simp [hflatten]
      · simpa [hflatten] using hgroup.whole

/-- What a collapse returns: the root of a tree over the entries, with their size, number and bounds. -/
structure Root (p : Platform) (kind : LinkListKind) (entries : List ManifestLink)
    (built : Built) (written : List Manifest) : Prop where
  manifest : ∃ manifest ∈ written, ∃ wire level parts,
    encodeManifest p.lib manifest = .ok wire ∧ built.hash = p.digest wire ∧
    manifest.type = manifestKind kind level ∧ built.type = groupType kind level ∧
    List.Forall₂ (Holds p kind written level) manifest.links parts ∧ parts.flatten = entries
  size : built.logicalSize = (entries.map ManifestLink.size).sum
  count : kind = .directory → built.count = entries.length
  bounds : kind = .directory →
    (∀ first ∈ entries.head?, built.first = some (nameOf first)) ∧
      ∀ last ∈ entries.getLast?, built.last = some (nameOf last)

theorem finishCollapse_meets (hs : Wrote p limits kind entries s)
    (hlevel : Level p kind entries s.written level links parts) (hall : parts.flatten = entries)
    (hcount : links.length ≤ limits.maxLinks) :
    Meets (finishCollapse p limits kind level links) s
      (fun built t => Wrote p limits kind entries t ∧ Root p kind entries built t.written)
      (fun e t => Stuck p limits kind entries t e ∧ Wrote p limits kind entries t) := by
  unfold finishCollapse
  refine (writeManifest_meets hs ⟨level, parts, rfl, hcount, hlevel.holds, hlevel.whole⟩).andThen ?_
  rintro hash t ⟨ht, hsub, hmem, wire, hwire, rfl⟩
  have hsummed := hlevel.summed
  have htotal : (links.map ManifestLink.size).sum = (entries.map ManifestLink.size).sum := by
    rw [sizes_summed hsummed, hall]
  have hsize : 0 + (links.map ManifestLink.size).sum ≤ 9007199254740991 := by
    rw [Nat.zero_add, htotal]
    exact hlevel.lawful.size
  apply Meets.bind
  rw [Meets, logicalSize, logicalSizeFrom_eq 0 hsize]
  refine ⟨ht, ⟨_, hmem, wire, level, parts, hwire, rfl, rfl, rfl, ?_, hall⟩, ?_, fun hkind => ?_,
    fun hkind => ?_⟩
  · exact hlevel.holds.imp fun _ _ => Holds.mono hsub
  · simpa using htotal
  · simp [hkind, linksCount_summed hkind hsummed, hall]
  · simp only [hkind, reduceCtorEq, if_false, Option.some.injEq]
    constructor
    · intro first hfirst
      have hlinks : links ≠ [] := by
        rintro rfl
        obtain rfl := List.forall₂_nil_left_iff.mp hsummed
        simp [← hall] at hfirst
      obtain ⟨other, hother, hfirstOf⟩ := firstOf_summed hkind hsummed hlinks
      rw [hall] at hother
      rw [hfirstOf, Option.mem_unique hfirst hother]
      rfl
    · intro last hlast
      have hlinks : links ≠ [] := by
        rintro rfl
        obtain rfl := List.forall₂_nil_left_iff.mp hsummed
        simp [← hall] at hlast
      obtain ⟨other, hother, hlastOf⟩ := lastOf_summed hkind hsummed hlinks
      rw [hall] at hother
      rw [hlastOf, Option.mem_unique hlast hother]
      rfl

theorem collapseFrom_meets (hlimit : 2 ≤ limits.maxLinks) {fuel : ℕ}
    (hs : Wrote p limits kind entries s)
    (hlevel : Level p kind entries s.written level links parts) (hall : parts.flatten = entries)
    (hfuel : links.length < fuel) :
    Meets (collapseFrom p limits kind fuel level links) s
      (fun built t => Wrote p limits kind entries t ∧ Root p kind entries built t.written)
      (fun e t => Stuck p limits kind entries t e ∧ Wrote p limits kind entries t) := by
  induction fuel generalizing level links parts s with
  | zero => omega
  | succ fuel ih =>
    unfold collapseFrom
    split_ifs with hcount
    · exact finishCollapse_meets hs hlevel hall hcount
    · have hgroup : Level p kind entries s.written level ([] ++ links) parts := hlevel
      have hfree : ([] : List ManifestLink).length < limits.maxLinks := by simpa using by omega
      refine (collapseLevel_meets hlimit hs hgroup hfree).andThen ?_
      rintro next t ⟨ht, -, hlength, nextParts, hflatten, hnext⟩
      simp only [List.length_nil] at hlength
      exact ih ht hnext (hflatten.trans hall) (by omega)

end Writing

section Reading

variable {p : Platform} {limits : WriterLimits} {readLimits : ManifestLimits}
variable {kind : LinkListKind} {level : ℕ} {link : ManifestLink} {manifest : Manifest}
variable {links part entries : List ManifestLink} {parts : List (List ManifestLink)}
variable {written : List Manifest} {t : WriterState}

theorem Entries.size_le (h : Entries kind entries) (hlink : link ∈ entries) :
    link.size ≤ 9007199254740991 := by
  obtain ⟨before, after, rfl⟩ := List.append_of_mem hlink
  have hsize := h.size
  simp only [List.map_append, List.map_cons, List.sum_append, List.sum_cons] at hsize
  omega

theorem checkFile_ok (hname : ∀ link ∈ links, link.name = none)
    (htype : ∀ link ∈ links, link.type = .blob ∨ link.type = .file) : checkFile links = .ok () := by
  unfold checkFile
  rw [if_neg]
  simp only [List.any_eq_true, not_exists, not_and, decide_eq_true_eq]
  intro link hlink hbad
  rcases htype link hlink with htype | htype <;> simp [hname link hlink, htype] at hbad

theorem checkDirectory_ok (h : Entries .directory links) {previous : Option String}
    (hprevious : ∀ before ∈ previous, ∀ link ∈ links, byteLess before (nameOf link)) :
    checkDirectory previous links = .ok () := by
  induction links generalizing previous with
  | nil => rfl
  | cons link links ih =>
    obtain ⟨name, hname, hsafe⟩ := h.named rfl link (by simp)
    have hafter : previous.any (fun before => ¬byteLess before name) = false := by
      cases previous with
      | none => rfl
      | some before => simpa [nameOf, hname] using hprevious before rfl link (by simp)
    have hsorted := List.pairwise_cons.mp (h.sorted rfl)
    rw [checkDirectory]
    simp only [hname, Option.getD_some, hsafe, hafter, Bool.false_eq_true, if_false]
    apply ih (h.of_infix (List.suffix_cons link links).isInfix)
    rintro before hbefore other hother
    obtain rfl := Option.some.inj hbefore
    simpa [nameOf, hname] using hsorted.1 other hother

theorem byteLess_asymm {a b : String} (h : byteLess a b) : ¬byteLess b a :=
  List.lt_asymm h

theorem Entries.least (h : Entries .directory entries) {first : ManifestLink}
    (hfirst : first ∈ entries.head?) {other : ManifestLink} (hother : other ∈ entries) :
    other = first ∨ byteLess (nameOf first) (nameOf other) := by
  obtain ⟨rest, rfl⟩ := List.head?_eq_some_iff.mp hfirst
  rcases List.mem_cons.mp hother with hsame | hrest
  · exact Or.inl hsame
  · exact Or.inr ((List.pairwise_cons.mp (h.sorted rfl)).1 other hrest)

theorem Entries.greatest (h : Entries .directory entries) {last : ManifestLink}
    (hlast : last ∈ entries.getLast?) {other : ManifestLink} (hother : other ∈ entries) :
    other = last ∨ byteLess (nameOf other) (nameOf last) := by
  obtain ⟨front, rfl⟩ := List.getLast?_eq_some_iff.mp hlast
  rcases List.mem_append.mp hother with hfront | hsame
  · exact Or.inr ((List.pairwise_append.mp (h.sorted rfl)).2.2 other hfront last (by simp))
  · exact Or.inl (List.mem_singleton.mp hsame)

theorem fanoutBounds_ok (h : Represents .directory level link part) (hpart : Entries .directory part)
    {priorLast : Option String}
    (hprior : ∀ before ∈ priorLast, ∀ entry ∈ part, byteLess before (nameOf entry)) :
    ∃ last ∈ part.getLast?, ∃ metadata, link.metadata = some metadata ∧
      ∃ bounds, fanoutBounds priorLast metadata = .ok bounds ∧ bounds.last = nameOf last := by
  obtain ⟨first, hfirst, last, hlast, hmetadata⟩ := h.bounds rfl
  refine ⟨last, hlast, _, hmetadata, ⟨nameOf first, nameOf last⟩, ?_, rfl⟩
  have hcount := hpart.count
  have hfilled : part.length ≠ 0 := fun hzero => h.filled (List.length_eq_zero_iff.mp hzero)
  have hordered : ¬byteLess (nameOf last) (nameOf first) := by
    rcases hpart.least hfirst (List.mem_of_getLast? hlast) with rfl | hless
    · exact List.lt_irrefl _
    · exact byteLess_asymm hless
  have hafter : priorLast.any (fun before => !decide (byteLess before (nameOf first))) = false := by
    cases priorLast with
    | none => rfl
    | some before => simpa using hprior before rfl first (List.mem_of_head? hfirst)
  have huint : uint "fanout count" (some (.number (.integer part.length))) = .ok part.length :=
    uint_eq_ok.mpr ⟨rfl, hcount⟩
  unfold fanoutBounds
  simp [exactKeys_eq_ok.mpr, keysOf, List.lookup_cons, huint, hfilled, hordered, hafter, bind, Except.bind]

theorem checkFanout_ok (hlinks : List.Forall₂ (Represents .directory level) links parts)
    (hparts : Entries .directory parts.flatten) {priorLast : Option String}
    (hprior : ∀ before ∈ priorLast, ∀ entry ∈ parts.flatten, byteLess before (nameOf entry)) :
    checkFanout priorLast links = .ok () := by
  induction hlinks generalizing priorLast with
  | nil => rfl
  | @cons link part links parts hlink hrest ih =>
    rw [List.flatten_cons] at hparts hprior
    have hpart := hparts.of_infix (List.prefix_append part parts.flatten).isInfix
    have hflat := hparts.of_infix (List.suffix_append part parts.flatten).isInfix
    obtain ⟨last, hlast, metadata, hmetadata, bounds, hbounds, hboundsLast⟩ :=
      fanoutBounds_ok hlink hpart fun before hbefore entry hentry =>
        hprior before hbefore entry (List.mem_append_left _ hentry)
    have htype : link.type = .directory ∨ link.type = .fanout := by
      rw [hlink.type, groupType]
      split_ifs
      · exact Or.inl rfl
      · exact Or.inr rfl
    have hrest : checkFanout (some bounds.last) links = .ok () := by
      refine ih hflat ?_
      rintro before hbefore entry hentry
      obtain rfl := Option.some.inj hbefore
      rw [hboundsLast]
      exact (List.pairwise_append.mp (hparts.sorted rfl)).2.2 last (List.mem_of_getLast? hlast) entry
        hentry
    rw [checkFanout, hlink.name, hmetadata]
    dsimp only
    rw [if_neg (by tauto), hbounds]
    exact hrest

theorem Holds.lawful (h : Holds p kind written level link part) (hpart : Entries kind part)
    (hdigest : ∀ bytes, (p.digest bytes).length = 32) : link.Lawful (manifestKind kind level) := by
  cases level with
  | zero =>
    obtain rfl : part = [link] := h
    obtain ⟨hkey, hmetadata⟩ := hpart.plain link (by simp)
    refine ⟨hpart.hash link (by simp), by simp [hkey], by simp [hmetadata], ?_,
      hpart.size_le (by simp)⟩
    cases kind with
    | file => simp [manifestKind, (hpart.file rfl link (by simp)).1]
    | directory =>
      obtain ⟨name, hname, -⟩ := hpart.named rfl link (by simp)
      simp [manifestKind, hname]
  | succ level =>
    obtain ⟨manifest, -, wire, parts, -, hhash, -, -, -, hrepresents⟩ := h
    refine ⟨hhash ▸ hdigest wire, by simp [hrepresents.key], ?_, ?_, hrepresents.size ▸ hpart.size⟩
    · intro metadata hmetadata
      cases kind with
      | file => simp [hrepresents.bare rfl] at hmetadata
      | directory =>
        obtain ⟨first, -, last, -, hfields⟩ := hrepresents.bounds rfl
        rw [hfields] at hmetadata
        obtain rfl := Option.some.inj hmetadata
        rfl
    · cases kind <;> simp [manifestKind, hrepresents.name]

theorem flatten_entries (h : List.Forall₂ (Holds p kind written 0) links parts) :
    parts.flatten = links := by
  induction h with
  | nil => rfl
  | @cons link part links parts hlink _ ih =>
    obtain rfl : part = [link] := hlink
    rw [List.flatten_cons, ih]
    rfl

theorem exists_part {R : ManifestLink → List ManifestLink → Prop} (h : List.Forall₂ R links parts)
    (hlink : link ∈ links) : ∃ part ∈ parts, R link part := by
  induction h with
  | nil => simp at hlink
  | cons hfirst _ ih =>
    rcases List.mem_cons.mp hlink with rfl | hlink
    · exact ⟨_, List.mem_cons_self, hfirst⟩
    · obtain ⟨part, hpart, hR⟩ := ih hlink
      exact ⟨part, List.mem_cons_of_mem _ hpart, hR⟩

theorem Level.represented (h : Level p kind entries written (level + 1) links parts) :
    List.Forall₂ (Represents kind level) links parts := by
  refine h.holds.imp fun link part hlink => ?_
  obtain ⟨_, _, _, _, _, _, _, _, _, hrepresents⟩ := hlink
  exact hrepresents

theorem Level.checked (h : Level p kind entries written level links parts) :
    checkLinks (manifestKind kind level) links = .ok () := by
  cases level with
  | zero =>
    have hlinks : Entries kind links := by
      rw [← flatten_entries h.holds]
      exact h.lawful.of_infix h.whole
    cases kind with
    | file =>
      have hplain := hlinks.file rfl
      exact checkFile_ok (fun link hlink => (hplain link hlink).1)
        fun link hlink => Or.inl (hplain link hlink).2
    | directory => exact checkDirectory_ok hlinks nofun
  | succ level =>
    have hrepresented := h.represented
    cases kind with
    | file =>
      have hplain : ∀ link ∈ links, link.name = none ∧ link.type = .file := by
        intro link hlink
        obtain ⟨part, -, hrepresents⟩ := exists_part hrepresented hlink
        exact ⟨hrepresents.name, hrepresents.type⟩
      exact checkFile_ok (fun link hlink => (hplain link hlink).1)
        fun link hlink => Or.inr (hplain link hlink).2
    | directory => exact checkFanout_ok hrepresented (h.lawful.of_infix h.whole) nofun

/-- What the reader of a candidate relies on: the codec reads its manifests back within the limits, and
no other blob of the candidate has the digest of one of them. -/
structure Readable (p : Platform) (limits : WriterLimits) (readLimits : ManifestLimits)
    (t : WriterState) : Prop where
  supported : ∀ manifest ∈ t.written, p.lib.Supports (manifestValue manifest)
  links : limits.maxLinks ≤ readLimits.maxLinks
  safe : readLimits.maxWireBytes ≤ 9007199254740991
  wire : ∀ manifest ∈ t.written, ∀ wire, encodeManifest p.lib manifest = .ok wire →
    wire.length ≤ readLimits.maxWireBytes
  cost : ∀ manifest ∈ t.written, decodedCost (manifestValue manifest) ≤ readLimits.maxDecodedBytes
  separate : ∀ manifest ∈ t.written, ∀ wire, encodeManifest p.lib manifest = .ok wire →
    ∀ blob ∈ t.inventory, p.digest blob = p.digest wire → blob = wire

theorem forall₂_mem {R : ManifestLink → List ManifestLink → Prop} (h : List.Forall₂ R links parts) :
    List.Forall₂ (fun link part => (link ∈ links ∧ part ∈ parts) ∧ R link part) links parts :=
  List.forall₂_iff_zip.mpr ⟨h.length_eq, fun hzip => ⟨List.of_mem_zip hzip,
    List.forall₂_zip h hzip⟩⟩

theorem mapM_parts {f : ManifestLink → Option (List ManifestLink)}
    (h : List.Forall₂ (fun link part => f link = some part) links parts) :
    links.mapM f = some parts := by
  induction h with
  | nil => rfl
  | cons hlink _ ih => simp [List.mapM_cons, hlink, ih]

theorem bottom_entries (hlevel : Level p kind entries written 0 links parts) :
    ∀ link ∈ links, isEntry (manifestKind kind 0) link = true := by
  have hlinks : Entries kind links := by
    rw [← flatten_entries hlevel.holds]
    exact hlevel.lawful.of_infix hlevel.whole
  intro link hlink
  cases kind with
  | file => simp [isEntry, manifestKind, (hlinks.file rfl link hlink).2]
  | directory => simp [isEntry, manifestKind]

/-- Every manifest that has been written is stored and has its place in the tree over some entries. -/
structure Stocked (p : Platform) (limits : WriterLimits) (s : WriterState) : Prop where
  stored : ∀ manifest ∈ s.written, ∃ wire, encodeManifest p.lib manifest = .ok wire ∧
    ∃ blob ∈ s.inventory, p.digest blob = p.digest wire
  placed : ∀ manifest ∈ s.written, ∃ kind entries, Entries kind entries ∧
    Placed p limits kind entries s.written manifest

theorem Wrote.stocked (hentries : Entries kind entries) (ht : Wrote p limits kind entries t) :
    Stocked p limits t :=
  ⟨ht.stored, fun manifest hmem => ⟨kind, entries, hentries, ht.placed manifest hmem⟩⟩

section Stock

variable (hdigest : ∀ bytes, (p.digest bytes).length = 32)
variable (ht : Stocked p limits t) (hread : Readable p limits readLimits t)
include hdigest ht hread

theorem Stocked.lawful (hmem : manifest ∈ t.written) : manifest.Lawful readLimits := by
  obtain ⟨kind, entries, hentries, level, parts, htype, hcount, hholds, hwhole⟩ := ht.placed manifest hmem
  refine ⟨hcount.trans hread.links, hread.cost manifest hmem, ?_, ?_⟩
  · intro link hlink
    obtain ⟨part, hpart, hlinkHolds⟩ := exists_part hholds hlink
    rw [htype]
    exact hlinkHolds.lawful
      (hentries.of_infix ((List.infix_of_mem_flatten hpart).trans hwhole)) hdigest
  · rw [htype]
    exact Level.checked ⟨hentries, hholds, hwhole⟩

theorem Stocked.decoded (hmem : manifest ∈ t.written) {wire : List UInt8}
    (hwire : encodeManifest p.lib manifest = .ok wire) :
    decodeManifest p.lib wire readLimits = .ok manifest :=
  (ht.lawful hdigest hread hmem).decoded _ (hread.supported manifest hmem) hwire hread.safe
    (hread.wire manifest hmem wire hwire)

omit hdigest in
theorem Stocked.found (hmem : manifest ∈ t.written) {wire : List UInt8}
    (hwire : encodeManifest p.lib manifest = .ok wire) :
    t.inventory.find? (fun blob => p.digest blob = p.digest wire) = some wire := by
  obtain ⟨other, hother, blob, hblob, hdigests⟩ := ht.stored manifest hmem
  obtain rfl := Except.ok.inj (hother.symm.trans hwire)
  cases hfind : t.inventory.find? (fun blob => p.digest blob = p.digest other) with
  | none => exact absurd (decide_eq_true hdigests) (List.find?_eq_none.mp hfind blob hblob)
  | some found =>
    have hsame : p.digest found = p.digest other := by simpa using List.find?_some hfind
    rw [hread.separate manifest hmem other hwire found (List.mem_of_find?_eq_some hfind) hsame]

theorem Stocked.stored_manifest (hmem : manifest ∈ t.written) {wire : List UInt8}
    (hwire : encodeManifest p.lib manifest = .ok wire) :
    storedManifest p readLimits t.inventory (p.digest wire) = some manifest := by
  rw [storedManifest, ht.found hread hmem hwire, Option.bind_some,
    ht.decoded hdigest hread hmem hwire]
  rfl

theorem Stocked.readTree_level {level : ℕ}
    (hlevel : Level p kind entries t.written level links parts) :
    readTree p readLimits t.inventory (level + 1) ⟨manifestKind kind level, links⟩ =
      some parts.flatten := by
  induction level generalizing links parts with
  | zero =>
    rw [readTree, mapM_parts]
    · rfl
    · refine (forall₂_mem hlevel.holds).imp fun link part => ?_
      rintro ⟨⟨hlink, -⟩, hpart⟩
      obtain rfl : part = [link] := hpart
      exact if_pos (bottom_entries hlevel link hlink)
  | succ level ih =>
    rw [readTree, mapM_parts]
    · rfl
    · refine (forall₂_mem hlevel.holds).imp fun link part => ?_
      rintro ⟨⟨-, hpart⟩, hholds⟩
      obtain ⟨manifest, hmem, wire, below, hwire, hhash, htype, hbelow, rfl, hrepresents⟩ := hholds
      have hnode : isEntry (manifestKind kind (level + 1)) link = false := by
        cases kind <;> simp [isEntry, manifestKind, hrepresents.type, groupType]
      have hwhole := (List.infix_of_mem_flatten hpart).trans hlevel.whole
      have hmanifest : manifest = ⟨manifestKind kind level, manifest.links⟩ := by
        rw [← htype]
      rw [hnode, hhash, ht.stored_manifest hdigest hread hmem hwire, Option.bind_some, hmanifest]
      simpa using ih ⟨hlevel.lawful, hbelow, hwhole⟩

end Stock

section Candidate

variable (hentries : Entries kind entries) (hdigest : ∀ bytes, (p.digest bytes).length = 32)
variable (ht : Wrote p limits kind entries t) (hread : Readable p limits readLimits t)
include hentries hdigest ht hread

theorem written_decoded (hmem : manifest ∈ t.written) {wire : List UInt8}
    (hwire : encodeManifest p.lib manifest = .ok wire) :
    decodeManifest p.lib wire readLimits = .ok manifest :=
  (ht.stocked hentries).decoded hdigest hread hmem hwire

theorem written_stored (hmem : manifest ∈ t.written) {wire : List UInt8}
    (hwire : encodeManifest p.lib manifest = .ok wire) :
    storedManifest p readLimits t.inventory (p.digest wire) = some manifest :=
  (ht.stocked hentries).stored_manifest hdigest hread hmem hwire

theorem readTree_level {level : ℕ} (hlevel : Level p kind entries t.written level links parts) :
    readTree p readLimits t.inventory (level + 1) ⟨manifestKind kind level, links⟩ =
      some parts.flatten :=
  (ht.stocked hentries).readTree_level hdigest hread hlevel

/-- A link of a manifest leads to entries: it has their size, and in a fanout manifest also their number
and the least and the greatest of their names. -/
def Describes (p : Platform) (readLimits : ManifestLimits) (t : WriterState)
    (entries : List ManifestLink) (type : ManifestType) (link : ManifestLink) : Prop :=
  ∃ fuel below, (storedManifest p readLimits t.inventory link.hash).bind
      (readTree p readLimits t.inventory fuel) = some below ∧
    below <:+: entries ∧ link.size = (below.map ManifestLink.size).sum ∧
    (type = .fanout → ∃ first ∈ below, ∃ last ∈ below,
      link.metadata = some [("count", .number (.integer below.length)),
        ("first", .text (nameOf first)), ("last", .text (nameOf last))] ∧
      ∀ entry ∈ below, (entry = first ∨ byteLess (nameOf first) (nameOf entry)) ∧
        (entry = last ∨ byteLess (nameOf entry) (nameOf last)))

theorem link_described (hmem : manifest ∈ t.written) (hlink : link ∈ manifest.links)
    (hnode : isEntry manifest.type link = false) :
    Describes p readLimits t entries manifest.type link := by
  obtain ⟨level, parts, htype, -, hholds, hwhole⟩ := ht.placed manifest hmem
  obtain ⟨part, hpart, hlinkHolds⟩ := exists_part hholds hlink
  have hinfix := (List.infix_of_mem_flatten hpart).trans hwhole
  cases level with
  | zero =>
    have hentry := bottom_entries ⟨hentries, hholds, hwhole⟩ link hlink
    rw [← htype, hnode] at hentry
    cases hentry
  | succ level =>
    obtain ⟨child, hchild, wire, parts, hwire, hhash, hchildType, hbelow, rfl, hrepresents⟩ := hlinkHolds
    have hmanifest : child = ⟨manifestKind kind level, child.links⟩ := by
      rw [← hchildType]
    refine ⟨level + 1, parts.flatten, ?_, hinfix, hrepresents.size, fun hfanout => ?_⟩
    · rw [hhash, written_stored hentries hdigest ht hread hchild hwire, Option.bind_some, hmanifest]
      exact readTree_level hentries hdigest ht hread ⟨hentries, hbelow, hinfix⟩
    · obtain rfl : kind = .directory := by
        cases kind with
        | file => simp [htype, manifestKind] at hfanout
        | directory => rfl
      obtain ⟨first, hfirst, last, hlast, hmetadata⟩ := hrepresents.bounds rfl
      have hpartEntries := hentries.of_infix hinfix
      exact ⟨first, List.mem_of_head? hfirst, last, List.mem_of_getLast? hlast, hmetadata,
        fun entry hentry => ⟨hpartEntries.least hfirst hentry, hpartEntries.greatest hlast hentry⟩⟩

end Candidate

/-- No manifest that has been written has too many links, and a reader of the candidate decodes each of
them and finds what its links describe. -/
def Manifests (p : Platform) (limits : WriterLimits) (entries : List ManifestLink)
    (t : WriterState) : Prop :=
  (∀ manifest ∈ t.written, manifest.links.length ≤ limits.maxLinks) ∧
    ∀ readLimits, Readable p limits readLimits t → ∀ manifest ∈ t.written,
      (∃ wire, encodeManifest p.lib manifest = .ok wire ∧
        decodeManifest p.lib wire readLimits = .ok manifest) ∧
      ∀ link ∈ manifest.links, isEntry manifest.type link = false →
        Describes p readLimits t entries manifest.type link

theorem Wrote.manifests (hentries : Entries kind entries)
    (hdigest : ∀ bytes, (p.digest bytes).length = 32) (ht : Wrote p limits kind entries t) :
    Manifests p limits entries t := by
  constructor
  · intro manifest hmem
    obtain ⟨level, parts, -, hcount, -, -⟩ := ht.placed manifest hmem
    exact hcount
  · intro readLimits hread manifest hmem
    obtain ⟨wire, hwire, -⟩ := ht.stored manifest hmem
    exact ⟨⟨wire, hwire, written_decoded hentries hdigest ht hread hmem hwire⟩,
      fun link hlink hnode => link_described hentries hdigest ht hread hmem hlink hnode⟩

/-- A collapse comes to an end, and it fails only at a manifest of its tree that the codec or the store
refuses or the candidate has no room for.  The tree that it returns is read to the entries in their order. -/
theorem collapse_correct (hlimit : 2 ≤ limits.maxLinks)
    (hdigest : ∀ bytes, (p.digest bytes).length = 32) (hentries : Entries kind entries)
    (inventory : List (List UInt8)) :
    Meets (collapse p limits kind entries) ⟨inventory, []⟩
      (fun built t => Manifests p limits entries t ∧
        built.logicalSize = (entries.map ManifestLink.size).sum ∧
        (kind = .directory → built.count = entries.length ∧
          (∀ first ∈ entries.head?, built.first = some (nameOf first)) ∧
          ∀ last ∈ entries.getLast?, built.last = some (nameOf last)) ∧
        ∀ readLimits, Readable p limits readLimits t →
          ∃ fuel, (storedManifest p readLimits t.inventory built.hash).bind
            (readTree p readLimits t.inventory fuel) = some entries)
      (fun e t => Stuck p limits kind entries t e ∧ Manifests p limits entries t) := by
  have hstored : entries.map storedLink = entries := by
    refine (List.map_congr_left fun link hlink => ?_).trans (List.map_id entries)
    have hkey := (hentries.plain link hlink).1
    cases link
    simp_all [storedLink]
  have hstart : Wrote p limits kind entries ⟨inventory, []⟩ := ⟨by simp, by simp⟩
  have hholds : List.Forall₂ (Holds p kind [] 0) entries (entries.map fun link => [link]) :=
    List.forall₂_map_right_iff.mpr (List.forall₂_same.mpr fun link _ => rfl)
  have hall := flatten_entries hholds
  have hlevel : Level p kind entries [] 0 entries (entries.map fun link => [link]) :=
    ⟨hentries, hholds, hall.symm ▸ List.infix_rfl⟩
  rw [collapse, hstored]
  refine (collapseFrom_meets hlimit hstart hlevel hall (Nat.lt_succ_self _)).mono ?_ ?_
  · rintro built t ⟨ht, hroot⟩
    refine ⟨ht.manifests hentries hdigest, hroot.size, fun hkind => ⟨hroot.count hkind, hroot.bounds hkind⟩,
      fun readLimits hread => ?_⟩
    obtain ⟨manifest, hmem, wire, level, parts, hwire, hhash, htype, -, hlinks, hparts⟩ := hroot.manifest
    have hmanifest : manifest = ⟨manifestKind kind level, manifest.links⟩ := by
      rw [← htype]
    refine ⟨level + 1, ?_⟩
    rw [hhash, written_stored hentries hdigest ht hread hmem hwire, Option.bind_some, hmanifest]
    have hread := readTree_level hentries hdigest ht hread ⟨hentries, hlinks, hparts.symm ▸ List.infix_rfl⟩
    rwa [hparts] at hread
  · rintro e t ⟨he, ht⟩
    exact ⟨he, ht.manifests hentries hdigest⟩

end Reading

section Instances

mutual

def sameValue : Value → Value → Bool
  | .number x, .number y => x = y
  | .text s, .text t => s = t
  | .bytes bs, .bytes cs => bs = cs
  | .array items, .array others => sameItems items others
  | .record fields, .record others => sameFields fields others
  | _, _ => false

def sameItems : List Value → List Value → Bool
  | [], [] => true
  | v :: items, x :: others => sameValue v x && sameItems items others
  | _, _ => false

def sameFields : List (String × Value) → List (String × Value) → Bool
  | [], [] => true
  | (name, v) :: fields, (other, x) :: others => (name = other) && sameValue v x && sameFields fields others
  | _, _ => false

end

mutual

theorem eq_of_sameValue (v x : Value) (h : sameValue v x = true) : v = x := by
  cases v <;> cases x <;> simp only [sameValue, decide_eq_true_eq, Bool.false_eq_true] at h
  case number.number => rw [h]
  case text.text => rw [h]
  case bytes.bytes => rw [h]
  case array.array items others => rw [eq_of_sameItems items others h]
  case record.record fields others => rw [eq_of_sameFields fields others h]

theorem eq_of_sameItems (items others : List Value) (h : sameItems items others = true) :
    items = others := by
  cases items <;> cases others <;> simp only [sameItems, Bool.and_eq_true, Bool.false_eq_true] at h
  case nil.nil => rfl
  case cons.cons v items x others => rw [eq_of_sameValue v x h.1, eq_of_sameItems items others h.2]

theorem eq_of_sameFields (fields others : List (String × Value)) (h : sameFields fields others = true) :
    fields = others := by
  cases fields <;> cases others
  case nil.nil => rfl
  case nil.cons => simp [sameFields] at h
  case cons.nil => simp [sameFields] at h
  case cons.cons field fields other others =>
    obtain ⟨name, v⟩ := field
    obtain ⟨name', x⟩ := other
    simp only [sameFields, Bool.and_eq_true, decide_eq_true_eq] at h
    rw [h.1.1, eq_of_sameValue v x h.1.2, eq_of_sameFields fields others h.2]

end

/-- The codec for small values, with the first bytes of a blob for its digest. -/
def samplePlatform : Platform where
  lib := smallMessagePack
  digest bytes := (bytes ++ List.replicate 32 0).take 32
  admission _ := .ok ()

theorem samplePlatform_digest (bytes : List UInt8) : (samplePlatform.digest bytes).length = 32 := by
  rw [samplePlatform, List.length_take, List.length_append, List.length_replicate]
  omega

/-- What a reader of a candidate relies on, as far as it can be computed. -/
def decodesBack (t : WriterState) : Bool :=
  t.written.all fun manifest =>
    match smallMessagePack.encode (manifestValue manifest) with
    | .error _ => false
    | .ok wire => (wire.length ≤ 4096 ∧ decodedCost (manifestValue manifest) ≤ 4096 ∧
        ∀ blob ∈ t.inventory, samplePlatform.digest blob = samplePlatform.digest wire → blob = wire) &&
        match smallMessagePack.decode wire with
        | .error _ => false
        | .ok v => sameValue v (manifestValue manifest)

theorem decodesBack_of {t : WriterState} (h : decodesBack t = true) {manifest : Manifest}
    (hmem : manifest ∈ t.written) : smallMessagePack.Supports (manifestValue manifest) ∧
      ∀ wire, encodeManifest smallMessagePack manifest = .ok wire →
        wire.length ≤ 4096 ∧ decodedCost (manifestValue manifest) ≤ 4096 ∧
        ∀ blob ∈ t.inventory, samplePlatform.digest blob = samplePlatform.digest wire → blob = wire := by
  have hone := List.all_eq_true.mp h manifest hmem
  cases hwire : smallMessagePack.encode (manifestValue manifest) with
  | error e =>
    rw [hwire] at hone
    cases hone
  | ok wire =>
    rw [hwire] at hone
    cases hread : smallMessagePack.decode wire with
    | error e =>
      simp [hread] at hone
    | ok v =>
      simp only [hread, Bool.and_eq_true, decide_eq_true_eq] at hone
      refine ⟨⟨wire, hwire, hread.trans (congrArg _ (eq_of_sameValue _ _ hone.2))⟩, fun other hother => ?_⟩
      obtain rfl : wire = other := Except.ok.inj (hwire.symm.trans hother)
      exact hone.1

theorem readable_of_decodesBack {limits : WriterLimits} (hlimits : limits.maxLinks ≤ sampleLimits.maxLinks)
    {t : WriterState} (h : decodesBack t = true) :
    Readable samplePlatform limits sampleLimits t where
  supported _ hmem := (decodesBack_of h hmem).1
  links := hlimits
  safe := by decide
  wire _ hmem wire hwire := ((decodesBack_of h hmem).2 wire hwire).1
  cost _ hmem := by
    obtain ⟨⟨wire, hwire, -⟩, hall⟩ := decodesBack_of h hmem
    exact (hall wire hwire).2.1
  separate _ hmem wire hwire := ((decodesBack_of h hmem).2 wire hwire).2.2

def sampleEntries : List ManifestLink :=
  ["a", "z", "é"].map fun name => ⟨List.replicate 32 7, none, none, some name, 5, .file⟩

def sampleWriterLimits : WriterLimits :=
  ⟨2, 10, 4096⟩

/-- Three entries and two links for a manifest make a fanout over two directories. -/
example :
    (match collapse samplePlatform sampleWriterLimits .directory sampleEntries ⟨[], []⟩ with
      | .ok built t => (built.type, built.logicalSize, t.written.map fun m => (m.type, m.links.length))
      | .error _ _ => (.blob, 0, [])) =
      (LinkType.fanout, 15, [(.directory, 2), (.directory, 1), (.fanout, 2)]) := by
  decide +kernel

theorem collapse_correct_sample : ∃ built t fuel,
    collapse samplePlatform sampleWriterLimits .directory sampleEntries ⟨[], []⟩ = .ok built t ∧
      Manifests samplePlatform sampleWriterLimits sampleEntries t ∧ built.count = 3 ∧
      (storedManifest samplePlatform sampleLimits t.inventory built.hash).bind
        (readTree samplePlatform sampleLimits t.inventory fuel) = some sampleEntries := by
  have hentries : Entries .directory sampleEntries := by
    refine ⟨by simp [sampleEntries], by simp [sampleEntries], by decide, by decide, nofun, fun _ => ?_,
      fun _ => by decide⟩
    intro link hlink
    obtain ⟨name, hname, rfl⟩ := List.mem_map.mp hlink
    refine ⟨name, rfl, ?_⟩
    rcases List.mem_cons.mp hname with rfl | hname
    · decide
    rcases List.mem_cons.mp hname with rfl | hname
    · decide
    obtain rfl := List.mem_singleton.mp hname
    decide
  have hreturns : (match collapse samplePlatform sampleWriterLimits .directory sampleEntries ⟨[], []⟩ with
      | .ok _ t => decodesBack t
      | .error _ _ => false) = true := by
    decide +kernel
  have hlength : sampleEntries.length = 3 := rfl
  -- The elaborator would run the collapse of a closed list.
  generalize sampleEntries = entries at *
  have hlimit : 2 ≤ sampleWriterLimits.maxLinks := le_refl 2
  have hmeets := collapse_correct hlimit samplePlatform_digest hentries []
  cases hrun : collapse samplePlatform sampleWriterLimits .directory entries ⟨[], []⟩ with
  | ok built t =>
    rw [hrun] at hreturns
    obtain ⟨hmanifests, -, hcount, hread⟩ := hmeets.ok hrun
    obtain ⟨fuel, hentries⟩ := hread _ (readable_of_decodesBack (by decide) hreturns)
    exact ⟨built, t, fuel, rfl, hmanifests, (hcount rfl).1.trans hlength, hentries⟩
  | error e t =>
    rw [hrun] at hreturns
    cases hreturns

end Instances

end NixstrCache.Hashtree.Writer

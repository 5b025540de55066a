import NixstrCache.Hashtree.FileBuild
import NixstrCache.Hashtree.PathResolver
import NixstrCache.Lib.KeyedTable

/-!
The tree of a candidate.

The writer keeps a row for every file and every directory.  The rows come from the manifests of a base and
from the routes of the files.  The files are built first, and then the directories, the deepest ones first,
each from the links to the rows below it.
-/

namespace NixstrCache.Hashtree.Writer

open Protocol Programs KeyedTable
open Persistence (Bytes)

structure BuildLimits extends WriterLimits where
  maxEntries : Option ℕ
  maxRouteBytes : Option ℕ
  maxRouteDepth : Option ℕ

structure BuiltLink where
  hash : List UInt8
  size : ℕ
  type : LinkType
deriving DecidableEq, Repr

structure NodeRow where
  path : String
  parent : String
  name : String
  depth : ℕ
  isFile : Bool
  /-- The logical file that has been inserted at this path. -/
  source : Option LogicalFile
  built : Option BuiltLink

abbrev Nodes := Table NodeRow.path

/-- An earlier build, with the blobs of its inventory. -/
structure Base where
  rootHash : List UInt8
  inventory : List Bytes

def joinPath (parts : List String) : String :=
  String.ofList (['/'].intercalate (parts.map String.toList))

variable (p : BuildPlatform) (limits : BuildLimits)

section Routes

/-- The checks of a route, after the one of the route before it. -/
def checkRoute (previousRoute : Option String) (route : String) : Except WriterError Unit :=
  let parts := segmentsOf route
  if parts = [] ∨ parts.any (fun x => x = "." ∨ x = ".." ∨ '\x00' ∈ x.toList) then
    .error (.error "unsafe logical route")
  else if limits.maxRouteBytes.getD 4096 < (utf8 route).length then
    .error (.rangeError "logical route byte ceiling exceeded")
  else if limits.maxRouteDepth.getD 32 < parts.length then
    .error (.rangeError "logical route depth ceiling exceeded")
  else if previousRoute.any fun previous => ¬byteLess previous route then
    .error (.error "logical routes must be strictly UTF-8 ordered")
  else .ok ()

def fileRow (file : LogicalFile) : NodeRow :=
  let parts := segmentsOf file.route
  ⟨file.route, joinPath parts.dropLast, parts.getLast?.getD "", parts.length, true, some file, none⟩

def directoryRow (parts : List String) : NodeRow :=
  ⟨joinPath parts, joinPath parts.dropLast, parts.getLast?.getD "", parts.length, false, none, none⟩

/-- The rows of a route: the one of the file, and those of the directories on its way that have none. -/
def insertFile (file : LogicalFile) (nodes : Nodes) : Nodes :=
  let parts := segmentsOf file.route
  (nodes.insertOrReplace (fileRow file)).insertAllOrIgnore
    ((List.range parts.length).map fun depth => directoryRow (parts.take depth))

/-- The primary key of `file_components`. -/
def repeatsComponent (file : LogicalFile) : Bool :=
  match file.source with
  | .components components => ¬(components.map Persistence.RouteComponent.index).Nodup
  | _ => false

/-- The loop over the logical files, with the number of those before and the last route. -/
def insertFiles : ℕ → Option String → List LogicalFile → Nodes → Except WriterError Nodes
  | _, _, [], nodes => .ok nodes
  | entries, previousRoute, file :: files, nodes =>
    if limits.maxEntries.getD limits.maxInventoryBlobs < entries + 1 then
      .error (.rangeError "logical entry ceiling exceeded")
    else do
      checkRoute limits previousRoute file.route
      if repeatsComponent file then
        .error (.library "UNIQUE constraint failed: file_components.path, file_components.component_index")
      else insertFiles (entries + 1) (some file.route) files (insertFile file nodes)

end Routes

section Bases

def loadManifest (base : Base) (hash : List UInt8) : Except WriterError Manifest :=
  match base.inventory.find? fun blob => p.digest blob = hash with
  | none => .error (.error "base manifest missing from inventory")
  | some blob =>
    match decodeManifest p.lib blob ⟨limits.maxInventoryBytes, limits.maxInventoryBytes, limits.maxLinks⟩ with
    | .ok manifest => .ok manifest
    | .error _ => .error (.library "invalid manifest")

/-- A link of an imported manifest: a fanout goes on at the same path, a directory below it. -/
def importLink (visit : List UInt8 → LinkType → String → ℕ → Nodes → Except WriterError Nodes)
    (type : ManifestType) (parent : String) (depth : ℕ) (link : ManifestLink) (nodes : Nodes) :
    Except WriterError Nodes :=
  if type = .fanout then
    if isTree link.type then visit link.hash link.type parent depth nodes
    else .error (.error "base fanout contains non-directory link")
  else
    let name := link.name.getD ""
    if name = "" then .error (.error "base directory link has no name")
    else
      let path := if parent = "" then name else parent ++ "/" ++ name
      let built := if isTree link.type then none else some ⟨link.hash, link.size, link.type⟩
      match nodes.insert? ⟨path, parent, name, depth, ¬isTree link.type, none, built⟩ with
      | none => .error (.library "UNIQUE constraint failed: nodes.path")
      | some nodes =>
        if isTree link.type then visit link.hash link.type path (depth + 1) nodes else .ok nodes

/-- `importDirectory`.  The bound is for manifests that lead to themselves. -/
def importDirectory (base : Base) :
    ℕ → List UInt8 → LinkType → String → ℕ → Nodes → Except WriterError Nodes
  | 0, _, _, _, _, _ => .error .unfinished
  | fuel + 1, hash, type, parent, depth, nodes =>
    match loadManifest p limits base hash with
    | .error e => .error e
    | .ok manifest =>
      if typeMatches type manifest.type = false then .error (.error "base manifest link type changed")
      else manifest.links.foldlM (fun nodes link =>
        importLink (importDirectory base fuel) manifest.type parent depth link nodes) nodes

def importBase (base : Base) : Except WriterError Nodes :=
  importDirectory p limits base (base.inventory.length + 1) base.rootHash .directory "" 1
    (Table.empty.insertOrReplace (directoryRow []))

end Bases

section Building

def setBuilt (nodes : Nodes) (path : String) (built : BuiltLink) : Nodes :=
  nodes.update (fun row => if row.path = path then { row with built := some built } else row)
    fun row => by split <;> rfl

def fileRows (nodes : Nodes) : List NodeRow :=
  (nodes.rows.filter fun row => row.isFile ∧ row.source.isSome).insertionSort
    fun a b => utf8 a.path ≤ utf8 b.path

def directoryRows (nodes : Nodes) : List NodeRow :=
  (nodes.rows.filter fun row => ¬row.isFile ∧ row.built.isNone).insertionSort
    fun a b => b.depth < a.depth ∨ a.depth = b.depth ∧ utf8 a.path ≤ utf8 b.path

def childRows (nodes : Nodes) (path : String) : List NodeRow :=
  (nodes.rows.filter fun row => row.parent = path ∧ row.path ≠ path).insertionSort
    fun a b => utf8 a.name ≤ utf8 b.name

def nameLink (name : String) (built : BuiltLink) : ManifestLink :=
  ⟨built.hash, none, none, some name, built.size, built.type⟩

/-- The link to a row; a row that has not been built has no hash to read. -/
def childLink (row : NodeRow) : Except WriterError ManifestLink :=
  match row.built with
  | some built => .ok (nameLink row.name built)
  | none => .error (.library "expected a string")

def builtLink (built : Built) : BuiltLink :=
  ⟨built.hash, built.logicalSize, built.type⟩

def liftError {α : Type} : Except WriterError α → Program α
  | .ok a => pure a
  | .error e => throw e

def buildFiles : List NodeRow → Nodes → Program Nodes
  | [], nodes => pure nodes
  | row :: rows, nodes =>
    match row.source with
    | none => buildFiles rows nodes
    | some file => do
      let built ← buildFile p limits.toWriterLimits file
      buildFiles rows (setBuilt nodes row.path (builtLink built))

def buildDirectories : List NodeRow → Nodes → Program Nodes
  | [], nodes => pure nodes
  | row :: rows, nodes => do
    let links ← liftError ((childRows nodes row.path).mapM childLink)
    let built ← collapseApart p limits.toWriterLimits .directory links
    buildDirectories rows (setBuilt nodes row.path (builtLink built))

def startNodes : Option Base → Program Nodes
  | none => pure Table.empty
  | some base => do
    base.inventory.forM fun blob => discard (registerCandidate p limits.toWriterLimits blob)
    liftError (importBase p limits base)

/-- `#build`, up to the link of the root. -/
def build (files : List LogicalFile) (base : Option Base) : Program BuiltLink := do
  let nodes ← startNodes p limits base
  let nodes ← liftError (insertFiles limits 0 none files nodes)
  let nodes ← buildFiles p limits (fileRows nodes) nodes
  let nodes ← buildDirectories p limits (directoryRows nodes) nodes
  match (nodes.find? "").bind NodeRow.built with
  | some root => pure root
  | none => throw (.library "no root")

end Building

end NixstrCache.Hashtree.Writer

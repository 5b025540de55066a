import Mathlib.Data.List.Sort
import Mathlib.Data.List.Basic
import Mathlib.Logic.Function.Basic
import NixstrCache.Lib.Journal
import NixstrCache.Lib.KeyedTable

/-!
The content-addressed blob store: its catalog, its directory and its operations.

The database part of the state is a record of keyed tables with the two foreign keys of the schema:
deleting a catalog row cascades to its owner rows and fails while a route component refers to it.
The directory maps a hash to the content stored under that name.  Each operation is a program that
commits states one after the other, so that a stop in the middle of an operation is a state of its
own.  A file removal asks an oracle, which gives the error text of a removal that fails; removing a
missing file reports that it was not found.  Files under the temporary directory carry fresh names
and nothing reads them back, so they are left out.
-/

namespace NixstrCache.Persistence

open Durable KeyedTable

inductive Failure where
  | typeError (message : String)
  | rangeError (message : String)
  | error (message : String)
  | writeConflict
  | uniqueConstraint
  | foreignKeyConstraint
deriving DecidableEq, Repr

inductive BlobOrigin where
  | write
  | remote
  | mixed
deriving DecidableEq, Repr

inductive BlobState where
  | ready
  | deleting
deriving DecidableEq, Repr

/-- The owner names in use: `upload:<id>`, `route:<route>`, `run:<id>`, `batch:<id>`, `saga:<id>`. -/
inductive Owner where
  | upload (id : String)
  | route (route : String)
  | run (id : String)
  | batch (id : ℕ)
  | saga (id : ℕ)
deriving DecidableEq, Repr

def Owner.isRoute : Owner → Bool
  | .route _ => true
  | _ => false

structure CatalogRow (Hash : Type) where
  hash : Hash
  size : ℕ
  origin : BlobOrigin
  lastAccessed : ℕ
  state : BlobState
deriving DecidableEq, Repr

structure OwnerRow (Hash : Type) where
  owner : Owner
  hash : Hash
deriving DecidableEq, Repr

structure ReservationRow where
  token : String
  bytes : ℕ
  createdAt : ℕ
deriving DecidableEq, Repr

structure TombstoneRow (Hash : Type) where
  hash : Hash
  retryAt : ℕ
  lastError : String
deriving DecidableEq, Repr

structure RouteRow where
  route : String
  size : ℕ
  componentCount : ℕ
deriving DecidableEq, Repr

structure ComponentRow (Hash : Type) where
  route : String
  index : ℕ
  hash : Hash
  size : ℕ
deriving DecidableEq, Repr

structure RouteComponent (Hash : Type) where
  index : ℕ
  hash : Hash
  size : ℕ
deriving DecidableEq, Repr

structure BlobFile (Hash Content : Type) where
  name : Hash
  content : Content
deriving DecidableEq, Repr

structure BlobInventoryEntry (Hash : Type) where
  hash : Hash
  size : ℕ
  origin : BlobOrigin
  lastAccessed : ℕ
  owners : ℕ
deriving DecidableEq, Repr

def OwnerRow.key {Hash : Type} (r : OwnerRow Hash) : Owner × Hash := (r.owner, r.hash)

def ComponentRow.key {Hash : Type} (r : ComponentRow Hash) : String × ℕ := (r.route, r.index)

structure BlobDatabase (Hash : Type) where
  catalog : Table (CatalogRow.hash : CatalogRow Hash → Hash)
  owners : Table (OwnerRow.key : OwnerRow Hash → Owner × Hash)
  reservations : Table ReservationRow.token
  tombstones : Table (TombstoneRow.hash : TombstoneRow Hash → Hash)
  routes : Table RouteRow.route
  components : Table (ComponentRow.key : ComponentRow Hash → String × ℕ)

/-- The database, the blob directory and the leases held by this process. -/
structure BlobStore (Hash Content : Type) where
  db : BlobDatabase Hash
  files : Table (BlobFile.name : BlobFile Hash Content → Hash)
  leases : Hash → ℕ
  capacity : ℕ

namespace BlobStore

variable {Hash Content : Type} [LinearOrder Hash]

abbrev StoreProgram (Hash Content α : Type) := Program (BlobStore Hash Content) Failure α

def empty (capacity : ℕ) : BlobStore Hash Content where
  db := ⟨.empty, .empty, .empty, .empty, .empty, .empty⟩
  files := .empty
  leases := fun _ => 0
  capacity := capacity

section Statements

variable (s : BlobStore Hash Content) (hash : Hash)

def row? : Option (CatalogRow Hash) :=
  s.db.catalog.find? hash

def file? : Option (BlobFile Hash Content) :=
  s.files.find? hash

/-- `has`: a ready row exists. -/
def has : Bool :=
  (s.row? hash).any fun r => r.state = .ready

def owned : Bool :=
  s.db.owners.rows.any fun r => r.hash = hash

def referenced : Bool :=
  s.db.components.rows.any fun r => r.hash = hash

def leased : Bool :=
  0 < s.leases hash

def readyBytes : ℕ :=
  ((s.db.catalog.rows.filter fun r => r.state = .ready).map CatalogRow.size).sum

def reservedBytes : ℕ :=
  (s.db.reservations.rows.map ReservationRow.bytes).sum

def fits (required : ℕ) : Bool :=
  s.readyBytes + s.reservedBytes + required ≤ s.capacity

def readyRows : List (CatalogRow Hash) :=
  s.db.catalog.rows.filter fun r => r.state = .ready

def fitsWithout (hs : List Hash) (required : ℕ) : Bool :=
  ((s.readyRows.filter fun r => r.hash ∉ hs).map CatalogRow.size).sum + s.reservedBytes + required ≤
    s.capacity

def setState (state : BlobState) : BlobStore Hash Content :=
  { s with db := { s.db with
      catalog := s.db.catalog.update
        (fun r => if r.hash = hash then { r with state := state } else r)
        (fun r => by split <;> rfl) } }

def touch (now : ℕ) : BlobStore Hash Content :=
  { s with db := { s.db with
      catalog := s.db.catalog.update
        (fun r => if r.hash = hash then { r with lastAccessed := now } else r)
        (fun r => by split <;> rfl) } }

def deleteRow : BlobStore Hash Content :=
  { s with db := { s.db with
      catalog := s.db.catalog.filter fun r => r.hash ≠ hash
      owners := s.db.owners.filter fun r => r.hash ≠ hash } }

def setTombstone (now : ℕ) (lastError : String) : BlobStore Hash Content :=
  { s with db := { s.db with
      tombstones := s.db.tombstones.insertOrReplace ⟨hash, now, lastError⟩ } }

def clearTombstone : BlobStore Hash Content :=
  { s with db := { s.db with
      tombstones := s.db.tombstones.filter fun r => r.hash ≠ hash } }

def removeFile : BlobStore Hash Content :=
  { s with files := s.files.filter fun f => f.name ≠ hash }

def linkFile (content : Content) : BlobStore Hash Content :=
  { s with files := s.files.insertOrIgnore ⟨hash, content⟩ }

def addOwner (owner : Owner) : BlobStore Hash Content :=
  { s with db := { s.db with owners := s.db.owners.insertOrIgnore ⟨owner, hash⟩ } }

def removeOwner (owner : Owner) : BlobStore Hash Content :=
  { s with db := { s.db with
      owners := s.db.owners.filter fun r => ¬(r.owner = owner ∧ r.hash = hash) } }

def ownedBy (owner : Owner) : List Hash :=
  (s.db.owners.rows.filter fun r => r.owner = owner).map OwnerRow.hash

def removeOwnerAll (owner : Owner) : BlobStore Hash Content :=
  { s with db := { s.db with owners := s.db.owners.filter fun r => r.owner ≠ owner } }

/-- `INSERT OR IGNORE INTO owners SELECT target, hash FROM owners WHERE owner = source`. -/
def copyOwner (source target : Owner) : BlobStore Hash Content :=
  { s with db := { s.db with
      owners := s.db.owners.insertAllOrIgnore ((s.ownedBy source).map fun h => ⟨target, h⟩) } }

def setLease (count : ℕ) : BlobStore Hash Content :=
  { s with leases := Function.update s.leases hash count }

def dropReservation (token : String) : BlobStore Hash Content :=
  { s with db := { s.db with
      reservations := s.db.reservations.filter fun r => r.token ≠ token } }

end Statements

/-- What a removal of the file under a hash reports, with `String(error)` where it fails. -/
inductive Removal where
  | removed
  | notFound
  | failed (message : String)
deriving DecidableEq, Repr

def removal (s : BlobStore Hash Content) (fails : Hash → Option String) (hash : Hash) : Removal :=
  match s.file? hash with
  | none => .notFound
  | some _ =>
    match fails hash with
    | none => .removed
    | some message => .failed message

/-- `#delete`.  A failing statement after the removal is caught like a failing removal and leaves a
tombstone; the deletion in the `NotFound` branch is outside the `try` and its failure escapes. -/
def delete (fails : Hash → Option String) (now : ℕ) (hash : Hash) :
    StoreProgram Hash Content Unit := do
  Program.commit fun s => s.setState hash .deleting
  let s ← Program.read
  match s.removal fails hash with
  | .removed =>
    Program.commit fun s => s.removeFile hash
    if s.referenced hash then
      Program.commit fun s => s.setTombstone hash now "Error: FOREIGN KEY constraint failed"
    else
      Program.commit fun s => s.deleteRow hash
      Program.commit fun s => s.clearTombstone hash
  | .notFound =>
    if s.referenced hash then Program.throw .foreignKeyConstraint
    else Program.commit fun s => s.deleteRow hash
  | .failed message => Program.commit fun s => s.setTombstone hash now message

def deleteIfUnownedWrite (fails : Hash → Option String) (now : ℕ) (hash : Hash) :
    StoreProgram Hash Content Unit := do
  let s ← Program.read
  if s.leased hash then pure ()
  else if s.owned hash then pure ()
  else
    match s.row? hash with
    | some r => if r.origin = .write then delete fails now hash else pure ()
    | none => pure ()

/-- `inventory(limit)`: the ready rows by hash with their number of owners. -/
def inventory (s : BlobStore Hash Content) (limit : ℕ) : List (BlobInventoryEntry Hash) :=
  (((s.db.catalog.rows.filter fun r => r.state = .ready).insertionSort
    fun a b => a.hash ≤ b.hash).take limit).map fun r =>
      ⟨r.hash, r.size, r.origin, r.lastAccessed,
        (s.db.owners.rows.filter fun o => o.hash = r.hash).length⟩

def inventoryLimit : ℕ := 10000

/-- `#entry`: the row is looked up in the first page of the inventory only. -/
def entry (s : BlobStore Hash Content) (hash : Hash) : Option (BlobInventoryEntry Hash) :=
  (s.inventory inventoryLimit).find? fun item => item.hash = hash

def sweepWrites (fails : Hash → Option String) (now : ℕ) : StoreProgram Hash Content Unit := do
  let s ← Program.read
  Program.forEach (s.inventory inventoryLimit) fun item =>
    deleteIfUnownedWrite fails now item.hash

def evictable (s : BlobStore Hash Content) : List Hash :=
  ((s.db.catalog.rows.filter fun r =>
      r.state = .ready ∧ r.origin ≠ .write ∧ s.owned r.hash = false).insertionSort
    fun a b => a.lastAccessed < b.lastAccessed ∨ a.lastAccessed = b.lastAccessed ∧ a.hash ≤ b.hash).map
    CatalogRow.hash

def evict (fails : Hash → Option String) (now required : ℕ) :
    List Hash → StoreProgram Hash Content Unit
  | [] => pure ()
  | hash :: rest => do
    let s ← Program.read
    if s.leased hash then evict fails now required rest
    else
      delete fails now hash
      let t ← Program.read
      if t.fits required then pure () else evict fails now required rest

def makeSpace (fails : Hash → Option String) (now required : ℕ) :
    StoreProgram Hash Content Unit := do
  let s ← Program.read
  if s.fits required then pure () else evict fails now required s.evictable

/-- Undoing a transaction restores the database; removed files and leases stay as they are. -/
def rollback (s t : BlobStore Hash Content) : BlobStore Hash Content :=
  { t with db := s.db }

/-- The end of `reserve`: the bytes must fit after the eviction. -/
def insertReservation (token : String) (bytes now : ℕ) : StoreProgram Hash Content Unit :=
  Program.transaction fun s =>
    if s.fits bytes then
      match s.db.reservations.insert? ⟨token, bytes, now⟩ with
      | none => .error .uniqueConstraint
      | some reservations => .ok ((), { s with db := { s.db with reservations := reservations } })
    else .error (.rangeError "blob store capacity unavailable")

def reserve (fails : Hash → Option String) (token : String) (bytes now : ℕ) :
    StoreProgram Hash Content Unit := do
  let s ← Program.read
  if s.capacity < bytes then Program.throw (.rangeError "invalid blob reservation")
  else Program.atomically rollback do
    makeSpace fails now bytes
    insertReservation token bytes now

def releaseReservation (token : String) : StoreProgram Hash Content Unit :=
  Program.commit fun s => s.dropReservation token

section Contents

variable (digest : Content → Hash) (length : Content → ℕ)

/-- The catalog part of `#promote`: the row is inserted, or merged with the row in place. -/
def recordReady (s : BlobStore Hash Content) (hash : Hash) (size : ℕ) (origin : BlobOrigin)
    (now : ℕ) : Except Failure (BlobStore Hash Content) :=
  match s.row? hash with
  | none =>
    .ok { s with db := { s.db with
      catalog := s.db.catalog.insertOrReplace ⟨hash, size, origin, now, .ready⟩ } }
  | some existing =>
    if existing.size ≠ size then .error (.error "blob catalog identity changed")
    else
      let merged := if existing.origin ≠ origin then .mixed else origin
      .ok { s with db := { s.db with
        catalog := s.db.catalog.update
          (fun r => if r.hash = hash then
            { r with origin := merged, lastAccessed := now, state := .ready } else r)
          (fun r => by split <;> rfl) } }

/-- `#promote`, with the digest and the length that `admit` and `admitVerifiedFile` have computed
from the content they wrote.  A tombstone of the hash is left in place. -/
def promote (content : Content) (origin : BlobOrigin) (owner : Option Owner) (token : String)
    (now : ℕ) : StoreProgram Hash Content (Option (BlobInventoryEntry Hash)) := do
  Program.commit fun s => s.linkFile (digest content) content
  Program.transaction fun s =>
    match s.recordReady (digest content) (length content) origin now with
    | .error e => .error e
    | .ok t =>
      let u := match owner with
        | none => t
        | some owner => t.addOwner (digest content) owner
      .ok ((), u.dropReservation token)
  let s ← Program.read
  pure (s.entry (digest content))

/-- `lookup`: a lease on a ready blob whose file is present. -/
def lookup (hash : Hash) (now : ℕ) : StoreProgram Hash Content (Option ℕ) := do
  let s ← Program.read
  match s.row? hash with
  | none => pure none
  | some r =>
    if r.state = .ready ∧ (s.file? hash).isSome then
      Program.commit fun s => s.setLease hash (s.leases hash + 1)
      Program.commit fun s => s.touch hash now
      pure (some r.size)
    else pure none

def releaseLease (fails : Hash → Option String) (now : ℕ) (hash : Hash) :
    StoreProgram Hash Content Unit := do
  Program.commit fun s => s.setLease hash (s.leases hash - 1)
  deleteIfUnownedWrite fails now hash

def acquireOwner (owner : Owner) (hash : Hash) : StoreProgram Hash Content Unit :=
  Program.transaction fun s =>
    if s.has hash then .ok ((), s.addOwner hash owner) else .error (.error "blob not found")

def transferred (s : BlobStore Hash Content) (source target : Owner) (hashes : Option (List Hash)) :
    BlobStore Hash Content :=
  match hashes with
  | none => (s.copyOwner source target).removeOwnerAll source
  | some hashes => hashes.foldl (fun t hash =>
      (if hash ∈ t.ownedBy source then t.addOwner hash target else t).removeOwner hash source) s

/-- `transferOwner`, for all blobs of an owner or for the listed ones. -/
def transferOwner (fails : Hash → Option String) (now : ℕ) (source target : Owner)
    (hashes : Option (List Hash)) : StoreProgram Hash Content Unit := do
  Program.commit fun s => s.transferred source target hashes
  sweepWrites fails now

/-- `releaseOwner(owner)`. -/
def releaseOwner (fails : Hash → Option String) (now : ℕ) (owner : Owner) :
    StoreProgram Hash Content Unit := do
  let s ← Program.read
  Program.commit fun t => t.removeOwnerAll owner
  Program.forEach (s.ownedBy owner) fun hash => deleteIfUnownedWrite fails now hash

/-- `releaseOwner(owner, hash)`. -/
def releaseOwnerOf (fails : Hash → Option String) (now : ℕ) (owner : Owner) (hash : Hash) :
    StoreProgram Hash Content Unit := do
  Program.commit fun s => s.removeOwner hash owner
  deleteIfUnownedWrite fails now hash

def routeComponents (s : BlobStore Hash Content) (route : String) : List (RouteComponent Hash) :=
  ((s.db.components.rows.filter fun r => r.route = route).insertionSort
    fun a b => a.index ≤ b.index).map fun r => ⟨r.index, r.hash, r.size⟩

/-- The rows of `commitRoute`, one component after the other. -/
def insertComponents (route : String) (uploadOwner : Owner) :
    List (RouteComponent Hash) → BlobStore Hash Content →
      Except Failure (BlobStore Hash Content)
  | [], s => .ok s
  | item :: rest, s =>
    if item.hash ∈ s.ownedBy uploadOwner then
      match s.db.components.insert? ⟨route, item.index, item.hash, item.size⟩ with
      | none => .error .uniqueConstraint
      | some components =>
        insertComponents route uploadOwner rest
          (addOwner { s with db := { s.db with components := components } } item.hash (.route route))
    else .error (.error "upload component ownership missing")

/-- The transaction of `commitRoute`. -/
def insertRoute (route : String) (size : ℕ) (components : List (RouteComponent Hash))
    (uploadOwner : Owner) (s : BlobStore Hash Content) :
    Except Failure (Unit × BlobStore Hash Content) :=
  match insertComponents route uploadOwner components s with
  | .error e => .error e
  | .ok t =>
    match t.db.routes.insert? ⟨route, size, components.length⟩ with
    | none => .error .uniqueConstraint
    | some routes => .ok ((), removeOwnerAll { t with db := { t.db with routes := routes } } uploadOwner)

def commitRoute (fails : Hash → Option String) (now : ℕ) (route : String) (size : ℕ)
    (components : List (RouteComponent Hash)) (uploadOwner : Owner) :
    StoreProgram Hash Content Unit := do
  let s ← Program.read
  let existing := s.routeComponents route
  if existing ≠ [] then
    if existing.map (fun item => (item.hash, item.size)) ≠
        components.map (fun item => (item.hash, item.size)) then
      Program.throw (.error "immutable route conflict")
    else releaseOwner fails now uploadOwner
  else Program.transaction (insertRoute route size components uploadOwner)

/-- `#quarantine`: the damaged file is renamed away and its row deleted. -/
def quarantine (hash : Hash) : StoreProgram Hash Content Unit := do
  Program.commit fun s => s.removeFile hash
  let s ← Program.read
  if s.referenced hash then Program.throw .foreignKeyConstraint
  else Program.commit fun s => s.deleteRow hash

/-- The first pass of `reconcile` on one row of the catalog. -/
def reconcileRow (fails : Hash → Option String) (now : ℕ) (row : CatalogRow Hash) :
    StoreProgram Hash Content Unit := do
  let s ← Program.read
  match s.file? row.hash with
  | none =>
    if s.referenced row.hash then Program.throw .foreignKeyConstraint
    else Program.commit fun s => s.deleteRow row.hash
  | some file =>
    if length file.content ≠ row.size then quarantine row.hash
    else if row.state = .deleting then delete fails now row.hash
    else pure ()

/-- The last pass of `reconcile` on one file of the directory. -/
def reconcileFile (now : ℕ) (file : BlobFile Hash Content) : StoreProgram Hash Content Unit := do
  let s ← Program.read
  if s.has file.name then pure ()
  else if digest file.content ≠ file.name then Program.commit fun s => s.removeFile file.name
  else Program.transaction fun s =>
    match s.db.catalog.insert? ⟨file.name, length file.content, .remote, now, .ready⟩ with
    | none => .error .uniqueConstraint
    | some catalog => .ok ((), { s with db := { s.db with catalog := catalog } })

/-- `reconcile`.  `fails` answers the removals of the first pass and `retries` those of the second,
which removes the file of every tombstone. -/
def reconcile (fails retries : Hash → Option String) (now : ℕ) :
    StoreProgram Hash Content Unit := do
  Program.commit fun s => { s with db := { s.db with reservations := .empty } }
  let s ← Program.read
  Program.forEach s.db.catalog.rows fun row => reconcileRow length fails now row
  let t ← Program.read
  Program.forEach (t.db.tombstones.rows.insertionSort fun a b => a.hash ≤ b.hash) fun row =>
    delete retries now row.hash
  let u ← Program.read
  Program.forEach u.files.rows fun file => reconcileFile digest length now file

end Contents

end BlobStore

end NixstrCache.Persistence

import NixstrCache.Lib.KeyedTable
import NixstrCache.Protocol.Publication

/-!
The signer of the daemon.

`start` gets a key, from a file, from the settings, behind a password or from a remote signer, and asks the
signer for its public key.  Every use of the signer asks for the public key again, before and after it has
signed.  Everything that is asked of a file, a terminal or a signer is awaited, and any other call may go on
meanwhile.
-/

namespace NixstrCache.Signer

open KeyedTable
open Protocol (RawPublication)

/-- `WriteIntent.mode`. -/
inductive WriteMode where
  | disabled
  | localKey
  | nsec
  | nip46
  | nbunksec
  | ncryptsec
deriving DecidableEq, Repr

inductive FailureCode where
  | protectedSource
  | invalidSource
  | connection
  | passwordUnavailable
  | identityChanged
deriving DecidableEq, Repr

inductive SignerState where
  | disconnected
  | connecting
  | ready (pubkey : String)
  | failed (code : FailureCode)
deriving DecidableEq, Repr

/-- The errors that `start` tells apart. -/
inductive SourceError where
  | protectedSource
  | typeError
  | passwordUnavailable
  | other
deriving DecidableEq, Repr

def SourceError.code : SourceError → FailureCode
  | .passwordUnavailable => .passwordUnavailable
  | .protectedSource => .protectedSource
  | .typeError => .invalidSource
  | .other => .connection

structure SignerCapabilityOptions where
  mode : WriteMode
  /-- What `PrivateKeySigner.fromKey` throws for the key of the settings. -/
  nsecError : Option SourceError
  /-- What it throws for the bytes of a file. -/
  keyError : List UInt8 → Option SourceError
  /-- `createNip46Signer` is given. -/
  createsRemote : Bool
  /-- `requestPassword.interactive`, where `requestPassword` is given. -/
  requestPassword : Option Bool

/-- A signer, with the buffer of its key that its own `close` overwrites. -/
structure PublicKeySigner where
  signs : Bool
  key : Option ℕ
deriving DecidableEq, Repr

inductive Phase where
  /-- `start`: `readProtected`, `createNip46Signer`, `requestPassword`, `fromNcryptsec`, `rejected`. -/
  | reading
  | creating
  | asking
  | decrypting
  | rejecting
  /-- `start`: the public key, or the end of `close` of the signer. -/
  | identifying
  | failing (code : FailureCode)
  /-- `close`. -/
  | closing
  /-- `assertIdentity`: the public key that must be `expected`. -/
  | asserting (expected : String)
  /-- `signEvent`: the first check, the way back from it, the event, and the second check. -/
  | checking (expected : String)
  | checked (pubkey : String)
  | signing (pubkey : String)
  | confirming (pubkey : String) (event : RawPublication) (expected : String)
  | ended
  | asserted (pubkey : String)
  | returned (event : RawPublication)
  | thrown
deriving DecidableEq, Repr

/-- `start` is still under way. -/
def Phase.starting : Phase → Bool
  | .reading | .creating | .asking | .decrypting | .rejecting | .identifying | .failing _ => true
  | _ => false

structure SignerCall where
  id : ℕ
  /-- The buffer with the bytes of the file. -/
  owned : Option ℕ
  aborted : Bool
  phase : Phase
deriving DecidableEq, Repr

structure SignerCapability where
  state : SignerState
  active : Option PublicKeySigner
  retainedKey : Option ℕ
  closed : Bool
  /-- The buffers with a key that a signer uses, or with the bytes of a file, that have not been overwritten.
  The copy that `fromKey` is given is not one of them when it throws, nor what is decrypted to no key. -/
  secrets : List ℕ
  nextKey : ℕ
  calls : Table SignerCall.id

inductive Answer where
  | rejected (error : SourceError)
  | done
  | content (bytes : List UInt8)
  | password
  /-- The length of the key. -/
  | decrypted (keyLength : ℕ)
  | remote (signs : Bool)
  | pubkey (pubkey : String)
  | event (event : RawPublication)
deriving DecidableEq, Repr

inductive SignerLabel where
  | start (id : ℕ)
  | close (id : ℕ)
  | assertIdentity (id : ℕ)
  | signEvent (id : ℕ) (aborted : Bool)
  | settle (id : ℕ) (answer : Answer)
  /-- The way back of `signEvent` from `assertIdentity`. -/
  | resume (id : ℕ)
  | abort (id : ℕ)
deriving DecidableEq, Repr

namespace SignerCapability

variable (o : SignerCapabilityOptions) (s : SignerCapability) (call : SignerCall)

def next (state : SignerState) : SignerCapability :=
  { s with state := state }

/-- `fill(0)`. -/
def erase (key : Option ℕ) : SignerCapability :=
  { s with secrets := s.secrets.filter fun k => some k ≠ key }

def await (phase : Phase) : SignerCapability :=
  { s with
    calls := s.calls.update (fun c => if c.id = call.id then { call with phase := phase } else c)
      (fun c => by split <;> simp_all) }

def begin (id : ℕ) (aborted : Bool) (phase : Phase) : SignerCapability :=
  match s.calls.insert? ⟨id, none, aborted, phase⟩ with
  | none => s
  | some calls => { s with calls := calls }

/-- The `catch` of `start`, up to the end of `close` of the signer. -/
def fail (error : SourceError) : SignerCapability :=
  (s.erase (s.active.bind (·.key))).await call (.failing error.code)

/-- The rest of the `catch`, and the `finally`. -/
def failed (code : FailureCode) : SignerCapability :=
  (({ s.erase s.retainedKey with active := none, retainedKey := none }.next (.failed code)).erase
    call.owned).await call .ended

/-- A signer with a key in this process, which `start` retains; `close` of the signer may overwrite it. -/
def hold (closes : Bool) : SignerCapability :=
  { s with
    active := some ⟨true, if closes then some s.nextKey else none⟩
    retainedKey := some s.nextKey
    secrets := s.nextKey :: s.secrets
    nextKey := s.nextKey + 1 }

def ask : SignerCapability :=
  s.await call (if s.active.isSome then .identifying else .asking)

/-- `start` after `connecting`, up to its first `await`. -/
def enter : SignerCapability :=
  match o.mode with
  | .disabled => s
  | .localKey => s.await call .reading
  | .nsec =>
    match o.nsecError with
    | some error => s.fail call error
    | none => (s.hold false).await call .identifying
  | .nip46 => if o.createsRemote then s.await call .reading else s.fail call .protectedSource
  | .nbunksec => if o.createsRemote then s.await call .creating else s.fail call .protectedSource
  | .ncryptsec => if o.requestPassword.isSome then s.ask call else s.fail call .passwordUnavailable

def consume (bytes : List UInt8) : SignerCapability :=
  let call := { call with owned := some s.nextKey }
  let s := { s with secrets := s.nextKey :: s.secrets, nextKey := s.nextKey + 1 }
  if o.mode = .localKey then
    if bytes.length ≠ 32 then s.fail call .typeError
    else
      match o.keyError bytes with
      | some error => s.fail call error
      | none => (s.hold false).await call .identifying
  else if (String.fromUTF8? ⟨bytes.toArray⟩).isNone then s.fail call .typeError
  else s.await call .creating

def wrong : SignerCapability :=
  if o.requestPassword = some true then s.await call .rejecting else s.fail call .typeError

/-- The check of `assertIdentity` and `signEvent` before anything is awaited. -/
def identity : Option String :=
  match s.state, s.active with
  | .ready pubkey, some _ => if s.closed then none else some pubkey
  | _, _ => none

/-- `assertIdentity` with the answer of the signer. -/
def compare (expected : String) (answer : Answer) (passed : Phase) : SignerCapability :=
  match answer with
  | .pubkey pubkey =>
    if pubkey = expected then s.await call passed
    else (s.next (.failed .identityChanged)).await call .thrown
  | .rejected _ => s.await call .thrown
  | _ => s

/-- An awaited promise of a call settles. -/
def settle (answer : Answer) : SignerCapability :=
  match call.phase, answer with
  | .reading, .content bytes => s.consume o call bytes
  | .creating, .remote signs => { s with active := some ⟨signs, none⟩ }.await call .identifying
  | .asking, .password => s.await call .decrypting
  | .asking, .rejected _ => s.fail call .passwordUnavailable
  | .decrypting, .decrypted keyLength =>
    if keyLength = 32 then (s.hold true).await call .identifying else s.wrong o call
  | .decrypting, .rejected _ => s.wrong o call
  | .rejecting, .done => s.ask call
  | .identifying, .pubkey pubkey => ((s.next (.ready pubkey)).erase call.owned).await call .ended
  | .reading, .rejected error | .creating, .rejected error | .rejecting, .rejected error
  | .identifying, .rejected error => s.fail call error
  | .failing code, _ => s.failed call code
  | .closing, _ =>
    ({ s.erase s.retainedKey with active := none, retainedKey := none }.next .disconnected).await call .ended
  | .asserting expected, answer => s.compare call expected answer (.asserted expected)
  | .checking expected, answer => s.compare call expected answer (.checked expected)
  | .signing pubkey, .event event =>
    match if call.aborted then none else s.identity with
    | none => s.await call .thrown
    | some expected => s.await call (.confirming pubkey event expected)
  | .signing _, .rejected _ => s.await call .thrown
  | .confirming pubkey event expected, answer =>
    s.compare call expected answer (if event.pubkey = pubkey then .returned event else .thrown)
  | _, _ => s

def sign (pubkey : String) : SignerCapability :=
  s.await call (if s.active.any (·.signs) then .signing pubkey else .thrown)

def step (s : SignerCapability) : SignerLabel → SignerCapability
  | .start id =>
    if (s.calls.find? id).isSome then s
    else if s.closed ∨ o.mode = .disabled then s.begin id false .ended
    else ((s.next .connecting).begin id false .ended).enter o ⟨id, none, false, .ended⟩
  | .close id =>
    if (s.calls.find? id).isSome then s
    else if s.closed then s.begin id false .ended
    else { s.erase (s.active.bind (·.key)) with closed := true }.begin id false .closing
  | .assertIdentity id =>
    match s.identity with
    | none => s.begin id false .thrown
    | some pubkey => s.begin id false (.asserting pubkey)
  | .signEvent id aborted =>
    match if aborted ∨ o.mode = .disabled ∨ ¬s.active.any (·.signs) then none else s.identity with
    | none => s.begin id aborted .thrown
    | some pubkey => s.begin id aborted (.checking pubkey)
  | .settle id answer =>
    match s.calls.find? id with
    | none => s
    | some call => s.settle o call answer
  | .resume id =>
    match s.calls.find? id with
    | some call =>
      match call.phase with
      | .checked pubkey => s.sign call pubkey
      | _ => s
    | none => s
  | .abort id =>
    match s.calls.find? id with
    | none => s
    | some call =>
      match call.phase with
      | .signing _ => if call.aborted then s else s.await call .thrown
      | .checking _ | .checked _ => s.await { call with aborted := true } call.phase
      | _ => s

def initial : SignerCapability :=
  ⟨.disconnected, none, none, false, [], 0, .empty⟩

end SignerCapability

end NixstrCache.Signer

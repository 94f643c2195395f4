import Mathlib.Data.List.Sort
import UwuSsh.Lib.Sha256
import UwuSsh.Lib.Text
import UwuSsh.Store.Keymap
import UwuSsh.Store.Rows

/-!
Records on their way in. Each one is opened, compared with the row that is here
and then written, kept out or passed over; a batch is applied in one
transaction, in an order that puts what a record points at before the record. The
one table with a second key is the known hosts': an address and port has one row, so
a record can take over or lose the slot of another id, and the loser is remembered
as superseded.
-/
namespace UwuSsh

open Text

inductive StoreError
  | vaultLocked
  | invalid (field problem : String)
  | notFound
deriving DecidableEq, Repr

/-- What came of a batch of pulled records. -/
structure ApplyReport where
  applied : ℕ := 0
  kept : ℕ := 0
  identical : ℕ := 0
  skipped : ℕ := 0
  rejected : ℕ := 0
  hostKeyConflicts : ℕ := 0
  manifests : ℕ := 0
deriving DecidableEq, Repr

def ApplyReport.add (a b : ApplyReport) : ApplyReport where
  applied := a.applied + b.applied
  kept := a.kept + b.kept
  identical := a.identical + b.identical
  skipped := a.skipped + b.skipped
  rejected := a.rejected + b.rejected
  hostKeyConflicts := a.hostKeyConflicts + b.hostKeyConflicts
  manifests := a.manifests + b.manifests

/-- A workspace this build does not know shows up as private. -/
def workspaceOf (value : String) : String := if value = "business" then "business" else "private"

def authTypeOf (value : String) : String :=
  if value ∈ ["key", "agent", "keyboard-interactive", "cert"] then value else "password"

/-- The wall clock as the database's signed integer. -/
def Hlc.signedWall (c : Hlc) : Int :=
  if c.wallMs.toNat < 2 ^ 63 then c.wallMs.toNat else c.wallMs.toNat - 2 ^ 64

/-- `(wall, counter, device) > (wall, counter, device)` as the database compares it. -/
def Hlc.sqlAfter (a b : Hlc) : Bool :=
  b.signedWall < a.signedWall || (a.signedWall == b.signedWall &&
    (b.counter < a.counter || (a.counter == b.counter && b.device < a.device)))

/-- A version-8 UUID from the first sixteen bytes of a digest. -/
def versionEight (digest : List UInt8) : Uuid :=
  let bytes := digest.take 16
  let bytes := bytes.set 6 ((bytes.getD 6 0 &&& 0x0f) ||| 0x80)
  let bytes := bytes.set 8 ((bytes.getD 8 0 &&& 0x3f) ||| 0x80)
  BitVec.ofNat 128 (BigEndian.ofBytes bytes)

def utf8Bytes (s : String) : List UInt8 := s.toList.flatMap String.utf8EncodeChar

/-- The id of a device's manifest in a vault. -/
def manifestId (vaultId : Uuid) (device : UInt32) : Uuid :=
  versionEight (Sha256.digest (utf8Bytes "uwussh/manifest/v1" ++
    BigEndian.toBytes 16 vaultId.toNat ++ BigEndian.toBytes 4 device.toNat))

namespace Cols

/-- The columns an applied payload fills. The local ones start out empty. -/
def ofPlain : (kind : EntityKind) → Plain → Option (Cols kind)
  | .host, .json (.host p) => some
      { name := p.name, address := p.address, port := max p.port 1
        workspace := workspaceOf p.workspace, position := p.position, groupId := p.groupId
        identityId := p.identityId, syncExtra := p.extra, lastConnectedMs := none, osId := none
        : HostCols }
  | .group, .json (.group p) => some
      { workspace := workspaceOf p.workspace, name := p.name, position := p.position
        syncExtra := p.extra : GroupCols }
  | .identity, .json (.identity p) => some
      { label := p.label, username := p.username, authType := authTypeOf p.authType
        keyId := p.keyId, passwordSecretId := p.passwordSecretId, syncExtra := p.extra
        keyPath := none : IdentityCols }
  | .key, .json (.key p) => some
      { label := p.label, keyType := p.keyType, publicKey := p.publicKey
        privateSecretId := p.privateSecretId, passphraseSecretId := p.passphraseSecretId
        syncExtra := p.extra : KeyCols }
  | .snippet, .json (.snippet p) => some
      { label := p.label, body := p.body, groupPath := p.groupPath, syncExtra := p.extra
        : SnippetCols }
  | .portForward, .json (.portForward p) => some
      { hostId := p.hostId, name := p.name, kind := p.kind, bindAddress := p.bindAddress
        bindPort := p.bindPort, targetHost := p.targetHost, targetPort := p.targetPort
        autostart := p.autostart, syncExtra := p.extra : PortForwardCols }
  | .knownHost, .json (.knownHost p) => some
      { address := asciiLower (trim p.address), port := p.port, algorithm := p.algorithm
        fingerprintSha256 := p.fingerprintSha256, publicKey := p.publicKey
        firstSeenMs := p.firstSeenMs, syncExtra := p.extra : KnownHostCols }
  | .assistConfig, .json (.assistConfig p) => some p
  | .assistCache, .json (.assistCache p) => some
      { platform := p.platform, request := p.request, normalized := p.normalized
        command := p.command, explanation := p.explanation, dangerous := p.dangerous
        createdMs := p.createdMs, syncExtra := p.extra, usedMs := 0, hits := 0 : AssistCacheCols }
  | .keymap, .json (.keymap p) => some p.taken
  | _, _ => none

/-- New columns over a row that is there: the local ones stay as they are. -/
def keepLocal : (kind : EntityKind) → Cols kind → Cols kind → Cols kind
  | .host, old, new =>
      { (new : HostCols) with lastConnectedMs := HostCols.lastConnectedMs old
                              osId := HostCols.osId old }
  | .identity, old, new => { (new : IdentityCols) with keyPath := IdentityCols.keyPath old }
  | .assistCache, old, new =>
      { (new : AssistCacheCols) with usedMs := AssistCacheCols.usedMs old
                                     hits := AssistCacheCols.hits old }
  | _, _, new => new

/-- What a row points at and needs a row for: group, identity, key and secrets. -/
def pointsAt : (kind : EntityKind) → Cols kind → List (EntityKind × Uuid)
  | .host, cols =>
      (HostCols.groupId cols).toList.map (.group, ·) ++
        (HostCols.identityId cols).toList.map (.identity, ·)
  | .identity, cols =>
      (IdentityCols.keyId cols).toList.map (.key, ·) ++
        (IdentityCols.passwordSecretId cols).toList.map (.secret, ·)
  | .key, cols =>
      (KeyCols.privateSecretId cols).toList.map (.secret, ·) ++
        (KeyCols.passphraseSecretId cols).toList.map (.secret, ·)
  | _, _ => []

/-- The columns of a placeholder, for the kinds one is made for. -/
def stub : (kind : EntityKind) → Option (Cols kind)
  | .group => some { workspace := "private", name := "", position := 0, syncExtra := [] : GroupCols }
  | .identity => some
      { label := "", username := "", authType := "password", keyId := none
        passwordSecretId := none, syncExtra := [], keyPath := none : IdentityCols }
  | .key => some
      { label := "", keyType := "", publicKey := "", privateSecretId := none
        passphraseSecretId := none, syncExtra := [] : KeyCols }
  | .secret => some { nonce := [], blob := .raw [] : Sealed }
  | _ => none

/-- What a tombstone leaves of the columns: a secret's ciphertext goes with it. -/
def wiped : (kind : EntityKind) → Cols kind → Cols kind
  | .secret, _ => { nonce := [], blob := .raw [] : Sealed }
  | _, cols => cols

end Cols

def ApplyReport.skip : ApplyReport := { skipped := 1 }

def ApplyReport.reject : ApplyReport := { rejected := 1 }

def unreadable : StoreError := .invalid "record" "unreadable"

namespace Store

/-- Remember that a version of a record was given up without a tombstone. Only
the newest such version per id is kept. -/
def supersede (s : Store) (kind : EntityKind) (id : Uuid) (clock : Hlc) : Store :=
  match s.superseded.lookup id with
  | none => { s with superseded := s.superseded.insert id (kind, clock) }
  | some (oldKind, old) =>
      if clock.sqlAfter old then { s with superseded := s.superseded.insert id (oldKind, clock) }
      else s

/-- `INSERT OR IGNORE` of a placeholder: a live row with the oldest possible clock. -/
def putStub (s : Store) (vaultId : Uuid) (target : EntityKind × Uuid) : Store :=
  match s.row? target.1 target.2, Cols.stub target.1 with
  | none, some cols =>
      s.putRow target.1 target.2
        { vaultId, updatedAt := Hlc.zero, rev := 0, deleted := false, dirty := false
          serverSeq := 0, cols }
  | _, _ => s

/-- `INSERT … ON CONFLICT (id) DO UPDATE`: the row the envelope carries, clean. -/
def upsertRecord (s : Store) (kind : EntityKind) (env : Envelope) (cols : Cols kind) : Store :=
  match s.row? kind env.id with
  | none =>
      s.putRow kind env.id
        { vaultId := env.vaultId, updatedAt := env.updatedAt, rev := 1, deleted := false
          dirty := false, serverSeq := env.seq.getD 0, cols }
  | some row =>
      s.putRow kind env.id
        { row with
          updatedAt := env.updatedAt, rev := row.rev + 1, deleted := false, dirty := false
          serverSeq := env.seq.getD 0, cols := Cols.keepLocal kind row.cols cols }

/-- The row that has the slot of an address and port under another id. -/
def rivalOf (s : Store) (id : Uuid) (address : String) (port : UInt16) :
    Option (Uuid × Row KnownHostCols) :=
  ((s.tables .knownHost).entries.map fun e => ((e.1, e.2) : Uuid × Row KnownHostCols)).find?
    fun e => e.2.cols.address = address ∧ e.2.cols.port = port ∧ e.1 ≠ id

/-- One key per address and port: of two records for one slot the newer one
takes it, and the other is remembered as superseded. -/
def applyKnownHost (s : Store) (env : Envelope) (cols : KnownHostCols) (thisDevice : UInt32) :
    Store × ApplyReport :=
  match s.rivalOf env.id cols.address cols.port with
  | none => (s.upsertRecord .knownHost env cols, { applied := 1 })
  | some (rivalId, rival) =>
      let conflicts :=
        if rival.cols.fingerprintSha256 ≠ cols.fingerprintSha256 ∧
          env.updatedAt.device ≠ thisDevice then 1 else 0
      if env.updatedAt < rival.updatedAt then
        (s.supersede .knownHost env.id env.updatedAt, { kept := 1, hostKeyConflicts := conflicts })
      else
        (((s.supersede .knownHost rivalId rival.updatedAt).dropRow .knownHost rivalId).upsertRecord
          .knownHost env cols, { applied := 1, hostKeyConflicts := conflicts })

/-- Write a record, whether it is new here or a newer version of one we have. -/
def insertRecord (s : Store) (vault : UnlockedVault) (env : Envelope) (plain : Plain)
    (thisDevice : UInt32) : Except StoreError (Store × ApplyReport) :=
  match env.kind with
  | .terminalProfile => .ok (s, .skip)
  | .secret =>
      .ok (s.upsertRecord .secret env (vault.sealStored env.id .secret plain), { applied := 1 })
  | .manifest =>
      match plain with
      | .json _ => .ok (s, .skip)
      | .bytes payload =>
          match Manifest.decode payload with
          | none => .ok (s, .skip)
          | some manifest =>
              if env.id ≠ manifestId env.vaultId manifest.device then .ok (s, .reject)
              else .ok (s.upsertRecord .manifest env payload, { applied := 1 })
  | .knownHost =>
      match Cols.ofPlain .knownHost plain with
      | none => .error unreadable
      | some cols => .ok (s.applyKnownHost env cols thisDevice)
  | kind =>
      match Cols.ofPlain kind plain with
      | none => .error unreadable
      | some cols =>
          .ok (((Cols.pointsAt kind cols).foldl (fun s target => s.putStub env.vaultId target)
            s).upsertRecord kind env cols, { applied := 1 })

/-- The tombstone an envelope brings for a row that is here. -/
def tombstoneRecord (s : Store) (env : Envelope) : Store :=
  s.updateRow env.kind env.id fun row =>
    { row with
      updatedAt := env.updatedAt, rev := row.rev + 1, deleted := true, dirty := false
      serverSeq := env.seq.getD 0, cols := Cols.wiped env.kind row.cols }

/-- Apply one pulled record. -/
def applyOne (s : Store) (vault : UnlockedVault) (env : Envelope) (thisDevice : UInt32) :
    Except StoreError (Store × ApplyReport) :=
  if env.vaultId ≠ vault.vaultId then .ok (s, .reject)
  else if !env.kind.hasTable then .ok (s, .skip)
  else
    match vault.openEnvelope env with
    | none => .ok (s, .reject)
    | some plain =>
        match s.row? env.kind env.id with
        | none =>
            -- Something we never had was deleted somewhere else.
            if env.deleted then .ok (s, .skip) else s.insertRecord vault env plain thisDevice
        | some row =>
            match resolve row.version env.version with
            | .identical =>
                .ok (s.updateRow env.kind env.id fun row =>
                  { row with dirty := false, serverSeq := env.seq.getD 0 }, { identical := 1 })
            | .keepLocal =>
                .ok (s.updateRow env.kind env.id fun row =>
                  { row with serverSeq := env.seq.getD 0 }, { kept := 1 })
            | .takeRemote =>
                if env.deleted then .ok (s.tombstoneRecord env, { applied := 1 })
                else s.insertRecord vault env plain thisDevice

/-- A manifest that is not rejected is counted on its own. -/
def countOutcome (env : Envelope) (report outcome : ApplyReport) : ApplyReport :=
  if env.kind = .manifest ∧ outcome.rejected = 0 then
    { report with manifests := report.manifests + 1 }
  else report.add outcome

/-- The records of a batch one after the other, with the newest clock among
those that were not rejected. -/
def applyAll (vault : UnlockedVault) (thisDevice : UInt32) :
    List Envelope → Store → ApplyReport → Option Hlc →
      Except StoreError (Store × ApplyReport × Option Hlc)
  | [], s, report, newest => .ok (s, report, newest)
  | env :: rest, s, report, newest =>
      match s.applyOne vault env thisDevice with
      | .error e => .error e
      | .ok (s', outcome) =>
          applyAll vault thisDevice rest s' (countOutcome env report outcome)
            (if outcome.rejected = 0 then some (newest.elim env.updatedAt (max · env.updatedAt))
              else newest)

/-- What a batch is sorted by: the rank of the kind, then the server number. -/
def applyBefore (a b : Envelope) : Prop :=
  a.kind.applyRank < b.kind.applyRank ∨
    (a.kind.applyRank = b.kind.applyRank ∧ a.seq.getD 0 ≤ b.seq.getD 0)

instance : DecidableRel applyBefore := fun _ _ => inferInstanceAs (Decidable (_ ∨ _))

/-- Apply records pulled from the server, in one transaction: an error leaves
the store as it was. -/
def applyEnvelopes (s : Store) (envelopes : List Envelope) (nowMs : UInt64) :
    Except StoreError (Store × ApplyReport) :=
  if envelopes.isEmpty then .ok (s, {})
  else
    match s.vault with
    | none => .error .vaultLocked
    | some vault =>
        match applyAll vault s.device (envelopes.insertionSort applyBefore) s {} none with
        | .error e => .error e
        | .ok (s', report, newest) =>
            .ok (newest.elim s' fun remote => s'.setClock (s'.clock.merge remote nowMs), report)

end Store

end UwuSsh

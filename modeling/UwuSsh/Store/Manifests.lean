import UwuSsh.Store.Pending

/-!
Manifests on this device: writing its own, and holding everyone's against what
is here. A manifest lists the rows the server has confirmed and nothing has changed
since. A check takes the newest listed version of every record and wants it here, or a
later one, a tombstone, or a recorded supersession; what it finds replaces what the
last check found.
-/
namespace UwuSsh

/-- The order a manifest lists kinds in, which is also what survives when it is cut. -/
def manifestPriority : List EntityKind :=
  [.knownHost, .key, .secret, .identity, .host, .group, .portForward, .snippet, .assistConfig,
    .assistCache, .keymap]

/-- What the last check found, as the page shows it. -/
structure Withheld where
  records : ℕ := 0
  hostKeys : Bool := false
deriving DecidableEq, Repr

/-- A floor that any other device's manifest made since can meet. -/
def anyManifest : Uuid := BitVec.allOnes 128

/-- Kinds whose violations put host keys in doubt. -/
def EntityKind.isHostKeyKind (kind : EntityKind) : Bool := kind == .knownHost || kind == .manifest

namespace ManifestEntry

/-- The newest version of one record over all manifests: the later clock, and at
the same clock the tombstone. -/
def newer (kept entry : ManifestEntry) : ManifestEntry :=
  if kept.updatedAt < entry.updatedAt ∨
      (kept.updatedAt = entry.updatedAt ∧ kept.deleted = false ∧ entry.deleted = true) then entry
  else kept

end ManifestEntry

namespace Store

/-- Advance this device's clock inside a write transaction. -/
def tick (s : Store) (nowMs : UInt64) : Store × Hlc :=
  let next := s.clock.tick nowMs
  (s.setClock next, next)

def ownManifestId (s : Store) : Uuid := manifestId s.vaultId s.device

/-- A record, not a placeholder: some part of its clock is above zero. -/
def realClock (c : Hlc) : Bool := 0 < c.signedWall || 0 < c.counter || 0 < c.device

/-- The rows of one kind a manifest lists, by id. -/
def listedRows (s : Store) (kind : EntityKind) : List ManifestEntry :=
  ((((s.tables kind).entries.map fun e => ((e.1, e.2) : Uuid × Row (Cols kind))).filter fun e =>
    !e.2.dirty && 0 < e.2.serverSeq && realClock e.2.updatedAt).insertionSort
      fun a b => a.1.toNat ≤ b.1.toNat).map
    fun e => ManifestEntry.new kind e.1 e.2.updatedAt e.2.deleted

def manifestEntries (s : Store) : List ManifestEntry := manifestPriority.flatMap s.listedRows

/-- Write a new manifest for this device if what it holds changed since the last
one. Returns whether there is a new one to push. -/
def refreshManifest (s : Store) (nowMs : UInt64) : Store × Bool :=
  let listed := s.manifestEntries
  let isPartial := decide (maxManifestEntries < listed.length)
  let entries := listed.take maxManifestEntries
  let row := s.row? .manifest s.ownManifestId
  let previous := (row.filter fun r => !r.deleted).bind fun r => Manifest.decode r.cols
  if previous.any fun m => m.device == s.device && m.partialList == isPartial && m.entries == entries then
    (s, false)
  else
    let (s', clock) := s.tick nowMs
    let payload : List UInt8 :=
      Manifest.encode { device := s.device, createdAt := clock, partialList := isPartial, entries }
    -- The server's version of the row stays, so the push is based on it.
    let next : Row (Cols .manifest) :=
      match row with
      | none =>
          { vaultId := s.vaultId, updatedAt := clock, rev := 1, deleted := false, dirty := true
            serverSeq := 0, cols := payload }
      | some r =>
          { r with updatedAt := clock, rev := r.rev + 1, deleted := false, dirty := true
                   cols := payload }
    (s'.putRow .manifest s.ownManifestId next, true)

/-- `INSERT OR IGNORE` and `INSERT OR REPLACE` of one violation. -/
def noteViolation (s : Store) (v : Violation) : Store :=
  if s.violations.any fun w => w.kind == v.kind && w.id == v.id then s
  else { s with violations := v :: s.violations }

def replaceViolation (s : Store) (v : Violation) : Store :=
  { s with violations := v :: s.violations.filter fun w => !(w.kind == v.kind && w.id == v.id) }

/-- Remember the manifest the device that added this one had published. -/
def setManifestFloor (s : Store) (floor : Option (Uuid × Hlc)) : Store :=
  match floor with
  | none => { s with floor := none }
  | some f =>
      { s with floor := some f }.noteViolation { kind := .manifest, id := f.1, problem := .unchecked }

def waitForAnyManifest (s : Store) (nowMs : UInt64) : Store :=
  s.setManifestFloor (some (anyManifest, { wallMs := nowMs, counter := 0, device := 0 }))

/-- What the last check found. A manifest not checked yet counts only against host keys. -/
def withheld (s : Store) : Withheld where
  records := s.violations.countP fun v => v.problem ≠ .unchecked
  hostKeys := s.violations.any fun v => v.kind.isHostKeyKind

/-- Write down that a pull did not reach the end. -/
def noteIncompletePull (s : Store) : Store × Withheld :=
  let s' := s.replaceViolation { kind := .manifest, id := 0, problem := .incomplete }
  (s', s'.withheld)

/-- Whether one listed version is accounted for here, and if not, how. -/
def checkEntry (s : Store) (kind : EntityKind) (entry : ManifestEntry) : Option Problem :=
  let superseded := (s.superseded.lookup entry.id).any fun g => entry.updatedAt ≤ g.2
  match s.row? kind entry.id with
  | some row =>
      -- A tombstone beats every edit, whenever it was made.
      if row.deleted then none
      else if entry.updatedAt ≤ row.updatedAt then none
      else if superseded then none
      else some .older
  | none =>
      -- A delete of something this device never had.
      if entry.deleted then none
      else if superseded then none
      else some .missing

/-- The manifests held here: id, entries and clock of each live row. -/
def heldManifests (s : Store) : List (Uuid × List UInt8 × Hlc) :=
  (((s.tables .manifest).entries.map fun e => ((e.1, e.2) : Uuid × Row (List UInt8))).filter
    fun e => !e.2.deleted).map fun e => (e.1, e.2.cols, e.2.updatedAt)

/-- Every entry of every manifest that can be read. -/
def heldEntries (s : Store) : List ManifestEntry :=
  s.heldManifests.flatMap fun m => ((Manifest.decode m.2.1).map (·.entries)).getD []

/-- Keep the newest entry per kind and id. -/
def addNewest (kept : AList fun _ : UInt8 × Uuid => ManifestEntry) (entry : ManifestEntry) :
    AList fun _ : UInt8 × Uuid => ManifestEntry :=
  kept.insert (entry.kind, entry.id)
    ((kept.lookup (entry.kind, entry.id)).elim entry fun old => old.newer entry)

def newestEntries (entries : List ManifestEntry) : AList fun _ : UInt8 × Uuid => ManifestEntry :=
  entries.foldl addNewest ∅

/-- The violation one listed version is, if its kind is checked here. -/
def entryViolation (s : Store) (entry : ManifestEntry) : Option Violation :=
  match entry.entityKind.filter fun kind => syncedKinds.contains kind with
  | none => none
  | some kind => (s.checkEntry kind entry).map fun problem => { kind, id := entry.id, problem }

/-- The violation the floor is, if it is not met. -/
def floorViolation (s : Store) : Option Violation :=
  match s.floor with
  | none => none
  | some (floorId, clock) =>
      let problem :=
        if floorId = anyManifest then
          let others := (s.heldManifests.filter fun m => m.1 ≠ s.ownManifestId).map (·.2.2)
          if others.any fun c => clock ≤ c then none else some Problem.unchecked
        else
          match (s.heldManifests.find? fun m => m.1 = floorId).map (·.2.2) with
          | some held => if clock ≤ held then none else some .older
          | none => some .missing
      problem.map fun problem => { kind := .manifest, id := floorId, problem }

/-- What is found missing, one problem per kind and id: the floor's takes the place of
an entry's. -/
def foundViolations (s : Store) : List Violation :=
  let found := ((newestEntries s.heldEntries).entries.map (·.2)).filterMap s.entryViolation
  match s.floorViolation with
  | none => found
  | some v => found.filter (fun w => !(w.kind == v.kind && w.id == v.id)) ++ [v]

/-- Hold every manifest against what is here, and write down what is missing. -/
def checkManifests (s : Store) : Store × Withheld :=
  let s' := { s with violations := s.foundViolations }
  (s', s'.withheld)

end Store

end UwuSsh

import UwuSsh.Store.Manifests

/-!
Host keys the user has decided to trust: one per address and port. While the last
check found something kept back that touches host keys, only keys this device decided
on are answered with.
-/
namespace UwuSsh

open Text

structure KnownHostRecord where
  address : String
  port : UInt16
  algorithm : String
  fingerprint : String
  publicKey : String
  firstSeenMs : UInt64
deriving DecidableEq, Repr

def KnownHostRecord.ofCols (cols : KnownHostCols) : KnownHostRecord where
  address := cols.address
  port := cols.port
  algorithm := cols.algorithm
  fingerprint := cols.fingerprintSha256
  publicKey := cols.publicKey
  firstSeenMs := cols.firstSeenMs

def normalise (address : String) : String := asciiLower (trim address)

namespace Store

def knownHostRows (s : Store) : List (Uuid × Row KnownHostCols) :=
  (s.tables .knownHost).entries.map fun e => (e.1, e.2)

/-- Whether something kept back puts the host keys of other devices in doubt. -/
def hostKeysInDoubt (s : Store) : Bool := s.violations.any fun v => v.kind.isHostKeyKind

/-- The key trusted for an address and port, if any. -/
def knownHost (s : Store) (address : String) (port : UInt16) : Option KnownHostRecord :=
  (s.knownHostRows.find? fun e =>
    e.2.cols.address = normalise address ∧ e.2.cols.port = port ∧ e.2.deleted = false ∧
      (e.2.updatedAt.device = s.device ∨ s.hostKeysInDoubt = false)).map
    fun e => .ofCols e.2.cols

/-- The row that has a slot, a tombstone too. -/
def slotRow (s : Store) (address : String) (port : UInt16) : Option (Uuid × Row KnownHostCols) :=
  s.knownHostRows.find? fun e => e.2.cols.address = address ∧ e.2.cols.port = port

/-- Trust a key for an address and port, replacing whatever was trusted before. -/
def trustHostKey (s : Store) (freshId : Uuid) (nowMs : UInt64) (address : String) (port : UInt16)
    (algorithm fingerprint publicKey : String) : Store :=
  let address := normalise address
  let (s, clock) := s.tick nowMs
  match s.slotRow address port with
  | none =>
      s.putRow .knownHost freshId
        { vaultId := s.vaultId, updatedAt := clock, rev := 1, deleted := false, dirty := true
          serverSeq := 0
          cols := { address, port, algorithm, fingerprintSha256 := fingerprint, publicKey
                    firstSeenMs := nowMs, syncExtra := [] : KnownHostCols } }
  | some (id, row) =>
      s.putRow .knownHost id
        { row with
          updatedAt := clock, rev := row.rev + 1, deleted := false, dirty := true
          cols := { row.cols with
                    algorithm, fingerprintSha256 := fingerprint, publicKey
                    firstSeenMs := nowMs : KnownHostCols } }

/-- Stop trusting the key for an address and port. Returns whether one was trusted. -/
def forgetHostKey (s : Store) (nowMs : UInt64) (address : String) (port : UInt16) : Store × Bool :=
  let (s, clock) := s.tick nowMs
  match (s.slotRow (normalise address) port).filter fun e => !e.2.deleted with
  | none => (s, false)
  | some (id, row) =>
      (s.putRow .knownHost id
        { row with updatedAt := clock, rev := row.rev + 1, deleted := true, dirty := true }, true)

theorem mem_knownHostRows {s : Store} {id : Uuid} {row : Row KnownHostCols} :
    (id, row) ∈ s.knownHostRows ↔ s.row? .knownHost id = some row := by
  rw [knownHostRows, List.mem_map]
  constructor
  · rintro ⟨⟨k, r⟩, hmem, heq⟩
    cases heq
    exact AList.mem_lookup_iff.mpr hmem
  · intro hrow
    exact ⟨⟨id, row⟩, AList.mem_lookup_iff.mp hrow, rfl⟩

/-- What is answered with is a live row of the slot, and while host keys are in doubt it is
one this device wrote. -/
theorem knownHost_spec {s : Store} {address : String} {port : UInt16} {found : KnownHostRecord}
    (h : s.knownHost address port = some found) :
    ∃ id row, s.row? .knownHost id = some row ∧ found = .ofCols row.cols ∧
      KnownHostCols.address row.cols = normalise address ∧ KnownHostCols.port row.cols = port ∧
      row.deleted = false ∧ (s.hostKeysInDoubt = true → row.updatedAt.device = s.device) := by
  obtain ⟨⟨id, row⟩, hfind, rfl⟩ := Option.map_eq_some_iff.mp h
  have hrow := mem_knownHostRows.mp (List.mem_of_find?_eq_some hfind)
  have hprop := List.find?_some hfind
  simp only [decide_eq_true_eq] at hprop
  obtain ⟨haddress, hport, hlive, hown⟩ := hprop
  refine ⟨id, row, hrow, rfl, haddress, hport, hlive, fun hdoubt => ?_⟩
  rcases hown with hown | hcalm
  · exact hown
  · rw [hdoubt] at hcalm
    cases hcalm

end Store

end UwuSsh

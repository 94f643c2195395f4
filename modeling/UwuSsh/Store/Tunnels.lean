import UwuSsh.Store.Records
import UwuSsh.Store.Transact

/-!
Tunnels: the local and remote port forwards of a host. A tunnel is a record of its own that
points at its host by id and stays with the host it was made for.
-/
namespace UwuSsh

open Text Fallible InTx

/-- The address a tunnel listens on when none is given: this computer only. -/
def defaultBindAddress : String := "127.0.0.1"

/-- A host name or address as typed: one word, not a novel. -/
def tunnelAddress (value : Option String) (field : String) : Except LocalError (Option String) :=
  match blankToNone value with
  | none => .ok none
  | some text =>
    if text.toList.any fun c => isWhite c || isControl c then .error (.invalid field "whitespace")
    else if 253 < text.utf8ByteSize then .error (.invalid field "too-long")
    else .ok (some text)

def unknownTunnel : LocalError := .invalid "tunnel" "unknown"

@[irreducible] def TunnelDraft.validated (draft : TunnelDraft) : Except LocalError TunnelDraft := do
  if draft.kind ≠ "local" ∧ draft.kind ≠ "remote" then .error (.invalid "kind" "unknown")
  else
  let bindAddress ← tunnelAddress draft.bindAddress "bindAddress"
  if draft.bindPort = 0 then .error (.invalid "bindPort" "out-of-range")
  else
  match ← tunnelAddress (some draft.targetHost) "targetHost" with
  | none => .error (.invalid "targetHost" "required")
  | some targetHost =>
    if draft.targetPort = 0 then .error (.invalid "targetPort" "out-of-range")
    else
    let name := trim draft.name
    if name.toList.any isControl then .error (.invalid "name" "control")
    else if 80 < name.length then .error (.invalid "name" "too-long")
    else
    -- An empty name says what the tunnel does.
    let shown := toString draft.bindPort.toNat ++ " → " ++ targetHost ++ ":" ++
      toString draft.targetPort.toNat
    return { draft with
      bindAddress := some (bindAddress.getD defaultBindAddress), targetHost
      name := if name.isEmpty then shown else name }

section operations

variable (draws : Draws)

/-- Write a tunnel's fields, into its row or a new one. -/
def writeTunnel (draft : TunnelDraft) (clock : Hlc) : InTx Uuid := do
  match draft.id with
  | none =>
    let id ← newId draws
    insert .portForward id
      ({ hostId := draft.hostId, name := draft.name, kind := draft.kind
         bindAddress := draft.bindAddress.getD "", bindPort := draft.bindPort
         targetHost := draft.targetHost, targetPort := draft.targetPort
         autostart := draft.autostart, syncExtra := [] } : PortForwardCols) clock
    pure id
  | some id =>
    match ← read (·.live? .portForward id) with
    | none => throw unknownTunnel
    | some (row : Row PortForwardCols) =>
      if row.cols.hostId ≠ draft.hostId then throw unknownTunnel
      else
        update .portForward id fun (row : Row PortForwardCols) => row.edited clock
          { row.cols with
            name := draft.name, kind := draft.kind, bindAddress := draft.bindAddress.getD ""
            bindPort := draft.bindPort, targetHost := draft.targetHost
            targetPort := draft.targetPort, autostart := draft.autostart }
        pure id

/-- Add a tunnel to a host, or change one when the draft has an id. -/
def saveTunnel (draft : TunnelDraft) : InTx TunnelRecord := do
  let draft ← lift draft.validated
  if (← read (·.live? .host draft.hostId)).isNone then throw (.unknownHost draft.hostId)
  else
    let clock ← InTx.tick draws
    let id ← writeTunnel draws draft clock
    match ← read (·.getTunnel id) with
    | none => throw unknownTunnel
    | some record => pure record

def deleteTunnel (id : Uuid) : InTx Unit := do
  let clock ← InTx.tick draws
  if (← read (·.live? .portForward id)).isNone then throw unknownTunnel
  else update .portForward id (·.tombed clock)

end operations

end UwuSsh

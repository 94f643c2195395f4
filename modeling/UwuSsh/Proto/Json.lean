import UwuSsh.Proto.Entities

/-!
How long a payload is as compact JSON, which is what decides whether its sealed
form fits into a record or a request. A payload is laid out as a tree of its fields in
declaration order, unknown fields last, and the length of the text is read off
the tree; unknown fields are JSON text already.
-/
namespace UwuSsh

/-- A JSON value, with verbatim text for what a newer build wrote. -/
inductive Json
  | null
  | bool (b : Bool)
  | int (i : Int)
  | str (s : String)
  | arr (items : List Json)
  | obj (fields : List (String × Json))
  | text (s : String)

namespace Json

/-- Bytes one character takes inside a JSON string. -/
def escapedSize (c : Char) : ℕ :=
  if c = '"' ∨ c = '\\' ∨ c = '\n' ∨ c = '\r' ∨ c = '\t' ∨ c.toNat = 8 ∨ c.toNat = 12 then 2
  else if c.toNat < 32 then 6
  else c.utf8Size

def stringSize (s : String) : ℕ := 2 + (s.toList.map escapedSize).sum

/-- Bytes between the brackets: the items and the commas between them. -/
def listSize (sizes : List ℕ) : ℕ := sizes.sum + (sizes.length - 1)

mutual

def size : Json → ℕ
  | .null => 4
  | .bool b => if b then 4 else 5
  | .int i => (toString i).length
  | .str s => stringSize s
  | .arr items => 2 + listSize (itemSizes items)
  | .obj fields => 2 + listSize (fieldSizes fields)
  | .text s => s.utf8ByteSize

def itemSizes : List Json → List ℕ
  | [] => []
  | item :: rest => size item :: itemSizes rest

def fieldSizes : List (String × Json) → List ℕ
  | [] => []
  | (name, value) :: rest => (stringSize name + 1 + size value) :: fieldSizes rest

end

/-- A UUID is written as its 36 characters; only their number matters here. -/
def uuid (_ : Uuid) : Json := .text "\"00000000-0000-0000-0000-000000000000\""

def option {α : Type} (f : α → Json) : Option α → Json
  | none => .null
  | some a => f a

def extra (fields : Extra) : List (String × Json) := fields.map fun f => (f.1, .text f.2)

end Json

open Json

def HostPayload.toJson (p : HostPayload) : Json :=
  .obj ([("name", .str p.name), ("address", .str p.address), ("port", .int p.port.toNat),
    ("workspace", .str p.workspace), ("position", .int p.position.toInt),
    ("group_id", option uuid p.groupId), ("identity_id", option uuid p.identityId)]
    ++ Json.extra p.extra)

def GroupPayload.toJson (p : GroupPayload) : Json :=
  .obj ([("workspace", .str p.workspace), ("name", .str p.name),
    ("position", .int p.position.toInt)] ++ Json.extra p.extra)

def IdentityPayload.toJson (p : IdentityPayload) : Json :=
  .obj ([("label", .str p.label), ("username", .str p.username), ("auth_type", .str p.authType),
    ("key_id", option uuid p.keyId), ("password_secret_id", option uuid p.passwordSecretId)]
    ++ Json.extra p.extra)

def KeyPayload.toJson (p : KeyPayload) : Json :=
  .obj ([("label", .str p.label), ("key_type", .str p.keyType), ("public_key", .str p.publicKey),
    ("private_secret_id", option uuid p.privateSecretId),
    ("passphrase_secret_id", option uuid p.passphraseSecretId)] ++ Json.extra p.extra)

def PortForwardPayload.toJson (p : PortForwardPayload) : Json :=
  .obj ([("host_id", uuid p.hostId), ("name", .str p.name), ("kind", .str p.kind),
    ("bind_address", .str p.bindAddress), ("bind_port", .int p.bindPort.toNat),
    ("target_host", .str p.targetHost), ("target_port", .int p.targetPort.toNat),
    ("autostart", .bool p.autostart)] ++ Json.extra p.extra)

def SnippetPayload.toJson (p : SnippetPayload) : Json :=
  .obj ([("label", .str p.label), ("body", .str p.body), ("group_path", option .str p.groupPath)]
    ++ Json.extra p.extra)

def KnownHostPayload.toJson (p : KnownHostPayload) : Json :=
  .obj ([("address", .str p.address), ("port", .int p.port.toNat), ("algorithm", .str p.algorithm),
    ("fingerprint_sha256", .str p.fingerprintSha256), ("public_key", .str p.publicKey),
    ("first_seen_ms", .int p.firstSeenMs.toNat)] ++ Json.extra p.extra)

def AssistProviderPayload.toJson (p : AssistProviderPayload) : Json :=
  .obj ([("model", .str p.model), ("base_url", option .str p.baseUrl),
    ("key_secret_id", option uuid p.keySecretId)] ++ Json.extra p.extra)

def AssistConfigPayload.toJson (p : AssistConfigPayload) : Json :=
  .obj ([("provider", .str p.provider),
    ("providers", .obj (p.providers.map fun f => (f.1, f.2.toJson)))] ++ Json.extra p.extra)

def AssistCachePayload.toJson (p : AssistCachePayload) : Json :=
  .obj ([("platform", .str p.platform), ("request", .str p.request),
    ("normalized", .str p.normalized), ("command", .str p.command),
    ("explanation", .str p.explanation), ("dangerous", .bool p.dangerous),
    ("created_ms", .int p.createdMs.toNat)] ++ Json.extra p.extra)

/-- A modifier that is not held is not written. -/
def ChordBody.toJson (b : ChordBody) : Json :=
  let p := b.chord
  .obj (([("ctrl", p.ctrl), ("shift", p.shift), ("alt", p.alt), ("meta", p.metaKey)].filter
    (·.2)).map (fun f => (f.1, .bool f.2)) ++ [("code", .str p.code)] ++ Json.extra b.extra)

def KeymapTextPayload.toJson (p : KeymapTextPayload) : Json :=
  .obj ([("label", .str p.label), ("enter", .bool p.enter),
    ("secret_id", option uuid p.secretId), ("position", .int p.position.toNat)]
    ++ Json.extra p.extra)

def KeymapBody.toJson (p : KeymapBody) : Json :=
  .obj ([("bindings", .obj (p.bindings.map fun f => (f.1, .arr (f.2.map ChordBody.toJson)))),
    ("texts", .obj (p.texts.map fun f => (f.1, f.2.toJson)))] ++ Json.extra p.extra)

def Payload.toJson : Payload → Json
  | .host p => p.toJson
  | .group p => p.toJson
  | .identity p => p.toJson
  | .key p => p.toJson
  | .snippet p => p.toJson
  | .portForward p => p.toJson
  | .knownHost p => p.toJson
  | .assistConfig p => p.toJson
  | .assistCache p => p.toJson
  | .keymap p => p.toJson

example : (ChordBody.toJson { chord := { metaKey := true, code := "KeyK" } }).size = 27 := by decide

end UwuSsh

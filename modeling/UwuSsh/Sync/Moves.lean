import UwuSsh.Sync.World

/-!
Runs that can be computed. A move names what a device does next; playing moves
gives the world they lead to, if every one of them is possible, and whatever is played
is a run of the step relation.
-/
namespace UwuSsh

inductive Move
  | write (kind : EntityKind) (id : Uuid) (clock : Hlc) (deleted : Bool) (cols : Cols kind)
  | offer
  | offerApart
  | offerManifest
  /-- The server gets the batch, and its answer arrives. -/
  | deliver
  /-- The server gets the batch, and its answer does not arrive. -/
  | lose
  | mark
  | merge (nowMs : UInt64)
  | fetch
  | apply (nowMs : UInt64)
  | advance
  | cut
  | rewind

/-- The row a move writes, based on what the device has. -/
def Store.rowFor (s : Store) (kind : EntityKind) (id : Uuid) (clock : Hlc) (deleted : Bool)
    (cols : Cols kind) : Row (Cols kind) :=
  { vaultId := s.vaultId, updatedAt := clock, rev := 1, deleted, dirty := true
    serverSeq := (s.cell kind id).base, cols }

/-- Which local writes are tried: decided on the store, the record and its new version. -/
abbrev WriteCheck := Store → EntityKind → Uuid → Version → Bool

namespace Device

def move (check : WriteCheck) (server : MemoryServer) (d : Device) :
    Move → Option (Event × Device × MemoryServer)
  | .write kind id clock deleted cols =>
      let row := d.store.rowFor kind id clock deleted cols
      if check d.store kind id row.version then
        some (.wrote kind id row.version,
          { d with store := (d.store.setClock clock).putRow kind id row }, server)
      else none
  | .offer =>
      match d.store.pendingEnvelopes maxBatch with
      | .ok (sent, _) => some (.offered sent, { d with flight := .pushing sent }, server)
      | .error _ => none
  | .offerApart =>
      match d.store.pendingApartEnvelopes maxBatch with
      | .ok (sent, _) => some (.offered sent, { d with flight := .pushing sent }, server)
      | .error _ => none
  | .offerManifest =>
      match d.store.pendingManifest with
      | .ok (some env) => some (.offered [env], { d with flight := .pushing [env] }, server)
      | _ => none
  | .deliver =>
      match d.flight with
      | .pushing sent =>
          match server.push sent with
          | (server', .ok response) =>
              some (.heard sent response, { d with flight := .answered sent response }, server')
          | _ => none
      | _ => none
  | .lose =>
      match d.flight with
      | .pushing sent =>
          some (.lost sent, { d with flight := .idle }, (server.push sent).1)
      | _ => none
  | .mark =>
      match d.flight with
      | .answered sent response =>
          some (.marked (acceptedOf sent response),
            { store := (d.store.markPushed (acceptedOf sent response)).1
              flight := .merging response.conflicts }, server)
      | _ => none
  | .merge nowMs =>
      match d.flight with
      | .merging conflicts =>
          match d.store.applyEnvelopes conflicts nowMs with
          | .ok (t, _) => some (.applied conflicts, { store := t, flight := .idle }, server)
          | .error _ => none
      | _ => none
  | .fetch =>
      let page := server.pull d.store.cursor maxBatch
      some (.handed d.store.cursor page, { d with flight := .paged page }, server)
  | .apply nowMs =>
      match d.flight with
      | .paged page =>
          match d.store.applyEnvelopes page.envelopes nowMs with
          | .ok (t, _) =>
              some (.applied page.envelopes, { store := t, flight := .applied page }, server)
          | .error _ => none
      | _ => none
  | .advance =>
      match d.flight with
      | .applied page =>
          if d.store.cursor < page.cursor then
            some (.moved page.cursor,
              { store := { d.store with cursor := page.cursor }
                flight := if page.hasMore then .idle else .pulled }, server)
          else some (.stopped, { d with flight := .pulled }, server)
      | _ => none
  | .cut => some (.stopped, { d with flight := .idle }, server)
  | .rewind => some (.moved 0, { store := { d.store with cursor := 0 }, flight := .idle }, server)

/-- What a move leads to is a step of the device that the server answers. -/
theorem step_of_move {check : WriteCheck} {rule : WriteRule}
    (hcheck : ∀ s kind id clock deleted cols,
      check s kind id (s.rowFor kind id clock deleted cols).version = true →
      rule s kind id (s.rowFor kind id clock deleted cols).version
        ((s.setClock clock).putRow kind id (s.rowFor kind id clock deleted cols)))
    {server server' : MemoryServer} {d d' : Device} {e : Event} {m : Move}
    (h : d.move check server m = some (e, d', server')) :
    Step rule d e d' ∧ server.Answers e server' := by
  cases m with
  | write kind id clock deleted cols =>
    simp only [move] at h
    by_cases hok : check d.store kind id (d.store.rowFor kind id clock deleted cols).version = true
    · rw [if_pos hok] at h
      cases h
      exact ⟨.write d (.mk clock _ rfl rfl) (hcheck _ _ _ _ _ _ hok), rfl⟩
    · rw [if_neg hok] at h
      cases h
  | offer =>
    simp only [move] at h
    split at h
    · next sent leftOut hok =>
      cases h
      exact ⟨.offer d (.records hok), rfl⟩
    · cases h
  | offerApart =>
    simp only [move] at h
    split at h
    · next sent leftOut hok =>
      cases h
      exact ⟨.offer d (.apart hok), rfl⟩
    · cases h
  | offerManifest =>
    simp only [move] at h
    split at h
    · next env hok =>
      cases h
      exact ⟨.offer d (.manifest hok), rfl⟩
    · cases h
  | deliver =>
    simp only [move] at h
    split at h
    · next sent hflight =>
      split at h
      · next server'' response hpush =>
        cases h
        exact ⟨.hear d response hflight, hpush⟩
      · cases h
    · cases h
  | lose =>
    simp only [move] at h
    split at h
    · next sent hflight =>
      cases h
      exact ⟨.lose d hflight, _, rfl⟩
    · cases h
  | mark =>
    simp only [move] at h
    split at h
    · next sent response hflight =>
      cases h
      exact ⟨.mark d hflight, rfl⟩
    · cases h
  | merge nowMs =>
    simp only [move] at h
    split at h
    · next conflicts hflight =>
      split at h
      · next t report hok =>
        cases h
        exact ⟨.merge d nowMs hflight hok, rfl⟩
      · cases h
    · cases h
  | fetch =>
    cases h
    exact ⟨.fetch d _, rfl, rfl⟩
  | apply nowMs =>
    simp only [move] at h
    split at h
    · next page hflight =>
      split at h
      · next t report hok =>
        cases h
        exact ⟨.apply d nowMs hflight hok, rfl⟩
      · cases h
    · cases h
  | advance =>
    simp only [move] at h
    split at h
    · next page hflight =>
      by_cases hlt : d.store.cursor < page.cursor
      · rw [if_pos hlt] at h
        cases h
        exact ⟨.advance d hflight hlt, rfl⟩
      · rw [if_neg hlt] at h
        cases h
        exact ⟨.settle d hflight (Nat.le_of_not_lt hlt), rfl⟩
    · cases h
  | cut =>
    cases h
    exact ⟨.cut d, rfl⟩
  | rewind =>
    cases h
    exact ⟨.rewind d, rfl⟩

end Device

namespace World

variable {ι : Type} [DecidableEq ι]

/-- The world after some moves, each by one device. -/
def play (check : WriteCheck) : List (ι × Move) → World ι → Option (World ι)
  | [], w => some w
  | (i, m) :: rest, w =>
      match (w.devices i).move check w.server m with
      | some (e, d, server) => play check rest (w.after i e d server)
      | none => none

theorem steps_of_play {check : WriteCheck} {rule : WriteRule}
    (hcheck : ∀ s kind id clock deleted cols,
      check s kind id (s.rowFor kind id clock deleted cols).version = true →
      rule s kind id (s.rowFor kind id clock deleted cols).version
        ((s.setClock clock).putRow kind id (s.rowFor kind id clock deleted cols)))
    {moves : List (ι × Move)} {w w' : World ι} (h : play check moves w = some w') :
    Run.Steps (Step rule) w w' := by
  induction moves generalizing w with
  | nil =>
    cases h
    exact .refl
  | cons move rest ih =>
    obtain ⟨i, m⟩ := move
    unfold play at h
    split at h
    · next e d server hmove =>
      obtain ⟨hstep, hans⟩ := Device.step_of_move hcheck hmove
      exact .head (.mk w i hstep hans) (ih h)
    · cases h

/-- What holds of the world some moves lead to holds of a world that can be reached. -/
theorem reaches_of_play {check : WriteCheck} {rule : WriteRule}
    (hcheck : ∀ s kind id clock deleted cols,
      check s kind id (s.rowFor kind id clock deleted cols).version = true →
      rule s kind id (s.rowFor kind id clock deleted cols).version
        ((s.setClock clock).putRow kind id (s.rowFor kind id clock deleted cols)))
    (moves : List (ι × Move)) (w : World ι) (P : World ι → Prop) [DecidablePred P]
    (h : (play check moves w).any (fun w => P w) = true) :
    ∃ w', Run.Steps (Step rule) w w' ∧ P w' := by
  cases hplay : play check moves w with
  | none =>
    rw [hplay] at h
    cases h
  | some w' =>
    rw [hplay, Option.any_some] at h
    exact ⟨w', steps_of_play hcheck hplay, of_decide_eq_true h⟩

/-- The writes of the protocol, for kinds that carry no manifest. -/
def risesCheck (kindOf : Uuid → EntityKind) : WriteCheck := fun s kind id v =>
  kind = kindOf id ∧ kind ≠ .manifest ∧ (s.cell kind id).version.updatedAt < v.updatedAt ∧
    ((s.cell kind id).version.deleted → v.deleted)

theorem rises_of_check (kindOf : Uuid → EntityKind) (vault : UnlockedVault) (s : Store)
    (kind : EntityKind) (id : Uuid) (clock : Hlc) (deleted : Bool) (cols : Cols kind)
    (h : risesCheck kindOf s kind id (s.rowFor kind id clock deleted cols).version = true) :
    Rises kindOf vault s kind id (s.rowFor kind id clock deleted cols).version
      ((s.setClock clock).putRow kind id (s.rowFor kind id clock deleted cols)) := by
  simp only [risesCheck, decide_eq_true_eq] at h
  obtain ⟨hkind, hmanifest, hlater, hfinal⟩ := h
  exact ⟨hkind, hlater, hfinal, fun heq => absurd heq hmanifest⟩

section examples

/-- Two devices of one vault, the moves of a push and those of a pull. -/
def exampleVault : UnlockedVault := { vaultId := 7, key := 0 }

def exampleDevice (i : Bool) : UInt32 := if i then 1 else 2

def pushMoves (i : Bool) (nowMs : UInt64) : List (Bool × Move) :=
  [(i, .offer), (i, .deliver), (i, .mark), (i, .merge nowMs)]

def pullMoves (i : Bool) (nowMs : UInt64) : List (Bool × Move) :=
  [(i, .fetch), (i, .apply nowMs), (i, .advance)]

def exampleGroup : GroupCols :=
  { workspace := "private", name := "home", position := 0, syncExtra := [] }

def exampleKey (fingerprint : String) : KnownHostCols :=
  { address := "10.0.0.1", port := 22, algorithm := "ssh-ed25519"
    fingerprintSha256 := fingerprint, publicKey := fingerprint, firstSeenMs := 0
    syncExtra := [] }

end examples

end World

end UwuSsh

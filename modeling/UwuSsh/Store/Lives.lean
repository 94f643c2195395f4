import UwuSsh.Store.Contents
import UwuSsh.Store.Upheld

/-!
A store over its whole life: the user's edits and imports, what syncing takes in and marks, another vault.
References stay whole whatever comes. And as long as no record that comes in is dated further ahead than a
clock follows, no row is later than the store's own clock, so that an edit is later than all of them.
-/
namespace UwuSsh

open Fallible Run

/-- What the user does to a store: an edit, or an import. -/
inductive Edits : Store → Store → Prop
  | user (s : Store) (draws : Draws) (edit : LocalEdit) : Edits s (edit.on draws s)
  | imported {s t : Store} {outcome : ImportOutcome} (draws : Draws) (set : ImportSet) :
      (importInto draws set).commit s = .ok (outcome, t) → Edits s t

/-- What happens to a store: edits, pages of records that come in, marks and lists, another vault, and
whatever leaves the tables alone; not what making another server main copies in, nor a team's new key. -/
inductive Lives (page : List Envelope → UInt64 → Prop) : Store → Store → Prop
  | edited {s t : Store} : Edits s t → Lives page s t
  | applied {s t : Store} {report : ApplyReport} {envelopes : List Envelope} {nowMs : UInt64} :
      page envelopes nowMs → s.applyEnvelopes envelopes nowMs = .ok (t, report) → Lives page s t
  | marked (s : Store) (pushed : List Pushed) : Lives page s (s.markPushed pushed).1
  | listed (s : Store) (nowMs : UInt64) : Lives page s (s.refreshManifest nowMs).1
  | adopted {α : Type} {db t : Database α} {fault : ℕ → Option TxError} {header : VaultHeader} {key : VaultKey}
      {carry : Carry} {also : α → Except TxError α} :
      db.adopt fault header key carry also = (t, .ok ()) → Lives page db.store t.store
  | beside {s t : Store} : t.tables = s.tables → s.clock ≤ t.clock → Lives page s t

/-- A page of which no record is dated further ahead than a clock follows. -/
def Timely (envelopes : List Envelope) (nowMs : UInt64) : Prop :=
  ∀ env ∈ envelopes, env.updatedAt.WithinDrift nowMs

namespace Store

/-! ### References -/

section references

variable {s t : Store} {page : List Envelope → UInt64 → Prop}

theorem Goes.upholds (h : s.Goes s t) : s.Upholds t :=
  ⟨h.sound.closed, fun target hnamed hpresent => h.facts (.there target) (fun _ => hpresent) hnamed⟩

theorem Closed.commit {α : Type} {prog : InTx α} {a : α} (h : s.Closed) (hsafe : Safe [] prog fun _ => [])
    (hrun : prog.commit s = .ok (a, t)) : s.Goes s t := by
  obtain ⟨tx, rfl, hgoes, -⟩ := InTx.of_commit hrun (hsafe s { store := s, drawn := 0 } (sound_start h) facts_nil)
  exact hgoes

theorem Closed.edits (h : s.Closed) (hedit : Edits s t) : s.Goes s t := by
  cases hedit with
  | user draws edit =>
    unfold LocalEdit.on
    cases hrun : (edit.run draws).commit s with
    | error e => exact .refl (sound_start h)
    | ok r => exact h.commit (LocalEdit.safe edit) hrun
  | imported draws set hrun => exact h.commit importInto_safe hrun

/-- Another vault's rows name what they named; only the manifests are gone. -/
theorem Closed.adopt {α : Type} {db t : Database α} {fault : ℕ → Option TxError} {header : VaultHeader}
    {key : VaultKey} {carry : Carry} {also : α → Except TxError α} (h : db.store.Closed)
    (hrun : db.adopt fault header key carry also = (t, .ok ())) : db.store.Upholds t.store := by
  by_cases hsame : db.store.vaultId = header.vaultId
  · rw [Database.adopt, if_pos hsame] at hrun
    cases hrun
    exact .refl h
  have hrows := Database.row?_adopt hsame hrun
  have hkept : ∀ target : Target, target.1 ∈ namedKinds → db.store.Present target → t.store.Present target := by
    rintro ⟨kind, id⟩ hnamed hpresent
    obtain ⟨row, hrow⟩ := Option.isSome_iff_exists.mp hpresent
    have hmanifest : kind ≠ .manifest := by
      rintro rfl
      exact absurd (show EntityKind.manifest ∈ namedKinds from hnamed) (by decide)
    obtain ⟨row', hrow', -⟩ := (Database.adopt_adopted hsame hrun).kept kind id row hmanifest hrow
    exact present_of_row? hrow'
  refine ⟨?_, hkept⟩
  intro kind id row' hrow' target hmem
  obtain ⟨hmanifest, hplain, -⟩ := hrows kind id
  have hfree : kind ≠ .manifest ∧ kind ≠ .secret := by
    constructor <;> rintro rfl <;> cases hmem
  rw [hplain hfree.1 hfree.2] at hrow'
  obtain ⟨row, hrow, rfl⟩ := Option.map_eq_some_iff.mp hrow'
  exact hkept target (Cols.named_of_pointsAt hmem) (h kind id row hrow target hmem)

theorem Closed.step (h : s.Closed) (hstep : Lives page s t) : s.Upholds t := by
  cases hstep with
  | edited hedit => exact (h.edits hedit).upholds
  | applied _ hrun => exact h.applyEnvelopes hrun
  | marked _ pushed => exact h.markPushed pushed
  | listed _ nowMs => exact h.refreshManifest nowMs
  | adopted hrun => exact h.adopt hrun
  | beside htables =>
    refine upholds_congr h fun kind id => ?_
    rw [row?, row?, htables]

theorem Closed.run (h : s.Closed) (hrun : Run.Steps (Lives page) s t) : s.Upholds t := by
  induction hrun with
  | refl => exact .refl h
  | tail _ hlast ih => exact ih.trans (ih.closed.step hlast)

/-- In every stretch of a store's life each reference has its row, and what can be named lasts. -/
theorem references_hold {device : UInt32} {vaultId : Uuid} {vault : Option UnlockedVault}
    (hreach : Run.Steps (Lives page) (Store.empty device vaultId vault) s) (hrun : Run.Steps (Lives page) s t) :
    s.Upholds t :=
  ((closed_empty device vaultId vault).run hreach).closed.run hrun

end references

/-! ### Clocks -/

/-- No row is later than a clock. -/
def Behind (s : Store) (clock : Hlc) : Prop := ∀ kind id row, s.row? kind id = some row → row.updatedAt ≤ clock

section behind

variable {s t u : Store} {clock later : Hlc}

theorem behind_empty (device : UInt32) (vaultId : Uuid) (vault : Option UnlockedVault) :
    (Store.empty device vaultId vault).Behind clock := by
  intro kind id row hrow
  cases hrow

theorem Behind.mono (h : s.Behind clock) (hle : clock ≤ later) : s.Behind later :=
  fun kind id row hrow => (h kind id row hrow).trans hle

theorem behind_iff_cell : s.Behind clock ↔ ∀ kind id, (s.cell kind id).version.updatedAt ≤ clock := by
  constructor
  · intro h kind id
    cases hrow : s.row? kind id with
    | none =>
      rw [cell_of_none hrow]
      exact Hlc.zero_le clock
    | some row =>
      rw [cell_of_some hrow]
      exact h kind id row hrow
  · intro h kind id row hrow
    have hcell := h kind id
    rw [cell_of_some hrow] at hcell
    exact hcell

/-- Every row has the clock of one that was there. -/
theorem Behind.of_rows (h : s.Behind clock)
    (hrows : ∀ kind id row', t.row? kind id = some row' → ∃ row, s.row? kind id = some row ∧ row'.updatedAt = row.updatedAt) :
    t.Behind clock := by
  intro kind id row' hrow'
  obtain ⟨row, hrow, heq⟩ := hrows kind id row' hrow'
  rw [heq]
  exact h kind id row hrow

/-- One record that comes in leaves each row its version, or takes the record's. -/
theorem Behind.applyOne {vault : UnlockedVault} {env : Envelope} {thisDevice : UInt32} {outcome : ApplyReport}
    (h : s.Behind clock) (henv : env.updatedAt ≤ clock)
    (hrun : s.applyOne vault env thisDevice = .ok (t, outcome)) : t.Behind clock := by
  obtain ⟨htouched, hown⟩ := applyOne_spec hrun
  rw [behind_iff_cell] at h ⊢
  intro kind id
  by_cases hself : kind = env.kind ∧ id = env.id
  · obtain ⟨rfl, rfl⟩ := hself
    rcases hown with habsorb | ⟨-, -, hrow, -⟩ | ⟨rfl, -⟩
    · have hold := h env.kind env.id
      generalize s.cell env.kind env.id = old at habsorb hold
      generalize t.cell env.kind env.id = new at habsorb ⊢
      generalize hnumbered : env.numbered = m at habsorb
      cases habsorb with
      | take =>
        cases hnumbered
        exact henv
      | _ => exact hold
    · have hsame : (t.cell env.kind env.id).version = (s.cell env.kind env.id).version := by
        unfold Store.cell
        rw [hrow]
        split <;> rfl
      rw [hsame]
      exact h env.kind env.id
    · exact h env.kind env.id
  · rcases htouched.others kind id hself with hsame | ⟨-, row, -, hnone, -⟩
    · rw [hsame.cell_eq]
      exact h kind id
    · rw [cell_of_none hnone]
      exact Hlc.zero_le clock

/-- The newest clock of a page only rises while it is applied. -/
theorem applyAll_newest {vault : UnlockedVault} {thisDevice : UInt32} {envelopes : List Envelope}
    {report report' : ApplyReport} {newest newest' : Option Hlc}
    (hrun : applyAll vault thisDevice envelopes s report newest = .ok (t, report', newest'))
    (hnewest : ∀ c ∈ newest', c ≤ clock) : ∀ c ∈ newest, c ≤ clock := by
  induction envelopes generalizing s report newest with
  | nil =>
    cases hrun
    exact hnewest
  | cons env rest ih =>
    unfold Store.applyAll at hrun
    split at hrun
    · cases hrun
    next u outcome hone =>
    have hrest := ih hrun
    split at hrest
    · rintro c rfl
      have hmax : max c env.updatedAt ≤ clock := hrest _ rfl
      exact (le_max_left c env.updatedAt).trans hmax
    · exact hrest

/-- What is refused writes nothing, and nothing else is later than the newest. -/
theorem Behind.applyAll {vault : UnlockedVault} {thisDevice : UInt32} {envelopes : List Envelope}
    {report report' : ApplyReport} {newest newest' : Option Hlc} (h : s.Behind clock)
    (hrun : Store.applyAll vault thisDevice envelopes s report newest = .ok (t, report', newest'))
    (hnewest : ∀ c ∈ newest', c ≤ clock) : t.Behind clock := by
  induction envelopes generalizing s report newest with
  | nil =>
    cases hrun
    exact h
  | cons env rest ih =>
    unfold Store.applyAll at hrun
    split at hrun
    · cases hrun
    next u outcome hone =>
    refine ih ?_ hrun
    by_cases hrefused : outcome.rejected = 0
    · refine h.applyOne ?_ hone
      have hrest := applyAll_newest hrun hnewest
      rw [if_pos hrefused] at hrest
      cases newest with
      | none => exact hrest _ rfl
      | some c => exact (le_max_right c env.updatedAt).trans (hrest _ rfl)
    · rw [applyOne_refused hone hrefused]
      exact h

/-- The newest clock of a page is one of its records'. -/
theorem newest_mem {vault : UnlockedVault} {thisDevice : UInt32} {envelopes : List Envelope}
    {report report' : ApplyReport} {newest newest' : Option Hlc} {good : Hlc → Prop}
    (hrun : Store.applyAll vault thisDevice envelopes s report newest = .ok (t, report', newest'))
    (hgood : ∀ env ∈ envelopes, good env.updatedAt) (h : ∀ c ∈ newest, good c) : ∀ c ∈ newest', good c := by
  induction envelopes generalizing s report newest with
  | nil =>
    cases hrun
    exact h
  | cons env rest ih =>
    unfold Store.applyAll at hrun
    split at hrun
    · cases hrun
    next u outcome hone =>
    refine ih hrun (fun e he => hgood e (List.mem_cons_of_mem _ he)) ?_
    have henv := hgood env List.mem_cons_self
    split
    · rintro c hc
      cases newest with
      | none => exact Option.some.inj hc ▸ henv
      | some old =>
        have heq : max old env.updatedAt = c := Option.some.inj hc
        rcases max_choice old env.updatedAt with hmax | hmax
        · rw [← heq, hmax]
          exact h old rfl
        · rw [← heq, hmax]
          exact henv
    · exact h

/-- A clock that is not dated too far ahead is caught up with. -/
theorem le_merge {c remote : Hlc} {nowMs : UInt64} (hdrift : remote.WithinDrift nowMs)
    (hroom : (c.merge remote nowMs).wallMs.toNat + 1 < 2 ^ 64) :
    c ≤ c.merge remote nowMs ∧ remote ≤ c.merge remote nowMs := by
  obtain ⟨hlocal, hremote⟩ := c.le_merge_wall remote nowMs
  have hcap : min remote.wallMs (saturatingAdd nowMs maxDriftMs) = remote.wallMs := if_pos hdrift
  rw [hcap] at hremote
  have hpast := @Hlc.stamp_lt_merge c remote nowMs (fun hend => by have := hend.1; omega)
    (fun hend => by have := hend.1; omega) hdrift
  exact ⟨(Hlc.lt_of_stamp_lt hpast.1).le, (Hlc.lt_of_stamp_lt hpast.2).le⟩

/-- A page of timely records leaves no row later than the clock. -/
theorem Behind.applyEnvelopes {envelopes : List Envelope} {nowMs : UInt64} {report : ApplyReport}
    (h : s.Behind s.clock) (htimely : Timely envelopes nowMs)
    (hrun : s.applyEnvelopes envelopes nowMs = .ok (t, report)) (hroom : t.Unspent) : t.Behind t.clock := by
  rcases applyEnvelopes_eq hrun with ⟨-, rfl⟩ | ⟨vault, u, newest, -, hall, rfl⟩
  · exact h
  · obtain ⟨-, hclock, -⟩ := applyAll_touched hall
    cases newest with
    | none =>
      have hbehind : u.Behind u.clock := (hclock ▸ h).applyAll hall fun c hc => nomatch hc
      exact hbehind
    | some remote =>
      have hin : ∀ env ∈ envelopes.insertionSort applyBefore, env.updatedAt.WithinDrift nowMs :=
        fun env hmem => htimely env ((envelopes.perm_insertionSort applyBefore).mem_iff.mp hmem)
      have hnewest : ∀ c ∈ some remote, Hlc.WithinDrift c nowMs := newest_mem hall hin fun c hc => nomatch hc
      obtain ⟨hlocal, hremote⟩ := le_merge (hnewest remote rfl) hroom
      have hbehind : u.Behind (u.clock.merge remote nowMs) := by
        refine (h.mono (hclock ▸ hlocal)).applyAll hall fun c hc => ?_
        exact Option.some.inj hc ▸ hremote
      exact hbehind

theorem Since.behind (h : s.Since t) (hbehind : s.Behind s.clock) : t.Behind t.clock := by
  intro kind id row' hrow'
  cases h.rows kind id with
  | kept hrel =>
    rw [hrow'] at hrel
    generalize hrow : s.row? kind id = found at hrel
    cases hrel with
    | some hsame =>
      have heq : row'.updatedAt = _ := congrArg Version.updatedAt hsame.version
      rw [heq]
      exact (hbehind kind id _ hrow).trans h.clock
  | written row hrow hgood _ =>
    obtain rfl := Option.some.inj (hrow'.symm.trans hrow)
    exact hgood.2

theorem Behind.markPushed (h : s.Behind clock) (pushed : List Pushed) : (s.markPushed pushed).1.Behind clock := by
  obtain ⟨-, -, -, hmarked⟩ := s.markPushed_spec pushed
  refine h.of_rows fun kind id row' hrow' => ?_
  rcases hmarked kind id with hsame | ⟨p, -, -, -, row, hrow, -, hnew⟩
  · exact ⟨row', hsame ▸ hrow', rfl⟩
  · obtain rfl := Option.some.inj (hrow'.symm.trans hnew)
    exact ⟨row, hrow, rfl⟩

/-- A new list is stamped, and it is the only row that is. -/
theorem refreshManifest_stamps {nowMs : UInt64} (hroom : (s.refreshManifest nowMs).1.Unspent) :
    s.clock ≤ (s.refreshManifest nowMs).1.clock ∧ ∀ kind id row, (s.refreshManifest nowMs).1.row? kind id = some row →
      s.row? kind id = some row ∨ row.updatedAt = (s.refreshManifest nowMs).1.clock := by
  unfold Store.refreshManifest at hroom ⊢
  dsimp only at hroom ⊢
  split at hroom
  · next hsame =>
    rw [if_pos hsame]
    exact ⟨le_rfl, fun _ _ _ hrow => .inl hrow⟩
  · next hnew =>
    rw [if_neg hnew]
    refine ⟨(lt_tick (unspent_of_tick hroom)).le, fun kind id row hrow => ?_⟩
    by_cases hself : kind = .manifest ∧ id = s.ownManifestId
    · obtain ⟨rfl, rfl⟩ := hself
      rw [row?_putRow_self] at hrow
      right
      rw [clock_putRow, clock_tick, ← Option.some.inj hrow]
      split <;> rfl
    · rw [row?_putRow_of_pair_ne _ _ _ _ hself, row?_tick] at hrow
      exact .inl hrow

theorem clock_adopt {α : Type} {db t : Database α} {fault : ℕ → Option TxError} {header : VaultHeader} {key : VaultKey}
    {carry : Carry} {also : α → Except TxError α} (hrun : db.adopt fault header key carry also = (t, .ok ())) :
    t.store.clock = db.store.clock := by
  by_cases hsame : db.store.vaultId = header.vaultId
  · rw [Database.adopt, if_pos hsame] at hrun
    cases hrun
    rfl
  · obtain ⟨u, hplay, hstore⟩ := Database.adopt_ok hsame hrun
    obtain ⟨hframe, -, -⟩ := Database.resealAll_spec hplay
    rw [hstore, hframe.store, mapTables_frame]
    rfl

/-- Another vault's records keep their clocks. -/
theorem Behind.adopt {α : Type} {db t : Database α} {fault : ℕ → Option TxError} {header : VaultHeader}
    {key : VaultKey} {carry : Carry} {also : α → Except TxError α} (h : db.store.Behind clock)
    (hrun : db.adopt fault header key carry also = (t, .ok ())) : t.store.Behind clock := by
  by_cases hsame : db.store.vaultId = header.vaultId
  · rw [Database.adopt, if_pos hsame] at hrun
    cases hrun
    exact h
  refine h.of_rows fun kind id row' hrow' => ?_
  obtain ⟨hmanifest, hplain, hsecret⟩ := Database.row?_adopt hsame hrun kind id
  by_cases hm : kind = .manifest
  · rw [hmanifest hm] at hrow'
    cases hrow'
  by_cases hs : kind = .secret
  · subst hs
    obtain ⟨resealed, hrel, hmapped⟩ := hsecret rfl
    rw [hmapped] at hrow'
    obtain ⟨mid, rfl, rfl⟩ := Option.map_eq_some_iff.mp hrow'
    generalize hrow : db.store.row? .secret id = found at hrel
    cases hrel with
    | some hresealed => exact ⟨_, rfl, congrArg Version.updatedAt hresealed.version⟩
  · rw [hplain hm hs] at hrow'
    obtain ⟨row, hrow, rfl⟩ := Option.map_eq_some_iff.mp hrow'
    exact ⟨row, hrow, rfl⟩

theorem unspent_of_le (hle : s.clock ≤ t.clock) (hroom : t.Unspent) : s.Unspent := by
  have hwall : s.clock.wallMs.toNat ≤ t.clock.wallMs.toNat := by
    rcases hle.lt_or_eq with hlt | heq
    · have hlt := Hlc.lt_iff.mp hlt
      omega
    · rw [heq]
  have hroom : t.clock.wallMs.toNat + 1 < 2 ^ 64 := hroom
  show s.clock.wallMs.toNat + 1 < 2 ^ 64
  omega

theorem clock_step {page : List Envelope → UInt64 → Prop} (hclosed : s.Closed) (hstep : Lives page s t)
    (hroom : t.Unspent) : s.clock ≤ t.clock := by
  cases hstep with
  | edited hedit => exact ((hclosed.edits hedit).sound.since hroom).clock
  | applied _ hrun => exact applyEnvelopes_clock hrun hroom
  | marked _ pushed => exact (s.markPushed_spec pushed).2.2.1.ge
  | listed _ nowMs => exact (refreshManifest_stamps hroom).1
  | adopted hrun => exact (clock_adopt hrun).ge
  | beside _ hle => exact hle

theorem Behind.step (hclosed : s.Closed) (h : s.Behind s.clock) (hstep : Lives Timely s t) (hroom : t.Unspent) :
    t.Behind t.clock := by
  have hle := clock_step hclosed hstep hroom
  cases hstep with
  | edited hedit => exact ((hclosed.edits hedit).sound.since hroom).behind h
  | applied htimely hrun => exact h.applyEnvelopes htimely hrun hroom
  | marked _ pushed => exact (h.mono hle).markPushed pushed
  | listed _ nowMs =>
    intro kind id row hrow
    rcases (refreshManifest_stamps hroom).2 kind id row hrow with hold | hnew
    · exact (h.mono hle) kind id row hold
    · exact hnew.le
  | adopted hrun => exact (h.mono hle).adopt hrun
  | beside htables _ =>
    refine (h.mono hle).of_rows fun kind id row hrow => ⟨row, ?_, rfl⟩
    rwa [row?, htables] at hrow

/-- No row is later than the clock, as long as the wall clock's range has not run out. -/
theorem behind_run {device : UInt32} {vaultId : Uuid} {vault : Option UnlockedVault}
    (hreach : Run.Steps (Lives Timely) (Store.empty device vaultId vault) s) (hroom : s.Unspent) :
    s.Closed ∧ s.Behind s.clock := by
  induction hreach with
  | refl => exact ⟨closed_empty device vaultId vault, behind_empty device vaultId vault⟩
  | tail hfirst hlast ih =>
    have hclosed := ((closed_empty device vaultId vault).run hfirst).closed
    have hbehind := (ih (unspent_of_le (clock_step hclosed hlast hroom) hroom)).2
    exact ⟨(hclosed.step hlast).closed, hbehind.step hclosed hlast hroom⟩

theorem clock_run {page : List Envelope → UInt64 → Prop} (hclosed : s.Closed) (hrun : Run.Steps (Lives page) s t)
    (hroom : t.Unspent) : s.clock ≤ t.clock := by
  induction hrun with
  | refl => exact le_rfl
  | tail hfirst hlast ih =>
    have hle := clock_step (hclosed.run hfirst).closed hlast hroom
    exact (ih (unspent_of_le hle hroom)).trans hle

/-- An edit leaves a record as it was, but for what stays on this device, or writes it to be pushed, on the
server's version it was based on, later than every record the store ever had. Unless records of the kind
come back under their id, every device takes it in the place of the version this one had. -/
theorem edits_win {device : UInt32} {vaultId : Uuid} {vault : Option UnlockedVault}
    (hreach : Run.Steps (Lives Timely) (Store.empty device vaultId vault) u) (hrun : Run.Steps (Lives Timely) u s)
    (hedit : Edits s t) (hroom : t.Unspent) (kind : EntityKind) (id : Uuid) :
    Became (fun c => ∀ other id' row, u.row? other id' = some row → row.updatedAt < c) s t kind id ∧
    (kind ∉ revivedKinds → ∀ row row', s.row? kind id = some row → t.row? kind id = some row' →
      row.SameSynced id row' ∨ row'.dirty = true ∧ resolve row.version row'.version = .takeRemote) := by
  have hearlier := ((closed_empty device vaultId vault).run hreach).closed
  have hclosed := (hearlier.run hrun).closed
  have hsince := (hclosed.edits hedit).sound.since hroom
  have hspent : s.Unspent := unspent_of_le hsince.clock hroom
  have hclock := clock_run hearlier hrun hspent
  have hbefore := (behind_run hreach (unspent_of_le hclock hspent)).2
  have hbehind := (behind_run (hreach.trans hrun) hspent).2
  constructor
  · exact (hsince.rows kind id).mono fun c hc other id' row hrow =>
      ((hbefore other id' row hrow).trans hclock).trans_lt hc.1
  intro hkind row row' hrow hrow'
  cases hsince.rows kind id with
  | kept hrel =>
    rw [hrow, hrow'] at hrel
    cases hrel with
    | some hsame => exact .inl hsame
  | written new hnew hgood hwritten =>
    obtain rfl := Option.some.inj (hrow'.symm.trans hnew)
    have hlater : row.updatedAt < row'.updatedAt := (hbehind kind id row hrow).trans_lt hgood.1
    refine .inr ⟨hwritten.dirty, resolve_of_lt (Version.lt_of_clock_lt hlater ?_)⟩
    exact hwritten.final hkind row hrow

end behind

/-! ### A host that comes without its group and its login -/

section alone

/-- It is edited afterwards, and gets another group. -/
def loneHost : Envelope :=
  arriving .host 1 (.host { name := "web", address := "web.example", port := 22, workspace := "private"
                            position := 0, groupId := some 9, identityId := some 4 })

def loneEdit (s : Store) : Store := (LocalEdit.saveHost webDraft).on countingDraws s

/-- And then it is deleted. -/
def loneDelete (s : Store) : Store := (LocalEdit.deleteHost 1).on countingDraws (loneEdit s)

theorem loneHost_lives : ∃ s : Store, Run.Steps (Lives Timely) (Store.empty 1 7 (some groupVault)) s ∧
    s.Present (.group, 9) ∧ s.Present (.identity, 4) ∧ (loneDelete s).Unspent ∧
    ((s.row? .host 1).any fun row => row.updatedAt == ⟨10, 0, 2⟩) = true ∧
    (((loneEdit s).row? .host 1).any fun row => HostCols.groupId row.cols == some 102) = true ∧
    (((loneDelete s).row? .host 1).any fun row => row.deleted) = true := by
  have happly : ((Store.empty 1 7 (some groupVault)).applyEnvelopes [loneHost] 20).toOption.any
      (fun r => decide (r.1.Present (.group, 9) ∧ r.1.Present (.identity, 4) ∧ (loneDelete r.1).Unspent ∧
        ((r.1.row? .host 1).any fun row => row.updatedAt == ⟨10, 0, 2⟩) = true ∧
        (((loneEdit r.1).row? .host 1).any fun row => HostCols.groupId row.cols == some 102) = true ∧
        (((loneDelete r.1).row? .host 1).any fun row => row.deleted) = true)) = true := by
    decide +kernel
  obtain ⟨⟨s, report⟩, hsome, hfacts⟩ := (Option.any_eq_true _ _).mp happly
  have htimely : Timely [loneHost] 20 := List.forall_mem_singleton.mpr (by decide)
  exact ⟨s, .single (.applied htimely (ok_of_toOption hsome)), of_decide_eq_true hfacts⟩

theorem references_hold_alone :
    ∃ s t : Store, s.Present (.group, 9) ∧ s.Present (.identity, 4) ∧
      ((t.row? .host 1).any fun row => HostCols.groupId row.cols == some 102) = true ∧ s.Upholds t := by
  obtain ⟨s, hreach, hgroup, hidentity, -, -, hmoved, -⟩ := loneHost_lives
  exact ⟨s, loneEdit s, hgroup, hidentity, hmoved,
    references_hold hreach (.single (.edited (.user s countingDraws (.saveHost webDraft))))⟩

theorem edits_win_alone :
    ∃ u s t : Store, ((u.row? .host 1).any fun row => row.updatedAt == ⟨10, 0, 2⟩) = true ∧
      ((s.row? .host 1).any fun row => HostCols.groupId row.cols == some 102) = true ∧
      ((t.row? .host 1).any fun row => row.deleted) = true ∧
      Became (fun c => ∀ other id' row, u.row? other id' = some row → row.updatedAt < c) s t .host 1 ∧
      (.host ∉ revivedKinds → ∀ row row', s.row? .host 1 = some row → t.row? .host 1 = some row' →
        row.SameSynced 1 row' ∨ row'.dirty = true ∧ resolve row.version row'.version = .takeRemote) := by
  obtain ⟨u, hreach, -, -, hroom, hdated, hmoved, hdeleted⟩ := loneHost_lives
  have hrun : Run.Steps (Lives Timely) u (loneEdit u) :=
    .single (.edited (.user u countingDraws (.saveHost webDraft)))
  exact ⟨u, loneEdit u, loneDelete u, hdated, hmoved, hdeleted,
    edits_win hreach hrun (.user (loneEdit u) countingDraws (.deleteHost 1)) hroom .host 1⟩

end alone

end Store

end UwuSsh

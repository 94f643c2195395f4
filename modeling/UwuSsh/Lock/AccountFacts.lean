import UwuSsh.Lock.Account

/-!
No server steers a device to another space. Beside the device stands what the person typed
last, what the server listed last, the space it made for the device last, and every space
the device ever used on each account. What a device knows of an account is read off this; a
space is taken only as the person and the device's own memory allow it.
-/
namespace UwuSsh

open Script

/-- What came of the last sign-in so far, and the spaces used on each account. -/
structure SignIns where
  used : AccountName → List Uuid
  typed : Option SignIn
  listing : Option (List SpaceObject)
  created : Option Uuid

namespace SignIns

def listed (g : SignIns) : Option Uuid :=
  (g.listing.bind listedSpace).map SpaceObject.id

def wrote (g : SignIns) (_ t : LockDb) : SignIns :=
  { g with used := fun name => (t.other.account name).spaceId.toList ++ g.used name }

def asked (g : SignIns) (_ : LockDb) : (q : LockAsk) → LockAnswer q → SignIns
  | .typed, request => { g with typed := some request, listing := none, created := none }
  | .spaces, .ok listing => { g with listing := some listing }
  | .createSpace id _, .ok .done => { g with created := some id }
  | _, _ => g

end SignIns

/-- The account a person's sign-in is for. -/
def SignIn.account (c : LockCrates) (request : SignIn) : Option AccountName :=
  (c.normalizeServer request.serverUrl).map fun server =>
    (server, accountEmail c.lowercase request.email)

/-- A space a sign-in may take: by what the device knows of the account, what the person
agreed to, what the server listed and what it let the device make. -/
inductive MayTake (known : LockAccount) (accept : Option AcceptSpace) (listed created : Option Uuid)
    (id : Uuid) : Prop
  | found : known.spaceId = none → listed = some id → MayTake known accept listed created id
  | made : known.spaceId = none → created = some id → MayTake known accept listed created id
  | known : known.spaceId = some id → MayTake known accept listed created id
  | accepted : accept = some (.listed id) → listed = some id → MayTake known accept listed created id
  | acceptedNew : accept = some .new → listed = none → created = some id →
      MayTake known accept listed created id

/-- Two states of an account with the same spaces. -/
structure LockAccount.SameSpaces (a b : LockAccount) : Prop where
  spaceId : b.spaceId = a.spaceId
  leftSpaces : b.leftSpaces = a.leftSpaces

/-- The sign-in under way takes a space of one account. -/
structure Takes (c : LockCrates) (g : SignIns) (db : LockDb) (name : AccountName) (id : Uuid) : Prop where
  typed : ∃ request, g.typed = some request ∧ request.account c = some name ∧
    MayTake (db.other.account name) request.acceptSpace g.listed g.created id
  notLeft : id ∉ (db.other.account name).leftSpaces

/-- What a write does to the device's space and to those of the accounts. -/
def SpaceStep (c : LockCrates) (g : SignIns) (s t : LockDb) : Prop :=
  (t.other.lock.spaceId = s.other.lock.spaceId ∧
    ∀ name, (s.other.account name).SameSpaces (t.other.account name)) ∨
  ∃ name id, Takes c g s name id ∧ t.other.lock.spaceId = some id ∧
    (t.other.account name).spaceId = some id ∧
    ∀ other ≠ name, (s.other.account other).SameSpaces (t.other.account other)

/-- A device remembers every space it used on an account: the last one as the account's and
all others as left. -/
structure Remembers (used : List Uuid) (account : LockAccount) : Prop where
  used : ∀ id, id ∈ used ↔ id ∈ account.leftSpaces ∨ account.spaceId = some id
  notLeft : ∀ id, account.spaceId = some id → id ∉ account.leftSpaces

/-- An id the device draws is none of the spaces it used. -/
def FreshSpace (g : SignIns) : (q : LockAsk) → LockAnswer q → Prop
  | .newSpace, fresh => ∀ name, fresh.1 ∉ g.used name
  | _, _ => True

def MayCopy (c : LockCrates) (g : SignIns) (db : LockDb) : LockAsk → Prop
  | .copyToLock id => ∃ name, Takes c g db name id
  | _ => True

def lockContract (c : LockCrates) : Contract LockDb LockAsk LockAnswer SignIns where
  wrote := SignIns.wrote
  asked := SignIns.asked
  rely := fun g _ q a => FreshSpace g q a
  allowed := fun _ _ _ => True
  guarantee := SpaceStep c
  may := MayCopy c
  inv := fun g db => ∀ name, Remembers (g.used name) (db.other.account name)

section accounts

variable {e : Enrolments} {name other : AccountName} {account : LockAccount}

@[simp] theorem Enrolments.account_setAccount :
    (e.setAccount name account).account other = if other = name then account else e.account other := by
  unfold Enrolments.account Enrolments.setAccount
  split
  · next heq =>
    rw [heq, AList.lookup_insert]
    rfl
  · next hne => rw [AList.lookup_insert_ne hne]

theorem LockAccount.SameSpaces.refl (account : LockAccount) : account.SameSpaces account := ⟨rfl, rfl⟩

theorem LockAccount.SameSpaces.trans {a b d : LockAccount} (h : a.SameSpaces b)
    (h' : b.SameSpaces d) : a.SameSpaces d :=
  ⟨h'.spaceId.trans h.spaceId, h'.leftSpaces.trans h.leftSpaces⟩

theorem Enrolments.sameSpaces_setAccount (h : (e.account name).SameSpaces account) :
    (e.account other).SameSpaces ((e.setAccount name account).account other) := by
  rw [Enrolments.account_setAccount]
  split
  · next heq =>
    rw [heq]
    exact h
  · exact .refl _

theorem Enrolments.sameSpaces_updateAccount {f : LockAccount → LockAccount}
    (h : ∀ account : LockAccount, account.SameSpaces (f account)) :
    (e.account other).SameSpaces ((e.updateAccount name f).account other) := by
  unfold Enrolments.updateAccount
  cases hlookup : e.accounts.lookup name with
  | none => exact .refl _
  | some account =>
    have hsame : e.account name = account := by
      unfold Enrolments.account
      rw [hlookup]
      rfl
    exact Enrolments.sameSpaces_setAccount (hsame ▸ h account)

theorem Enrolments.lock_updateAccount (e : Enrolments) {f : LockAccount → LockAccount} :
    (e.updateAccount name f).lock.spaceId = e.lock.spaceId := by
  unfold Enrolments.updateAccount
  split <;> rfl

theorem MayTake.congr {known known' : LockAccount} {accept : Option AcceptSpace}
    {listed created : Option Uuid} {id : Uuid} (hsame : known.SameSpaces known')
    (h : MayTake known accept listed created id) : MayTake known' accept listed created id := by
  have hspace := hsame.spaceId
  cases h with
  | found hnone hlisted => exact .found (hspace.trans hnone) hlisted
  | made hnone hcreated => exact .made (hspace.trans hnone) hcreated
  | known hknown => exact .known (hspace.trans hknown)
  | accepted haccept hlisted => exact .accepted haccept hlisted
  | acceptedNew haccept hlisted hcreated => exact .acceptedNew haccept hlisted hcreated

theorem Remembers.congr {used : List Uuid} {account account' : LockAccount}
    (hsame : account.SameSpaces account') (h : Remembers used account) :
    Remembers (account'.spaceId.toList ++ used) account' := by
  refine ⟨fun id => ?_, fun id hid => ?_⟩
  · rw [List.mem_append, Option.mem_toList, h.used, hsame.spaceId, hsame.leftSpaces]
    exact ⟨fun hmem => hmem.elim .inr fun hmem => hmem, .inr⟩
  · rw [hsame.leftSpaces]
    exact h.notLeft id (hsame.spaceId ▸ hid)

/-- Joining another space moves the one before to those left. -/
theorem Remembers.joined {used : List Uuid} (h : Remembers used account) (space : Uuid)
    (enrolment : LockEnrolment) :
    Remembers (space :: used) (account.joined space enrolment) := by
  have hmem : ∀ id, id ∈ account.left space ↔
      (id ∈ account.leftSpaces ∨ account.spaceId = some id) ∧ id ≠ space := by
    intro id
    unfold LockAccount.left
    rw [List.mem_filter, decide_eq_true_iff]
    refine and_congr_left fun hne => ?_
    cases hspace : account.spaceId with
    | none => simp
    | some old =>
      dsimp only
      have hold := h.notLeft old hspace
      split
      · simp [eq_comm]
      · next hsame =>
        have heq : old = space := by
          by_contra hno
          exact hsame ⟨hno, hold⟩
        simp [heq, hne.symm]
  refine ⟨fun id => ?_, fun id hid hin => ?_⟩
  · simp only [LockAccount.joined, List.mem_cons, hmem, h.used, Option.some.injEq]
    by_cases heq : id = space
    · simp [heq]
    · simp [heq, Ne.symm heq]
  · cases hid
    exact ((hmem space).mp hin).2 rfl

end accounts

/-- Nothing changed that a choice of space rests on. -/
structure Still (g : SignIns) (s : LockDb) (g' : SignIns) (t : LockDb) : Prop where
  typed : g'.typed = g.typed
  listing : g'.listing = g.listing
  created : g'.created = g.created
  spaces : ∀ name, (s.other.account name).SameSpaces (t.other.account name)

section still

variable {c : LockCrates} {g g' g'' : SignIns} {s t u : LockDb} {name : AccountName} {id : Uuid}
  {α : Type}

theorem Still.refl (g : SignIns) (s : LockDb) : Still g s g s := ⟨rfl, rfl, rfl, fun _ => .refl _⟩

theorem Still.trans (h : Still g s g' t) (h' : Still g' t g'' u) : Still g s g'' u where
  typed := h'.typed.trans h.typed
  listing := h'.listing.trans h.listing
  created := h'.created.trans h.created
  spaces := fun name => (h.spaces name).trans (h'.spaces name)

theorem Still.composes : Composes Still := ⟨Still.refl, fun _ _ _ _ _ _ => Still.trans⟩

theorem Takes.of_still (hstill : Still g s g' t) (h : Takes c g s name id) : Takes c g' t name id := by
  obtain ⟨⟨request, htyped, haccount, hmay⟩, hleft⟩ := h
  refine ⟨⟨request, hstill.typed.trans htyped, haccount, ?_⟩, ?_⟩
  · have hlisted : g'.listed = g.listed := by
      unfold SignIns.listed
      rw [hstill.listing]
    rw [hlisted, hstill.created]
    exact hmay.congr (hstill.spaces name)
  · rw [(hstill.spaces name).leftSpaces]
    exact hleft

/-- Questions that concern no space. -/
def LockAsk.Still : LockAsk → Prop
  | .typed | .spaces | .createSpace .. | .copyToLock _ => False
  | _ => True

theorem still_ask {q : LockAsk} (hq : q.Still) : Within (lockContract c) Still (Lock.ask q) := by
  refine Within.query fun g s hinv => ?_
  cases q <;> first | exact absurd hq fun h => h | exact ⟨trivial, fun _ _ => ⟨hinv, .refl g s⟩⟩

theorem still_commit {f : LockDb → LockDb}
    (hlock : ∀ db, (f db).other.lock.spaceId = db.other.lock.spaceId)
    (h : ∀ (db : LockDb) name, (db.other.account name).SameSpaces ((f db).other.account name)) :
    Within (lockContract c) Still (Lock.commit f) :=
  Within.modify Still.composes fun _ s hinv _ =>
    ⟨.inl ⟨hlock s, h s⟩, fun name => (hinv name).congr (h s name), rfl, rfl, rfl, h s⟩

theorem still_expect {answer : LockScript (Except LockError α)}
    (h : Within (lockContract c) Still answer) : Within (lockContract c) Still (Lock.expect answer) :=
  h.bind Still.composes fun r => .ofExcept Still.composes r

theorem still_setLock {f : LockState → LockState} (h : ∀ lock, (f lock).spaceId = lock.spaceId) :
    Within (lockContract c) Still (Lock.setLock f) :=
  still_commit (fun _ => h _) fun _ _ => .refl _

theorem still_updateAccount (name : AccountName) {f : LockAccount → LockAccount}
    (h : ∀ account : LockAccount, account.SameSpaces (f account)) :
    Within (lockContract c) Still (Lock.updateAccount name f) :=
  still_commit (fun db => Enrolments.lock_updateAccount db.other) fun _ _ =>
    Enrolments.sameSpaces_updateAccount h

theorem still_forgetRememberToken (name : AccountName) :
    Within (lockContract c) Still (Lock.forgetRememberToken name) :=
  still_updateAccount name fun _ => ⟨rfl, rfl⟩

theorem still_openToken {box : Option (List UInt8)} {forget : LockScript Unit}
    (h : Within (lockContract c) Still forget) :
    Within (lockContract c) Still (Lock.openToken box forget) := by
  unfold Lock.openToken
  cases box with
  | none => exact .done Still.composes _
  | some box =>
    refine (still_ask (q := .unprotect box) trivial).bind Still.composes fun a => ?_
    cases a with
    | opened token => exact .done Still.composes _
    | neverOpens => exact h.bind Still.composes fun _ => .done Still.composes _
    | notNow => exact .fail Still.composes _

theorem still_sealToken (token : Option String) :
    Within (lockContract c) Still (Lock.sealToken token) := by
  unfold Lock.sealToken
  cases token with
  | none => exact .done Still.composes _
  | some token =>
    exact (still_expect (still_ask (q := .seal token) trivial)).bind Still.composes fun _ =>
      .done Still.composes _

theorem still_rememberToken (serverUrl email : String) :
    Within (lockContract c) Still (Lock.rememberToken c serverUrl email) := by
  unfold Lock.rememberToken
  split
  · exact .done Still.composes _
  · exact (Within.get Still.composes).bind Still.composes fun _ =>
      still_openToken (still_forgetRememberToken _)

theorem still_remembered (request : SignIn) :
    Within (lockContract c) Still (Lock.remembered c request) := by
  unfold Lock.remembered
  split
  · exact still_rememberToken _ _
  · exact .done Still.composes _

theorem still_keepLockRememberToken (server email : String) (box : List UInt8) :
    Within (lockContract c) Still (Lock.keepLockRememberToken c server email box) :=
  still_commit (fun _ => rfl) fun _ _ => Enrolments.sameSpaces_setAccount ⟨rfl, rfl⟩

theorem still_noteMoveStarted (serverUrl email : String) :
    Within (lockContract c) Still (Lock.noteMoveStarted serverUrl email) :=
  (still_ask (q := .now) trivial).bind Still.composes fun _ =>
    still_setLock fun _ => by split <;> rfl

theorem still_syncOnce : Within (lockContract c) Still Lock.syncOnce := by
  refine (still_ask (q := .syncOnce) trivial).bind Still.composes fun pass => ?_
  refine Within.bind Still.composes (still_commit ?_ ?_) fun _ => .ofExcept Still.composes _
  · exact fun _ => rfl
  · exact fun _ _ => .refl _

theorem still_forgetSignIn (lock : LockState) :
    Within (lockContract c) Still (Lock.forgetSignIn c lock) := by
  unfold Lock.forgetSignIn
  split
  · exact (still_forgetRememberToken _).bind Still.composes fun _ =>
      still_updateAccount _ fun _ => ⟨rfl, rfl⟩
  · exact .done Still.composes _

theorem still_leaveLock : Within (lockContract c) Still (Lock.leaveLock c) := by
  refine (Within.get Still.composes).bind Still.composes fun db => ?_
  refine (still_forgetSignIn db.other.lock).bind Still.composes fun _ => ?_
  refine Within.bind Still.composes (still_setLock ?_) fun _ => ?_
  · exact fun _ => rfl
  refine Within.bind Still.composes (still_commit ?_ ?_) fun _ => still_commit ?_ ?_
  · exact fun _ => rfl
  · exact fun _ _ => .refl _
  · exact fun _ => rfl
  · exact fun _ _ => .refl _

theorem still_lockSignOut : Within (lockContract c) Still (Lock.lockSignOut c) := by
  unfold Lock.lockSignOut
  refine (still_ask (q := .password) trivial).bind Still.composes fun password => ?_
  refine (Within.get Still.composes).bind Still.composes fun db => ?_
  split
  · exact .done Still.composes _
  split
  · exact .fail Still.composes _
  split
  · exact .fail Still.composes _
  · exact still_leaveLock

end still

/-- The run so far: only the last listing and the last space made moved on. -/
structure Asking (g : SignIns) (s : LockDb) (g' : SignIns) (t : LockDb) : Prop where
  state : t = s
  used : g'.used = g.used
  typed : g'.typed = g.typed

/-- What a sign-in that went through settled on. -/
structure Chosen (c : LockCrates) (g : SignIns) (db : LockDb) (request : SignIn)
    (signed : SignedIn) : Prop where
  server : c.normalizeServer request.serverUrl = some signed.serverUrl
  email : signed.email = c.normalizeEmail (Text.trim request.email)
  takes : Takes c g db (signed.serverUrl, accountEmail c.lowercase request.email) signed.space.id

section signIn

variable {c : LockCrates} {g g' : SignIns} {s t : LockDb} {request : SignIn}

theorem Asking.inv (h : Asking g s g' t) (hinv : (lockContract c).inv g s) :
    (lockContract c).inv g' t := by
  intro name
  rw [h.used, h.state]
  exact hinv name

/-- A space is only settled on as the person and the memory allow it, and is never one left. -/
theorem space_spec {key : VaultKey} {known : LockAccount} {accept : Option AcceptSpace}
    (hinv : (lockContract c).inv g s)
    (hleft : ∀ id ∈ known.leftSpaces, ∃ name, id ∈ g.used name) (rounds : ℕ) :
    (Lock.space c key known accept rounds).wp (lockContract c) (fun r g' t => Asking g s g' t ∧
      ∀ space made, r = .ok (.space space made) →
        MayTake known accept g'.listed g'.created space.id ∧ space.id ∉ known.leftSpaces) g s := by
  induction rounds generalizing g with
  | zero => exact ⟨⟨rfl, rfl, rfl⟩, nofun⟩
  | succ rounds ih =>
    unfold Lock.space Lock.expect
    rw [wp_bind, wp_bind]
    refine wp_query.mpr ⟨trivial, fun listing _ => ?_⟩
    cases listing with
    | error e => exact ⟨hinv, ⟨rfl, rfl, rfl⟩, nofun⟩
    | ok listing =>
      refine ⟨hinv, ?_⟩
      dsimp only
      rw [wp_ofExcept]
      dsimp only
      have hlisted : SignIns.listed { g with listing := some listing } =
          (listedSpace listing).map SpaceObject.id := rfl
      cases hentry : listedSpace listing with
      | some existing =>
        rw [hentry] at hlisted
        dsimp only
        split
        · exact ⟨⟨rfl, rfl, rfl⟩, nofun⟩
        next hnot =>
        split
        · exact ⟨⟨rfl, rfl, rfl⟩, nofun⟩
        next hsame =>
        split
        · exact ⟨⟨rfl, rfl, rfl⟩, nofun⟩
        · refine ⟨⟨rfl, rfl, rfl⟩, fun space made hspace => ?_⟩
          cases hspace
          refine ⟨?_, hnot⟩
          cases hknown : known.spaceId with
          | none => exact .found hknown hlisted
          | some was =>
            by_cases heq : was = existing.id
            · exact .known (heq ▸ hknown)
            · have haccept : accept = some (.listed existing.id) := by
                by_contra hno
                exact hsame ⟨by simp [hknown, heq], hno⟩
              exact .accepted haccept hlisted
      | none =>
        rw [hentry] at hlisted
        dsimp only
        split
        · exact ⟨⟨rfl, rfl, rfl⟩, nofun⟩
        next hagreed =>
        rw [wp_bind]
        refine wp_query.mpr ⟨trivial, fun fresh hfresh => ⟨hinv, ?_⟩⟩
        dsimp only
        rw [wp_bind, wp_bind]
        refine wp_query.mpr ⟨trivial, fun answer _ => ?_⟩
        cases answer with
        | error e => exact ⟨hinv, ⟨rfl, rfl, rfl⟩, nofun⟩
        | ok answer =>
          cases answer with
          | done =>
            refine ⟨hinv, ⟨rfl, rfl, rfl⟩, fun space made hspace => ?_⟩
            cases hspace
            refine ⟨?_, fun hmem => ?_⟩
            · cases hknown : known.spaceId with
              | none => exact .made hknown rfl
              | some was =>
                have haccept : accept = some .new := by
                  by_contra hno
                  exact hagreed ⟨by simp [hknown], hno⟩
                exact .acceptedNew haccept hlisted rfl
            · obtain ⟨name, hused⟩ := hleft _ hmem
              exact hfresh name hused
          | «exists» =>
            refine ⟨hinv, ?_⟩
            dsimp only
            rw [wp_ofExcept]
            refine wp_mono (ih hinv hleft) fun r g' t h => ?_
            exact ⟨⟨h.1.state, h.1.used, h.1.typed⟩, h.2⟩
          | refused => exact ⟨hinv, ⟨rfl, rfl, rfl⟩, nofun⟩

theorem signIn_spec {remembered : Option String} (hinv : (lockContract c).inv g s)
    (htyped : g.typed = some request) :
    (Lock.signIn c request remembered (Lock.known c request.serverUrl request.email s.other)).wp
      (lockContract c) (fun r g' t => Asking g s g' t ∧
        ∀ signed, r = .ok (.signedIn signed) → Chosen c g' s request signed) g s := by
  unfold Lock.signIn
  split
  · exact ⟨⟨rfl, rfl, rfl⟩, nofun⟩
  next server hserver =>
  have hknown : Lock.known c request.serverUrl request.email s.other =
      s.other.account (server, accountEmail c.lowercase request.email) := by
    unfold Lock.known
    rw [hserver]
  rw [hknown]
  have hinv' := hinv (server, accountEmail c.lowercase request.email)
  dsimp only
  split
  · exact ⟨⟨rfl, rfl, rfl⟩, nofun⟩
  unfold Lock.expect
  rw [wp_bind, wp_bind]
  refine wp_query.mpr ⟨trivial, fun answer _ => ⟨hinv, ?_⟩⟩
  cases answer with
  | error e => exact ⟨⟨rfl, rfl, rfl⟩, nofun⟩
  | ok answer =>
    cases answer with
    | twoFactor => exact ⟨⟨rfl, rfl, rfl⟩, nofun⟩
    | granted login =>
      dsimp only
      rw [wp_ofExcept]
      dsimp only
      rw [wp_bind]
      refine wp_mono (space_spec hinv (fun id hid => ⟨_, (hinv'.used id).mpr (.inl hid)⟩) 2) ?_
      intro r g' t ⟨hasking, hspace⟩
      cases r with
      | error e => exact ⟨hasking, nofun⟩
      | ok taken =>
        cases taken with
        | changed was now => exact ⟨hasking, nofun⟩
        | space space made =>
          refine ⟨hasking, fun signed hsigned => ?_⟩
          cases hsigned
          obtain ⟨hmay, hleft⟩ := hspace space made rfl
          refine ⟨hserver, rfl, ⟨request, hasking.typed.trans htyped, ?_, hmay⟩, hleft⟩
          unfold SignIn.account
          rw [hserver]
          rfl

theorem Chosen.of_still {signed : SignedIn} (hstill : Still g s g' t)
    (h : Chosen c g s request signed) : Chosen c g' t request signed :=
  ⟨h.server, h.email, h.takes.of_still hstill⟩

theorem signInHere_spec (hinv : (lockContract c).inv g s) (htyped : g.typed = some request) :
    (Lock.signInHere c request).wp (lockContract c) (fun r g' t => (lockContract c).inv g' t ∧
      ∀ signed, r = .ok (some signed) → Chosen c g' t request signed) g s := by
  unfold Lock.signInHere
  rw [wp_bind]
  refine (still_remembered request).wp hinv fun r g₁ s₁ hinv₁ hstill => ?_
  cases r with
  | error e => exact ⟨hinv₁, nofun⟩
  | ok token =>
    dsimp only
    rw [wp_bind, wp_get]
    dsimp only
    rw [wp_bind]
    refine wp_mono (signIn_spec hinv₁ (hstill.typed.trans htyped)) fun r g₂ s₂ hsigned => ?_
    obtain ⟨hasking, hchosen⟩ := hsigned
    have hinv₂ := hasking.inv hinv₁
    cases r with
    | error e => exact ⟨hinv₂, nofun⟩
    | ok outcome =>
      cases outcome with
      | signedIn signed =>
        refine ⟨hinv₂, fun signed' hsame => ?_⟩
        cases hsame
        rw [hasking.state]
        exact hchosen signed rfl
      | twoFactor => exact ⟨hinv₂, nofun⟩
      | spaceChanged was now token =>
        dsimp only
        split
        · next token server _ =>
          rw [wp_bind]
          refine (still_expect (still_ask (q := .seal token) trivial)).wp hinv₂
            fun r g₃ s₃ hinv₃ _ => ?_
          cases r with
          | error e => exact ⟨hinv₃, nofun⟩
          | ok box =>
            dsimp only
            rw [wp_bind]
            refine (still_keepLockRememberToken server request.email box).wp hinv₃
              fun r g₄ s₄ hinv₄ _ => ?_
            cases r with
            | error e => exact ⟨hinv₄, nofun⟩
            | ok _ => exact ⟨hinv₄, nofun⟩
        · exact ⟨hinv₂, nofun⟩

end signIn

section join

variable {c : LockCrates} {g : SignIns} {s t : LockDb} {request : SignIn} {signed : SignedIn}

theorem account_remember {lowercase : String → String} {space : Uuid} {joining : Joining}
    {enrolment : LockEnrolment} {nowMs : UInt64} {e : Enrolments} (other : AccountName) :
    (e.remember lowercase space joining enrolment nowMs).account other =
      if other = enrolment.name lowercase then
        (e.account (enrolment.name lowercase)).joined space enrolment
      else e.account other :=
  Enrolments.account_setAccount

/-- The one write that gives an account another space. -/
theorem remembers_join {enrolment : LockEnrolment} {joining : Joining} {nowMs : UInt64} {id : Uuid}
    (hinv : (lockContract c).inv g s) (htakes : Takes c g s (enrolment.name c.lowercase) id)
    (hjoined : t.other = s.other.remember c.lowercase id joining enrolment nowMs) :
    SpaceStep c g s t ∧ (lockContract c).inv (g.wrote s t) t := by
  have haccount : ∀ other, t.other.account other = if other = enrolment.name c.lowercase then
      (s.other.account (enrolment.name c.lowercase)).joined id enrolment
    else s.other.account other := fun other => by rw [hjoined, account_remember]
  have hself : t.other.account (enrolment.name c.lowercase) =
      (s.other.account (enrolment.name c.lowercase)).joined id enrolment := by
    rw [haccount, if_pos rfl]
  have hspace : t.other.lock.spaceId = some id := by
    rw [hjoined]
    rfl
  refine ⟨.inr ⟨_, id, htakes, hspace, by rw [hself]; rfl, fun other hother => ?_⟩, fun other => ?_⟩
  · rw [haccount, if_neg hother]
    exact .refl _
  · by_cases hother : other = enrolment.name c.lowercase
    · subst hother
      have hremembers := (hinv (enrolment.name c.lowercase)).joined id enrolment
      rw [← hself] at hremembers
      have hused : (g.wrote s t).used (enrolment.name c.lowercase) =
          id :: g.used (enrolment.name c.lowercase) := by
        change (t.other.account (enrolment.name c.lowercase)).spaceId.toList ++ _ = _
        rw [hself]
        rfl
      rw [hused]
      exact hremembers
    · have hsame : (s.other.account other).SameSpaces (t.other.account other) := by
        rw [haccount, if_neg hother]
        exact .refl _
      exact (hinv other).congr hsame

theorem joinSpace_spec {password : Password} {joining : Joining} (hinv : (lockContract c).inv g s)
    (hchosen : Chosen c g s request signed) :
    (Lock.joinSpace c signed password joining).wp (lockContract c)
      (fun _ => (lockContract c).inv) g s := by
  have hstep : ∀ {α β : Type} {p : LockScript α} {f : α → LockScript β} {g : SignIns} {s : LockDb},
      Within (lockContract c) Still p → (lockContract c).inv g s → Chosen c g s request signed →
      (∀ a g' t, (lockContract c).inv g' t → Chosen c g' t request signed →
        (f a).wp (lockContract c) (fun _ => (lockContract c).inv) g' t) →
      (p >>= f).wp (lockContract c) (fun _ => (lockContract c).inv) g s := by
    intro α β p f g s hp hinv hchosen hrest
    rw [wp_bind]
    refine hp.wp hinv fun r g' t hinv' hstill => ?_
    cases r with
    | error e => exact hinv'
    | ok a => exact hrest a g' t hinv' (hchosen.of_still hstill)
  unfold Lock.joinSpace
  refine hstep (still_sealToken _) hinv hchosen fun refresh g s hinv hchosen => ?_
  refine hstep (still_sealToken _) hinv hchosen fun remember g s hinv hchosen => ?_
  refine hstep (still_ask (q := .salt) trivial) hinv hchosen fun salt g s hinv hchosen => ?_
  refine hstep (still_ask (q := .now) trivial) hinv hchosen fun nowMs g s hinv hchosen => ?_
  refine hstep (still_ask (q := .fault) trivial) hinv hchosen fun fault g s hinv hchosen => ?_
  rw [wp_bind, wp_get]
  dsimp only
  rw [wp_bind]
  refine wp_modify.mpr ⟨fun _ => ?_, hinv⟩
  have hname : ∀ enrolment : LockEnrolment, enrolment.serverUrl = signed.serverUrl →
      enrolment.email = signed.email → enrolment.name c.lowercase =
        (signed.serverUrl, accountEmail c.lowercase request.email) := by
    intro enrolment hserver hemail
    unfold LockEnrolment.name
    rw [hserver, hemail, hchosen.email, c.accountEmail_normalizeEmail]
  have hwrite : ∀ enrolment : LockEnrolment, enrolment.serverUrl = signed.serverUrl →
      enrolment.email = signed.email → ∀ t result,
      s.joinSpace c.lowercase c.wrapping salt nowMs fault signed.space password .recommended joining
        enrolment = (t, result) → SpaceStep c g s t ∧ (lockContract c).inv (g.wrote s t) t := by
    intro enrolment hserver hemail t result hjoin
    rcases Database.joinSpace_other c.lowercase hjoin with ⟨rfl, -⟩ | ⟨-, hjoined⟩
    · exact ⟨.inl ⟨rfl, fun _ => .refl _⟩, fun name => (hinv name).congr (.refl _)⟩
    · exact remembers_join hinv (hname enrolment hserver hemail ▸ hchosen.takes) hjoined
  obtain ⟨hkeeps, hinv'⟩ := hwrite
    { serverUrl := signed.serverUrl
      email := signed.email
      kdf := signed.kdf
      protectedRefreshToken := refresh
      protectedRememberToken := remember } rfl rfl _ _ rfl
  refine ⟨hkeeps, hinv', ?_⟩
  dsimp only
  rw [wp_ofExcept]
  exact hinv'

/-- A sign-in typed by a person, up to the point where it goes on with the space it got. -/
theorem lockSignIn_keeps : Keeps (lockContract c) (Lock.lockSignIn c) := by
  intro g s hinv
  unfold Lock.lockSignIn
  rw [wp_bind]
  refine wp_query.mpr ⟨trivial, fun request _ => ⟨hinv, ?_⟩⟩
  dsimp only
  rw [wp_bind, wp_get]
  dsimp only
  split
  · exact hinv
  split
  · exact hinv
  rw [wp_bind]
  refine wp_mono (signInHere_spec (g := { g with typed := some request, listing := none, created := none })
    hinv rfl) fun r g' t hsigned => ?_
  cases r with
  | error e => exact hsigned.1
  | ok signed =>
    cases signed with
    | none => exact hsigned.1
    | some signed => exact joinSpace_spec hsigned.1 (hsigned.2 signed rfl)

theorem lockMove_keeps : Keeps (lockContract c) (Lock.lockMove c) := by
  intro g s hinv
  unfold Lock.lockMove
  rw [wp_bind]
  refine wp_query.mpr ⟨trivial, fun request _ => ⟨hinv, ?_⟩⟩
  dsimp only
  rw [wp_bind, wp_get]
  dsimp only
  split
  · exact hinv
  split
  · exact hinv
  rw [wp_bind]
  refine wp_mono (signInHere_spec (g := { g with typed := some request, listing := none, created := none })
    hinv rfl) fun r g₁ t₁ hsigned => ?_
  obtain ⟨hinv₁, hchosen₁⟩ := hsigned
  cases r with
  | error e => exact hinv₁
  | ok signed =>
    cases signed with
    | none => exact hinv₁
    | some signed =>
      have hchosen := hchosen₁ signed rfl
      dsimp only
      rw [wp_bind]
      refine (still_noteMoveStarted _ _).wp hinv₁ fun r g₂ t₂ hinv₂ hstill₂ => ?_
      cases r with
      | error e => exact hinv₂
      | ok _ =>
        have hchosen₂ := hchosen.of_still hstill₂
        dsimp only
        rw [wp_bind]
        refine still_syncOnce.wp hinv₂ fun r g₃ t₃ hinv₃ hstill₃ => ?_
        cases r with
        | error e => exact hinv₃
        | ok _ =>
          have hchosen₃ := hchosen₂.of_still hstill₃
          dsimp only
          unfold Lock.expect
          rw [wp_bind, wp_bind]
          refine wp_query.mpr ⟨⟨_, hchosen₃.takes⟩, fun copied _ => ⟨hinv₃, ?_⟩⟩
          dsimp only
          rw [wp_ofExcept]
          cases copied with
          | error e => exact hinv₃
          | ok _ => exact joinSpace_spec hinv₃ hchosen₃

theorem program_keeps (command : LockCommand) : Keeps (lockContract c) (command.program c) := by
  cases command with
  | signIn => exact lockSignIn_keeps
  | move => exact lockMove_keeps
  | signOut => exact still_lockSignOut.keeps
  | forgetMove =>
    exact (still_setLock (f := fun lock => { lock with moveStartedMs := none }) fun _ => rfl).keeps
  | endSession =>
    exact (still_setLock (f := fun lock => { lock with protectedRefreshToken := none })
      fun _ => rfl).keeps
  | keepRefreshToken =>
    exact ((still_ask (q := .refreshed) trivial).bind Still.composes fun _ =>
      still_setLock fun _ => by split <;> rfl).keeps
  | openRefreshToken =>
    refine ((Within.bind Still.composes (Within.get Still.composes) fun db => ?_).bind
      Still.composes fun _ => .done Still.composes _).keeps
    exact still_openToken (still_setLock fun _ => rfl)

end join

/-- A device nobody has signed in on yet. -/
def SignIns.fresh : SignIns := { used := fun _ => [], typed := none, listing := none, created := none }

/-- What else goes on on a device: nothing of it touches what it knows of its accounts. -/
def AccountsKept (g : SignIns) (s : LockDb) (g' : SignIns) (t : LockDb) : Prop :=
  g' = g ∧ t.other.accounts = s.other.accounts

/-- Whatever the server lists, answers and refuses: a space is only taken, and only copied to,
as the person and the device's own memory allow it, and never one the device left; and of
every account the device remembers each space it used on it, all but the current one as left. -/
theorem lock_takes_only {c : LockCrates} {db t : LockDb} {g : SignIns}
    {log : List (Entry LockDb LockAsk LockAnswer SignIns)} (hfresh : db.other.accounts = ∅)
    (hrun : Session (lockContract c) (LockCommand.program c) AccountsKept .fresh db log g t) :
    (∀ g s u, .wrote g s u ∈ log → SpaceStep c g s u) ∧
    (∀ g s id a, .asked g s (.copyToLock id) a ∈ log → ∃ name, Takes c g s name id) ∧
    ∀ name, Remembers (g.used name) (t.other.account name) := by
  have hstart : (lockContract c).inv .fresh db := by
    intro name
    have haccount : db.other.account name = {} := by
      unfold Enrolments.account
      rw [hfresh]
      rfl
    rw [haccount]
    exact ⟨fun id => by simp [SignIns.fresh], nofun⟩
  have hothers : ∀ g s g' t, (lockContract c).inv g s → AccountsKept g s g' t →
      (lockContract c).inv g' t := by
    intro g s g' t hinv ⟨hsame, haccounts⟩ name
    have haccount : t.other.account name = s.other.account name := by
      unfold Enrolments.account
      rw [haccounts]
    rw [hsame, haccount]
    exact hinv name
  obtain ⟨hlog, hend⟩ := hrun.sound
    (fun command g s hinv => (program_keeps command).wp hinv fun _ _ _ _ => trivial) hothers hstart
  exact ⟨fun g s u hmem => hlog _ hmem, fun g s id a hmem => hlog _ hmem, hend⟩

section examples

def plainCrates : LockCrates where
  lowercase := id
  normalizeServer := some
  normalizeEmail := id
  unwrapSpaceKey := fun _ _ => some 5
  wrapSpaceKey := fun _ _ => ""
  wrapping := .ideal fun _ _ _ _ => .ok 1
  accountEmail_normalizeEmail := Text.trim_trim

/-- A device without a vault of its own. -/
def newDevice : LockDb where
  store := Store.empty 1 100 none
  header := none
  deviceUnlock := none
  lastSyncMs := none
  other :=
    { pairing := .none
      lock :=
        { active := false, serverUrl := none, email := none, spaceId := none
          protectedRefreshToken := none, signedInMs := none, moveStartedMs := none }
      accounts := ∅ }

/-- A server that lists one space, and a person who agrees to it. -/
def listing (space : Uuid) : (q : LockAsk) → LockAnswer q
  | .typed =>
      { serverUrl := "https://lock.example", email := "a@b.example", password := [1], twoFactor := none
        acceptSpace := some (.listed space) }
  | .password => [1]
  | .unprotect _ => .notNow
  | .seal _ => .ok []
  | .login .. => .ok (.granted { extrasKey := 1, refreshToken := none, rememberToken := none, kdf := "" })
  | .spaces => .ok [{ space := "ssh", id := space, key := "" }]
  | .newSpace => (0, 0)
  | .createSpace .. => .ok .exists
  | .salt => 0
  | .now => 0
  | .fault => fun _ => none
  | .syncOnce => ((Store.empty 1 100 none, none), .ok ())
  | .copyToLock _ => .ok ()
  | .refreshed => []

def firstSignIn : Played LockDb LockAsk LockAnswer LockError Unit SignIns :=
  (Lock.lockSignIn plainCrates).play (lockContract plainCrates) (listing 7) .fresh newDevice

/-- The server lists another space than the device used. -/
def secondSignIn : Played LockDb LockAsk LockAnswer LockError Unit SignIns :=
  (Lock.lockSignIn plainCrates).play (lockContract plainCrates) (listing 8) firstSignIn.history
    firstSignIn.state

def drawsNoSpace : Entry LockDb LockAsk LockAnswer SignIns → Bool
  | .asked _ _ .newSpace _ => false
  | _ => true

theorem looked_of_drawsNoSpace {log : List (Entry LockDb LockAsk LockAnswer SignIns)}
    (h : log.all drawsNoSpace = true) : ∀ e ∈ log, e.Looked (lockContract plainCrates) := by
  intro e he
  have hdraws := List.all_eq_true.mp h e he
  cases e with
  | wrote g s t => exact trivial
  | asked g s q a => cases q <;> first | exact trivial | cases hdraws

/-- The person agrees to the other space, and the first one is left for good. -/
theorem lock_takes_second : ∃ log g t,
    Session (lockContract plainCrates) (LockCommand.program plainCrates) AccountsKept .fresh newDevice
      log g t ∧
    (t.other.account ("https://lock.example", "a@b.example")).leftSpaces = [7] ∧
    (∀ g s u, .wrote g s u ∈ log → SpaceStep plainCrates g s u) ∧
    (∀ g s id a, .asked g s (.copyToLock id) a ∈ log → ∃ name, Takes plainCrates g s name id) ∧
    ∀ name, Remembers (g.used name) (t.other.account name) := by
  have hfirst : Exec (lockContract plainCrates) (Lock.lockSignIn plainCrates) .fresh newDevice
      firstSignIn.log firstSignIn.history firstSignIn.state (some firstSignIn.result) :=
    play_exec_of_looked _ _ _ (looked_of_drawsNoSpace (by decide +kernel))
  have hsecond : Exec (lockContract plainCrates) (Lock.lockSignIn plainCrates) firstSignIn.history
      firstSignIn.state secondSignIn.log secondSignIn.history secondSignIn.state
      (some secondSignIn.result) :=
    play_exec_of_looked _ _ _ (looked_of_drawsNoSpace (by decide +kernel))
  have hrun : Session (lockContract plainCrates) (LockCommand.program plainCrates) AccountsKept .fresh
      newDevice _ secondSignIn.history secondSignIn.state :=
    .run LockCommand.signIn (.run LockCommand.signIn .start hfirst) hsecond
  exact ⟨_, _, _, hrun, by decide +kernel, lock_takes_only rfl hrun⟩

end examples

end UwuSsh

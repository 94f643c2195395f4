import UwuSsh.Tunnel.ManagerFacts

/-!
The forwards of the connections. What a call or a task can do in one step is said first. From it: a forward is that of
a tunnel that is kept, or of the one that is started, and of a port that the server gives nothing listens on before.
-/
namespace UwuSsh.Tunnel

/-- The forward that a start has registered. -/
def StartAt.lists (spec : TunnelSpec) : StartAt → Option (UInt32 × ℕ)
  | .asking o => if spec.kind = .remotePort ∧ spec.bindPort ≠ 0 then some (spec.bindPort.toUInt32, o) else none
  | .spawned o _ _ remote => remote.map (·, o)
  | _ => none

def PipeAt.report : PipeAt → Option Report
  | .opened report => some report
  | .ended report => some report
  | _ => none

def TaskAt.report : TaskAt → Option Report
  | .waiting => none
  | .reporting report => some report

def StopAt.owes : StopAt → Option (ℕ × Report)
  | .reporting o report => some (o, report)
  | _ => none

def StartAt.owes : StartAt → Option (ℕ × Report)
  | .reporting o report => some (o, report)
  | .failed o report => some (o, report)
  | _ => none

namespace World

variable {w w' : World}

/-! ### What a task does -/

theorem goTask_cases {n o : ℕ} {kind : TunnelKind} {reply : Reply} {place : TaskAt}
    (h : w.goTask n o kind reply place = some w') :
    (place = .waiting ∧ ((w.shared o).stop = true ∨ w.state o = .stopped) ∧ w' = w.taskBecomes n none) ∨
    (place = .waiting ∧ (w.link (w.shared o).link).closed = true ∧ w.state o ≠ .stopped ∧
      w' = (w.set o (.failed .connectionLost)).taskBecomes n (some ⟨o, kind, .reporting .read⟩)) ∨
    (place = .reporting .read ∧ w' = w.taskBecomes n (some ⟨o, kind, .reporting (.tell (w.status o))⟩)) ∨
    ∃ status, place = .reporting (.tell status) ∧ w' = (w.tell status).taskBecomes n none := by
  unfold goTask at h
  split at h
  · split at h
    · split at h
      · next hclosed =>
        split at h
        · next hstopped => exact .inl ⟨rfl, .inr hstopped, (Option.some.inj h).symm⟩
        · next hstopped => exact .inr (.inl ⟨rfl, hclosed, hstopped, (Option.some.inj h).symm⟩)
      · cases h
    · split at h
      · next hstop => exact .inl ⟨rfl, .inl hstop, (Option.some.inj h).symm⟩
      · cases h
  · exact .inr (.inr (.inl ⟨rfl, (Option.some.inj h).symm⟩))
  · exact .inr (.inr (.inr ⟨_, rfl, (Option.some.inj h).symm⟩))

/-- A pipe counts and is to report, or it is gone, or it reports. -/
theorem goPipe_cases {n o : ℕ} {reply : Reply} {place : PipeAt} (h : w.goPipe n o reply place = some w') :
    (place.report = none ∧ ∃ (f : TunnelStatus → TunnelStatus) (after : PipeAt), (∀ s, (f s).id = s.id) ∧
      (∀ s, (f s).state = s.state) ∧ after.report = some .read ∧ w' = (w.write o f).pipeBecomes n (some ⟨o, after⟩)) ∨
    (place.report = none ∧ w' = w.pipeBecomes n none) ∨
    (place.report = some .read ∧ ∃ after : PipeAt, after.report = some (.tell (w.status o)) ∧
      w' = w.pipeBecomes n (some ⟨o, after⟩)) ∨
    ∃ status, place.report = some (.tell status) ∧ ∃ after : Option Pipe, (∀ p ∈ after, p.shared = o ∧ p.place.report = none) ∧
      w' = (w.tell status).pipeBecomes n after := by
  unfold goPipe at h
  split at h
  · split at h
    · refine .inl ⟨rfl, _, _, ?_, ?_, ?_, (Option.some.inj h).symm⟩
      · exact fun _ => rfl
      · exact fun _ => rfl
      · rfl
    · exact .inr (.inl ⟨rfl, (Option.some.inj h).symm⟩)
  · exact .inr (.inr (.inl ⟨rfl, _, rfl, (Option.some.inj h).symm⟩))
  · refine .inr (.inr (.inr ⟨_, rfl, _, ?_, (Option.some.inj h).symm⟩))
    intro p hp
    obtain rfl := Option.some.inj hp
    exact ⟨rfl, rfl⟩
  · refine .inl ⟨rfl, _, _, ?_, ?_, ?_, (Option.some.inj h).symm⟩
    · exact fun _ => rfl
    · exact fun _ => rfl
    · rfl
  · exact .inr (.inr (.inl ⟨rfl, _, rfl, (Option.some.inj h).symm⟩))
  · refine .inr (.inr (.inr ⟨_, rfl, none, ?_, (Option.some.inj h).symm⟩))
    intro p hp
    cases hp

/-! ### What a stop does -/

theorem goStop_cases {n : ℕ} {ids : List ℕ} {place : StopAt} (h : w.goStop n ids place = some w') :
    (place = .next ∧ ∃ rest : Option (List ℕ), w' = w.stopBecomes n (rest.map fun rest => ⟨rest, .next⟩)) ∨
    (place = .next ∧ w.start = none ∧ ∃ id rest r, w.tunnels id = some r ∧
      w' = ((w.keep id none).finish r).stopBecomes n (some ⟨rest, .waiting r⟩)) ∨
    (∃ r, place = .waiting r ∧
      w' = (w.set r.shared .stopped).stopBecomes n (some ⟨ids, .reporting r.shared .read⟩)) ∨
    (∃ o, place = .reporting o .read ∧ w' = w.stopBecomes n (some ⟨ids, .reporting o (.tell (w.status o))⟩)) ∨
    ∃ o status, place = .reporting o (.tell status) ∧ w' = (w.tell status).stopBecomes n (some ⟨ids, .next⟩) := by
  cases place with
  | next =>
    cases ids with
    | nil => exact .inl ⟨rfl, none, (Option.some.inj h).symm⟩
    | cons id rest =>
      cases hstart : w.start with
      | some s => simp [goStop, hstart] at h
      | none =>
        cases hr : w.tunnels id with
        | none =>
          have hstep : w.goStop n (id :: rest) .next = some (w.stopBecomes n (some ⟨rest, .next⟩)) := by
            simp [goStop, hstart, hr]
          exact .inl ⟨rfl, some rest, Option.some.inj (h.symm.trans hstep)⟩
        | some r =>
          have hstep : w.goStop n (id :: rest) .next =
              some (((w.keep id none).finish r).stopBecomes n (some ⟨rest, .waiting r⟩)) := by
            simp [goStop, hstart, hr]
          exact .inr (.inl ⟨rfl, rfl, id, rest, r, hr, Option.some.inj (h.symm.trans hstep)⟩)
  | waiting r =>
    simp only [goStop] at h
    split at h
    · exact .inr (.inr (.inl ⟨r, rfl, (Option.some.inj h).symm⟩))
    · cases h
  | reporting o report =>
    cases report with
    | read => exact .inr (.inr (.inr (.inl ⟨o, rfl, (Option.some.inj h).symm⟩)))
    | tell status => exact .inr (.inr (.inr (.inr ⟨o, status, rfl, (Option.some.inj h).symm⟩)))

theorem tunnels_finish (w : World) (id : ℕ) (r : Running) :
    ((w.keep id none).finish r).tunnels = Function.update w.tunnels id none := by
  obtain ⟨link, heq, -⟩ := (w.keep id none).finish_eq r
  rw [heq]
  rfl

theorem start_finish (w : World) (id : ℕ) (r : Running) : ((w.keep id none).finish r).start = w.start := by
  obtain ⟨link, heq, -⟩ := (w.keep id none).finish_eq r
  rw [heq]
  rfl

theorem tasks_finish (w : World) (id : ℕ) (r : Running) : ((w.keep id none).finish r).tasks = w.tasks := by
  obtain ⟨link, heq, -⟩ := (w.keep id none).finish_eq r
  rw [heq]
  rfl

/-! ### What a start does -/

/-- A start asks for a port, and what it had to register for that there was none of, or it has failed. -/
theorem asks_cases (w : World) (call : StartCall) (o : ℕ) :
    ((call.spec.kind = .localPort ∨ call.spec.bindPort = 0) ∧ w.asks call o = w.starts call (.asking o)) ∨
    (∃ error, w.asks call o = w.fails call o error) ∨
    (call.spec.kind = .remotePort ∧ call.spec.bindPort ≠ 0 ∧
      (w.link call.link).forwards call.spec.bindPort.toUInt32 = none ∧
      w.asks call o = (w.forward call.link call.spec.bindPort.toUInt32 (some o)).starts call (.asking o)) := by
  unfold asks
  split
  · exact .inr (.inl ⟨_, rfl⟩)
  · split
    · next hkind => exact .inl ⟨.inl hkind, rfl⟩
    · next hkind =>
      split
      · next hport => exact .inl ⟨.inr hport, rfl⟩
      · next hport =>
        split
        · exact .inr (.inl ⟨_, rfl⟩)
        · next hfree => exact .inr (.inr ⟨hkind, hport, by simpa using hfree, rfl⟩)

/-- What becomes of a start that asked. -/
theorem asked_cases {call : StartCall} {o : ℕ} {reply : Reply} (h : w.goStart call reply (.asking o) = some w') :
    ((call.spec.kind = .localPort ∨ call.spec.bindPort = 0) ∧ ∃ error, w' = w.fails call o error) ∨
    (call.spec.kind = .remotePort ∧ call.spec.bindPort ≠ 0 ∧
      ∃ error, w' = (w.forward call.link call.spec.bindPort.toUInt32 none).fails call o error) ∨
    (call.spec.kind = .localPort ∧ ∃ bound, w' = w.spawns call o bound none) ∨
    (call.spec.kind = .remotePort ∧ call.spec.bindPort ≠ 0 ∧
      ∃ bound, w' = w.spawns call o bound (some call.spec.bindPort.toUInt32)) ∨
    (call.spec.kind = .remotePort ∧ call.spec.bindPort = 0 ∧ ∃ port bound, reply = .given port ∧
      w' = (w.forward call.link port (some o)).spawns call o bound (some port)) := by
  have hrefused : ∀ error, call.spec.kind = .remotePort →
      ((call.spec.kind = .localPort ∨ call.spec.bindPort = 0) ∧ ∃ e, w.refused call o error = w.fails call o e) ∨
      (call.spec.kind = .remotePort ∧ call.spec.bindPort ≠ 0 ∧
        ∃ e, w.refused call o error = (w.forward call.link call.spec.bindPort.toUInt32 none).fails call o e) := by
    intro error hkind
    unfold refused
    dsimp only
    split
    · next hport => exact .inl ⟨.inr hport, _, rfl⟩
    · next hport => exact .inr ⟨hkind, hport, _, rfl⟩
  have hdenied : ∀ error, call.spec.kind = .remotePort → some (w.refused call o error) = some w' → _ :=
    fun error hkind heq => Option.some.inj heq ▸ hrefused error hkind
  simp only [goStart] at h
  split at h
  · next hkind =>
    unfold askedLocal at h
    split at h
    · exact .inr (.inr (.inl ⟨hkind, _, (Option.some.inj h).symm⟩))
    · exact .inl ⟨.inl hkind, _, (Option.some.inj h).symm⟩
    · exact .inl ⟨.inl hkind, _, (Option.some.inj h).symm⟩
    · cases h
  · next hkind =>
    unfold askedRemote at h
    split at h
    · split at h
      · next hport => exact .inr (.inr (.inr (.inr ⟨hkind, hport, _, _, rfl, (Option.some.inj h).symm⟩)))
      · next hport => exact .inr (.inr (.inr (.inl ⟨hkind, hport, _, (Option.some.inj h).symm⟩)))
    · exact (hdenied _ hkind h).imp_right .inl
    · exact (hdenied _ hkind h).imp_right .inl
    · exact (hdenied _ hkind h).imp_right .inl
    · cases h

/-! ### Forwards -/

def asked (w : World) : Option (ℕ × UInt32 × ℕ) := w.start.bind fun s => (s.2.lists s.1.spec).map (s.1.link, ·)

/-- Whose forward a port of a connection is. -/
def Lists (w : World) (l : ℕ) (port : UInt32) (o : ℕ) : Prop :=
  (∃ id r, w.tunnels id = some r ∧ r.shared = o ∧ r.link = some l ∧ r.remote = some port) ∨ w.asked = some (l, port, o)

/-- The forwards of the connections are those, and no others. -/
def Table (w : World) : Prop := ∀ l port o, (w.link l).forwards port = some o ↔ w.Lists l port o

theorem forwards_forward (w : World) (l : ℕ) (port : UInt32) (x : Option ℕ) (l' : ℕ) (port' : UInt32) :
    ((w.forward l port x).link l').forwards port' =
      if l' = l ∧ port' = port then x else (w.link l').forwards port' := by
  by_cases hl : l' = l
  · subst hl
    by_cases hport : port' = port
    · subst hport
      simp [forward]
    · simp [forward, hport]
  · simp [forward, hl]

theorem closed_forward (w : World) (l : ℕ) (port : UInt32) (x : Option ℕ) (l' : ℕ) :
    ((w.forward l port x).link l').closed = (w.link l').closed := by
  by_cases hl : l' = l
  · subst hl
    simp [forward]
  · simp [forward, hl]

namespace Table

variable (h : Table w)

include h

theorem same (hforwards : ∀ l, (w'.link l).forwards = (w.link l).forwards) (htunnels : w'.tunnels = w.tunnels)
    (hasked : w'.asked = w.asked) : Table w' := by
  intro l port o
  rw [hforwards, h l port o, Lists, Lists, htunnels, hasked]

/-- A start registers a forward that there is none of. -/
theorem add {l : ℕ} {port : UInt32} {o : ℕ} (hfree : (w.link l).forwards port = none) (hbefore : w.asked = none)
    (hlink : w'.link = (w.forward l port (some o)).link) (htunnels : w'.tunnels = w.tunnels)
    (hasked : w'.asked = some (l, port, o)) : Table w' := by
  intro l' port' o'
  rw [hlink, forwards_forward, Lists, htunnels, hasked]
  have hold := h l' port' o'
  rw [Lists, hbefore] at hold
  by_cases heq : l' = l ∧ port' = port
  · obtain ⟨rfl, rfl⟩ := heq
    rw [hfree] at hold
    have hnone := (not_or.mp (hold.not.mp (by simp))).1
    rw [if_pos ⟨rfl, rfl⟩]
    constructor
    · intro ho
      cases ho
      exact .inr rfl
    · rintro (hkept | hself)
      · exact absurd hkept hnone
      · cases hself
        rfl
  · rw [if_neg heq, hold]
    constructor
    · rintro (hkept | hself)
      · exact .inl hkept
      · cases hself
    · rintro (hkept | hself)
      · exact .inl hkept
      · cases hself
        exact absurd ⟨rfl, rfl⟩ heq

/-- A start takes its forward back. -/
theorem drop {l : ℕ} {port : UInt32} {o : ℕ} (hbefore : w.asked = some (l, port, o)) (hasked : w'.asked = none)
    (hlink : w'.link = (w.forward l port none).link) (htunnels : w'.tunnels = w.tunnels)
    (hkept : ∀ id r, w.tunnels id = some r → r.shared ≠ o) : Table w' := by
  intro l' port' o'
  rw [hlink, forwards_forward, Lists, htunnels, hasked]
  have hold := h l' port' o'
  rw [Lists, hbefore] at hold
  by_cases heq : l' = l ∧ port' = port
  · obtain ⟨rfl, rfl⟩ := heq
    have hown : (w.link l').forwards port' = some o := (h l' port' o).mpr (.inr hbefore)
    rw [if_pos ⟨rfl, rfl⟩]
    constructor
    · intro hnone
      cases hnone
    · rintro (⟨id, r, hr, hshared, hrest⟩ | hself)
      · have hother := hold.mpr (.inl ⟨id, r, hr, hshared, hrest⟩)
        rw [hown] at hother
        exact absurd (hshared.trans (Option.some.inj hother).symm) (hkept id r hr)
      · cases hself
  · rw [if_neg heq, hold]
    constructor
    · rintro (hkept | hself)
      · exact .inl hkept
      · cases hself
        exact absurd ⟨rfl, rfl⟩ heq
    · rintro (hkept | hself)
      · exact .inl hkept
      · cases hself

/-- A tunnel that is kept is taken, and its forward with it. -/
theorem take {id : ℕ} {r : Running} (hr : w.tunnels id = some r) (hlive : ∀ id r', w.tunnels id = some r' → w.Live id r'.shared)
    (hbefore : w.asked = none) (hasked : w'.asked = none) (htunnels : w'.tunnels = Function.update w.tunnels id none)
    (hlink : w'.link = ((w.keep id none).finish r).link) : Table w' := by
  have hother : ∀ i r', w'.tunnels i = some r' ↔ i ≠ id ∧ w.tunnels i = some r' := by
    intro i r'
    rw [htunnels]
    by_cases hi : i = id
    · subst hi
      simp
    · simp [hi]
  have hids : ∀ i r', w.tunnels i = some r' → r'.shared = r.shared → i = id := by
    intro i r' hr' hshared
    rw [← (hlive i r' hr').id_eq, ← (hlive id r hr).id_eq, hshared]
  intro l port o
  have hold := h l port o
  rw [Lists, hbefore] at hold
  have hkept : w'.Lists l port o ↔
      ∃ i r', i ≠ id ∧ w.tunnels i = some r' ∧ r'.shared = o ∧ r'.link = some l ∧ r'.remote = some port := by
    rw [Lists, hasked]
    constructor
    · rintro (⟨i, r', hr', hrest⟩ | hself)
      · exact ⟨i, r', ((hother i r').mp hr').1, ((hother i r').mp hr').2, hrest⟩
      · cases hself
    · rintro ⟨i, r', hi, hr', hrest⟩
      exact .inl ⟨i, r', (hother i r').mpr ⟨hi, hr'⟩, hrest⟩
  rw [hkept, hlink]
  obtain ⟨l₀, port₀, hl₀, hport₀, hfinish⟩ | ⟨hnone, hfinish⟩ := (w.keep id none).finish_cases r
  · rw [hfinish, forwards_forward]
    by_cases heq : l = l₀ ∧ port = port₀
    · obtain ⟨rfl, rfl⟩ := heq
      have hown : (w.link l).forwards port = some r.shared := (h l port r.shared).mpr (.inl ⟨id, r, hr, rfl, hl₀, hport₀⟩)
      rw [if_pos ⟨rfl, rfl⟩]
      constructor
      · intro hno
        cases hno
      · rintro ⟨i, r', hi, hr', hshared, hrest⟩
        have hsame := hold.mpr (.inl ⟨i, r', hr', hshared, hrest⟩)
        rw [hown] at hsame
        exact absurd (hids i r' hr' (hshared.trans (Option.some.inj hsame).symm)) hi
    · rw [if_neg heq]
      change (w.link l).forwards port = some o ↔ _
      rw [hold]
      constructor
      · rintro (⟨i, r', hr', hshared, hlink', hremote⟩ | hself)
        · refine ⟨i, r', ?_, hr', hshared, hlink', hremote⟩
          rintro rfl
          obtain rfl := Option.some.inj (hr.symm.trans hr')
          rw [hl₀] at hlink'
          rw [hport₀] at hremote
          exact heq ⟨(Option.some.inj hlink').symm, (Option.some.inj hremote).symm⟩
        · cases hself
      · rintro ⟨i, r', -, hrest⟩
        exact .inl ⟨i, r', hrest⟩
  · rw [hfinish]
    change (w.link l).forwards port = some o ↔ _
    rw [hold]
    constructor
    · rintro (⟨i, r', hr', hshared, hlink', hremote⟩ | hself)
      · refine ⟨i, r', ?_, hr', hshared, hlink', hremote⟩
        rintro rfl
        obtain rfl := Option.some.inj (hr.symm.trans hr')
        exact hnone l port ⟨hlink', hremote⟩
      · cases hself
    · rintro ⟨i, r', -, hrest⟩
      exact .inl ⟨i, r', hrest⟩

/-- The tunnel that a start made is kept, with its forward. -/
theorem insert {id : ℕ} {r : Running} (hempty : w.tunnels id = none) (htunnels : w'.tunnels = Function.update w.tunnels id (some r))
    (hlink : w'.link = w.link) (hasked : w'.asked = none)
    (hsame : ∀ l port o, w.asked = some (l, port, o) ↔ r.shared = o ∧ r.link = some l ∧ r.remote = some port) : Table w' := by
  intro l port o
  rw [hlink, h l port o, Lists, Lists, hsame, hasked, htunnels]
  constructor
  · rintro (⟨i, r', hr', hrest⟩ | hself)
    · refine .inl ⟨i, r', ?_, hrest⟩
      have hi : i ≠ id := by
        rintro rfl
        rw [hempty] at hr'
        cases hr'
      rw [Function.update_of_ne hi, hr']
    · exact .inl ⟨id, r, Function.update_self _ _ _, hself⟩
  · rintro (⟨i, r', hr', hrest⟩ | hself)
    · obtain ⟨-, hnew⟩ | ⟨-, hold⟩ := update_some hr'
      · obtain rfl := Option.some.inj hnew
        exact .inr hrest
      · exact .inl ⟨i, r', hold, hrest⟩
    · cases hself

end Table

theorem asked_eq {call : StartCall} {place : StartAt} (hcall : w.start = some (call, place)) :
    w.asked = (place.lists call.spec).map (call.link, ·) := by
  rw [asked, hcall]
  rfl

theorem asked_none (hnone : w.start = none) : w.asked = none := by
  rw [asked, hnone]
  rfl

theorem lists_asking_none {spec : TunnelSpec} (h : spec.kind = .localPort ∨ spec.bindPort = 0) (o : ℕ) :
    (StartAt.asking o).lists spec = none := by
  refine if_neg fun hboth => ?_
  obtain hlocal | hport := h
  · rw [hlocal] at hboth
    exact TunnelKind.noConfusion hboth.1
  · exact hboth.2 hport

theorem lists_asking {spec : TunnelSpec} (hkind : spec.kind = .remotePort) (hport : spec.bindPort ≠ 0) (o : ℕ) :
    (StartAt.asking o).lists spec = some (spec.bindPort.toUInt32, o) := if_pos ⟨hkind, hport⟩

/-- What a start makes is not kept. -/
theorem Placed.kept_ne (h : Placed w) {call : StartCall} {place : StartAt} (hcall : w.start = some (call, place)) {o : ℕ}
    (ho : o ∈ place.makes) {id : ℕ} {r : Running} (hr : w.tunnels id = some r) : r.shared ≠ o := by
  rintro rfl
  have hkeeps : place.keeps = false := by cases place <;> first | rfl | cases ho
  have hempty := h.free call place hcall hkeeps
  have hid : id = call.id := (h.kept id r hr).1.id_eq.symm.trans (h.makes call place hcall _ ho).1.id_eq
  rw [← hid, hr] at hempty
  cases hempty

namespace Table

theorem goStart (h : Table w) (hplaced : Placed w) {call : StartCall} {place : StartAt}
    (hcall : w.start = some (call, place)) {reply : Reply} (hstep : w.goStart call reply place = some w')
    (hgiven : ∀ port o, reply = .given port → place = .asking o → call.spec.kind = .remotePort → call.spec.bindPort = 0 →
      (w.link call.link).forwards port = none) : Table w' := by
  have hnow := asked_eq hcall
  cases place with
  | waiting old =>
    simp only [World.goStart] at hstep
    split at hstep
    · obtain rfl := Option.some.inj hstep
      exact h.same (fun _ => rfl) rfl hnow.symm
    · cases hstep
  | making =>
    obtain rfl := Option.some.inj hstep
    obtain ⟨hcond, heq⟩ | ⟨error, heq⟩ | ⟨hkind, hport, hfree, heq⟩ := (w.create call).asks_cases call w.made
    · rw [heq]
      refine h.same (fun _ => rfl) rfl (Eq.trans ?_ hnow.symm)
      rw [asked_eq rfl, lists_asking_none hcond]
      rfl
    · rw [heq]
      exact h.same (fun _ => rfl) rfl hnow.symm
    · rw [heq]
      refine h.add hfree hnow rfl rfl ?_
      rw [asked_eq rfl, lists_asking hkind hport]
      rfl
  | asking o =>
    obtain ⟨hcond, error, rfl⟩ | ⟨hkind, hport, error, rfl⟩ | ⟨hkind, bound, rfl⟩ | ⟨hkind, hport, bound, rfl⟩ |
      ⟨hkind, hport, port, bound, hreply, rfl⟩ := asked_cases hstep
    · rw [lists_asking_none hcond] at hnow
      exact h.same (fun _ => rfl) rfl hnow.symm
    · rw [lists_asking hkind hport] at hnow
      exact h.drop hnow rfl rfl rfl fun id r hr => hplaced.kept_ne hcall rfl hr
    · rw [lists_asking_none (.inl hkind)] at hnow
      exact h.same (fun _ => rfl) rfl hnow.symm
    · rw [lists_asking hkind hport] at hnow
      exact h.same (fun _ => rfl) rfl hnow.symm
    · rw [lists_asking_none (.inr hport)] at hnow
      exact h.add (hgiven port o hreply rfl hkind hport) hnow rfl rfl rfl
  | spawned o task bound remote =>
    obtain rfl := Option.some.inj hstep
    refine h.insert (hplaced.free call _ hcall rfl) (r := ⟨o, some task, some call.link, remote⟩) rfl rfl rfl ?_
    intro l port other
    rw [hnow]
    cases remote with
    | none => simp [StartAt.lists]
    | some given =>
      simp only [StartAt.lists, Option.map_some, Option.some.injEq, Prod.mk.injEq]
      constructor
      · rintro ⟨rfl, rfl, rfl⟩
        exact ⟨rfl, rfl, rfl⟩
      · rintro ⟨rfl, rfl, rfl⟩
        exact ⟨rfl, rfl, rfl⟩
  | reporting o report =>
    cases report with
    | read =>
      obtain rfl := Option.some.inj hstep
      exact h.same (fun _ => rfl) rfl hnow.symm
    | tell status =>
      obtain rfl := Option.some.inj hstep
      exact h.same (fun _ => rfl) rfl hnow.symm
  | failed o report =>
    cases report with
    | read =>
      obtain rfl := Option.some.inj hstep
      exact h.same (fun _ => rfl) rfl hnow.symm
    | tell status =>
      obtain rfl := Option.some.inj hstep
      refine h.insert (hplaced.free call _ hcall rfl) (r := ⟨o, none, none, none⟩) rfl rfl rfl ?_
      intro l port other
      rw [hnow]
      simp [StartAt.lists]

theorem begins (h : Table w) (hplaced : Placed w) (hnone : w.start = none) (call : StartCall) : Table (w.begin call) := by
  unfold World.begin
  split
  · next running hr =>
    split
    · exact h
    · exact h.take hr (fun id r hr => (hplaced.kept id r hr).1) (asked_none hnone) rfl (w.tunnels_finish _ _) rfl
  · exact h.same (fun _ => rfl) rfl (asked_none hnone).symm

theorem goStop (h : Table w) (hplaced : Placed w) {n : ℕ} {ids : List ℕ} {place : StopAt}
    (hstep : w.goStop n ids place = some w') : Table w' := by
  obtain ⟨-, rest, rfl⟩ | ⟨-, hnone, id, rest, r, hr, rfl⟩ | ⟨r, -, rfl⟩ | ⟨o, -, rfl⟩ | ⟨o, status, -, rfl⟩ :=
    goStop_cases hstep
  · exact h.same (fun _ => rfl) rfl rfl
  · have hasked : ((w.keep id none).finish r).asked = none := asked_none ((w.start_finish id r).trans hnone)
    exact h.take hr (fun id r hr => (hplaced.kept id r hr).1) (asked_none hnone) hasked (w.tunnels_finish _ _) rfl
  all_goals exact h.same (fun _ => rfl) rfl rfl

theorem goTask (h : Table w) {n o : ℕ} {kind : TunnelKind} {reply : Reply} {place : TaskAt}
    (hstep : w.goTask n o kind reply place = some w') : Table w' := by
  obtain ⟨-, -, rfl⟩ | ⟨-, -, -, rfl⟩ | ⟨-, rfl⟩ | ⟨status, -, rfl⟩ := goTask_cases hstep
  all_goals exact h.same (fun _ => rfl) rfl rfl

theorem goPipe (h : Table w) {n o : ℕ} {reply : Reply} {place : PipeAt}
    (hstep : w.goPipe n o reply place = some w') : Table w' := by
  obtain ⟨-, f, after, -, -, -, rfl⟩ | ⟨-, rfl⟩ | ⟨-, after, -, rfl⟩ | ⟨status, -, after, -, rfl⟩ := goPipe_cases hstep
  all_goals exact h.same (fun _ => rfl) rfl rfl

end Table

end World

end UwuSsh.Tunnel
